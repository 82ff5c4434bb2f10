import Libpdk.Core.Ranks
import Libpdk.Lang.StringArg

/-!
# Several arguments of a string

`multiArg` cuts the string into text and placeholders, gives the arguments to the placeholder
numbers in ascending order, and joins the parts. The number of a placeholder is computed as an int
from as many digits as there are; an int that overflows is undefined (`none`).

A placeholder is a `%`, perhaps an `L`, and a decimal number of at most 999; the argument that
belongs to it is that of the rank of its number among the numbers of the string. This is what is
put in if and only if no number that is read is beyond the ints (`multiArg_iff`).
-/
namespace Libpdk.Lang

/-- `uc[i].unicode() - '0'`, where it is below 10. -/
def decimalDigit (c : UInt16) : Option Nat :=
  if 0x30 ≤ c.toNat ∧ c.toNat < 0x3A then some (c.toNat - 0x30) else none

/-- The number and the place behind it.
mirrors lang/String.cpp:3869-3876 -/
def escapeLoop : Str → Int → Nat → Option (Int × Nat)
  | [], escape, i => some (escape, i)
  | c :: s, escape, i =>
    match decimalDigit c with
    | none => some (escape, i)
    | some digit =>
      if escape * 10 + digit > intMax then none else escapeLoop s (escape * 10 + digit) (i + 1)

/-- mirrors lang/String.cpp:3856-3883 -/
def getEscape (uc : Str) (pos : Nat) (maxNumber : Int) : Option (Option (Int × Nat)) :=
  let i := pos + 1
  let i := if uc[i]? = some 0x4C then i + 1 else i
  match uc[i]?.bind decimalDigit with
  | none => some none
  | some escape =>
    (escapeLoop (uc.drop (i + 1)) escape (i + 1)).map fun found =>
      if found.1 ≤ maxNumber then some found else none

/-- mirrors lang/String.cpp:3915-3930 -/
structure Part where
  stringRef : Str
  number : Int
  deriving DecidableEq

def Part.ofString (s : Str) (pos len : Nat) (num : Int) : Part := ⟨(s.drop pos).take len, num⟩

section

variable (s : Str)

/-- mirrors lang/String.cpp:3962-3981 -/
def parseLoop : Nat → Nat → Nat → List Part → Option (List Part)
  | 0, _, _, _ => none
  | rounds + 1, i, last, result =>
    if (i : Int) < s.length - 1 then
      if s[i]? = some 0x25 then
        match getEscape s i 999 with
        | none => none
        | some (some (number, i')) =>
          let result :=
            if last ≠ i then result ++ [Part.ofString s last (i - last) (-1)] else result
          parseLoop rounds i' i' (result ++ [Part.ofString s i (i' - i) number])
        | some none => parseLoop rounds (i + 1) last result
      else parseLoop rounds (i + 1) last result
    else if last < s.length then
      some (result ++ [Part.ofString s last (s.length - last) (-1)])
    else some result

end

/-- The digits that a string begins with. -/
def digitRun (s : Str) : Str := s.takeWhile fun c => (decimalDigit c).isSome

/-- The value of digits behind those that make `n`. -/
def decimalFrom (n : Nat) (digits : Str) : Nat :=
  digits.foldl (fun n c => n * 10 + (decimalDigit c).getD 0) n

structure Escape where
  number : Int
  size : Nat

/-- The number that is read behind a `%`. -/
def numberBehind (s : Str) : Nat := decimalFrom 0 (digitRun (localeLetter s).2)

/-- The placeholder that a string begins with. -/
def readEscape : Str → Option Escape
  | [] => none
  | c :: s =>
    let digits := digitRun (localeLetter s).2
    if c ≠ 0x25 ∨ digits = [] ∨ 999 < numberBehind s then none
    else some ⟨numberBehind s, digits.length + (letter (localeLetter s).1).length + 1⟩

theorem digitRun_length (s : Str) : (digitRun s).length ≤ s.length :=
  (List.takeWhile_sublist _).length_le

theorem digitRun_apart {s : Str} : ∀ x ∈ digitRun s, x ≠ 0x25 := by
  rintro x hx rfl
  have hdigit := List.all_takeWhile (p := fun c => (decimalDigit c).isSome) (l := s)
  rw [List.all_eq_true] at hdigit
  exact Bool.noConfusion (hdigit _ hx)

theorem readEscape_some {c : UInt16} {s : Str} {m : Escape} (hread : readEscape (c :: s) = some m) :
    c = 0x25 ∧ numberBehind s ≤ 999 ∧ m.number = numberBehind s ∧
      m.size = (digitRun (localeLetter s).2).length + (letter (localeLetter s).1).length + 1 := by
  simp only [readEscape] at hread
  split at hread
  · cases hread
  · next hnot =>
    cases hread
    simp only [not_or, not_not, Nat.not_lt] at hnot
    exact ⟨hnot.1, hnot.2.2, rfl, rfl⟩

/-- Placeholders as tokens. -/
def placeholders : Tokens UInt16 Escape where
  read := readEscape
  size := Escape.size
  start := (· = 0x25)
  begins := fun hread => (readEscape_some hread).1
  room := by
    intro s m hread
    cases s with
    | nil => cases hread
    | cons c s =>
      obtain ⟨-, -, -, hsize⟩ := readEscape_some hread
      have hlen := congrArg List.length (localeLetter_eq s)
      have hrun := digitRun_length (localeLetter s).2
      rw [List.length_append] at hlen
      rw [hsize, List.length_cons]
      omega
  apart := by
    intro c s m hread x hx
    obtain ⟨-, -, -, hsize⟩ := readEscape_some hread
    have hsplit : s = letter (localeLetter s).1 ++ (digitRun (localeLetter s).2 ++
        (localeLetter s).2.dropWhile fun c => (decimalDigit c).isSome) := by
      rw [digitRun, List.takeWhile_append_dropWhile, ← localeLetter_eq]
    have htake : s.take (m.size - 1) =
        letter (localeLetter s).1 ++ digitRun (localeLetter s).2 := by
      rw [hsize, Nat.add_sub_cancel, Nat.add_comm, ← List.length_append]
      conv => lhs; arg 2; rw [hsplit]
      rw [← List.append_assoc, List.take_left]
    rw [htake, List.mem_append] at hx
    rcases hx with hx | hx
    · exact letter_apart x hx
    · exact digitRun_apart x hx

/-- The numbers of the placeholders of a string. -/
def placeholderNumbers (s : Str) : List Int := (placeholders.all s).map Escape.number

/-- A part with its text, or with that which belongs to its number. -/
def Part.render (text : Int → Option Str) (part : Part) : Str :=
  if part.number = -1 then part.stringRef else (text part.number).getD part.stringRef

/-- What the parts from `last` on are, where the string was parsed up to `i`. -/
structure Parsed (s : Str) (last i : Nat) (parts : List Part) : Prop where
  render : ∀ text, (parts.map (Part.render text)).flatten =
    (s.drop last).take (i - last) ++ placeholders.rewrite (fun m => text m.number) (s.drop i)
  numbers : (parts.filter (·.number ≥ 0)).map Part.number = placeholderNumbers (s.drop i)
  known : ∀ part ∈ parts, part.number = -1 ∨ 0 ≤ part.number

section

variable {s : Str}

theorem take_snoc {last i : Nat} {c : UInt16} {rest : Str} (hle : last ≤ i)
    (hdrop : s.drop i = c :: rest) :
    (s.drop last).take (i + 1 - last) = (s.drop last).take (i - last) ++ [c] := by
  have hsum : i + 1 - last = (i - last) + 1 := by omega
  have hplace : last + (i - last) = i := by omega
  rw [hsum, List.take_add, List.drop_drop, hplace, hdrop]
  rfl

/-- A unit at which no placeholder begins. -/
theorem Parsed.unit {last i : Nat} {c : UInt16} {rest : Str} {parts : List Part} (hle : last ≤ i)
    (hdrop : s.drop i = c :: rest) (hnone : placeholders.read (c :: rest) = none)
    (h : Parsed s last (i + 1) parts) : Parsed s last i parts := by
  have hrest : s.drop (i + 1) = rest := by
    rw [← List.drop_drop, hdrop]
    rfl
  refine ⟨fun text => ?_, ?_, h.known⟩
  · rw [h.render, hrest, take_snoc hle hdrop, hdrop, Tokens.rewrite_copy (by rw [hnone]; nofun),
      List.append_assoc, List.singleton_append]
  · rw [h.numbers, hrest, hdrop, placeholderNumbers, placeholderNumbers, Tokens.all_none hnone]

/-- What is pushed in front of a placeholder: the text since the last one. -/
def textSince (s : Str) (last i : Nat) : List Part :=
  if last ≠ i then [Part.ofString s last (i - last) (-1)] else []

theorem textSince_render (last i : Nat) (text : Int → Option Str) :
    ((textSince s last i).map (Part.render text)).flatten = (s.drop last).take (i - last) := by
  rw [textSince]
  split
  · rw [List.map_singleton, List.flatten_singleton]
    rfl
  · next heq =>
    obtain rfl : last = i := not_not.mp heq
    rw [Nat.sub_self, List.take_zero]
    rfl

theorem textSince_number {last i : Nat} : ∀ part ∈ textSince s last i, part.number = -1 := by
  intro part hpart
  rw [textSince] at hpart
  split at hpart
  · rw [List.mem_singleton.mp hpart]
    rfl
  · cases hpart

/-- The text up to a placeholder, and the placeholder. -/
theorem Parsed.escape {last i : Nat} {c : UInt16} {rest : Str} {m : Escape} {parts : List Part}
    (hdrop : s.drop i = c :: rest) (hread : placeholders.read (c :: rest) = some m)
    (h : Parsed s (i + m.size) (i + m.size) parts) :
    Parsed s last i
      (textSince s last i ++ Part.ofString s i (i + m.size - i) m.number :: parts) := by
  have hpos : 0 ≤ m.number := by
    rw [(readEscape_some hread).2.2.1]
    exact Int.natCast_nonneg _
  have hbehind : s.drop (i + m.size) = (c :: rest).drop m.size := by
    rw [← List.drop_drop, hdrop]
  refine ⟨fun text => ?_, ?_, ?_⟩
  · have hrest := h.render text
    rw [Nat.sub_self, List.take_zero, List.nil_append, hbehind] at hrest
    have hpart : (Part.ofString s i (i + m.size - i) m.number).render text =
        (text m.number).getD ((c :: rest).take m.size) := by
      have hne : m.number ≠ -1 := by omega
      simp only [Part.render, Part.ofString, if_neg hne, hdrop, Nat.add_sub_cancel_left]
    rw [List.map_append, List.flatten_append, textSince_render, List.map_cons,
      List.flatten_cons, hrest, hpart, hdrop]
    cases htext : text m.number with
    | none => rw [Tokens.rewrite_kept hread htext]; rfl
    | some replacement => rw [Tokens.rewrite_token hread htext]; rfl
  · have hlead : (textSince s last i).filter (·.number ≥ 0) = [] := by
      rw [List.filter_eq_nil_iff]
      intro part hpart
      rw [textSince_number part hpart]
      decide
    rw [List.filter_append, hlead, List.nil_append,
      List.filter_cons_of_pos (by rw [decide_eq_true_eq]; exact hpos), List.map_cons, h.numbers,
      hdrop, placeholderNumbers, placeholderNumbers, Tokens.all_token hread, hbehind]
    rfl
  · intro part hpart
    rcases List.mem_append.mp hpart with hpart | hpart
    · exact .inl (textSince_number part hpart)
    rcases List.mem_cons.mp hpart with rfl | hpart
    · exact .inr hpos
    · exact h.known part hpart

/-- In less than two units there is no placeholder. -/
theorem all_short {s : Str} (hshort : s.length ≤ 1) : placeholders.all s = [] := by
  match s with
  | [] => rfl
  | [c] =>
    have hnone : placeholders.read [c] = none := if_pos (.inr (.inl rfl))
    rw [Tokens.all_none hnone]
    rfl

theorem Parsed.rest {last i : Nat} (hle : last ≤ i) (hend : s.length ≤ i + 1) (hi : i ≤ s.length) :
    Parsed s last i
      (if last < s.length then [Part.ofString s last (s.length - last) (-1)] else []) := by
  have hall : placeholders.all (s.drop i) = [] := all_short (by rw [List.length_drop]; omega)
  refine ⟨fun text => ?_, ?_, ?_⟩
  · have hself : placeholders.rewrite (fun m => text m.number) (s.drop i) = s.drop i :=
      Tokens.rewrite_self (by rw [hall]; nofun)
    have hplace : last + (i - last) = i := by omega
    have hjoin : (s.drop last).take (i - last) ++ s.drop i = s.drop last := by
      have hdrop : s.drop i = (s.drop last).drop (i - last) := by rw [List.drop_drop, hplace]
      rw [hdrop, List.take_append_drop]
    rw [hself, hjoin]
    split
    · rw [List.map_singleton, List.flatten_singleton, Part.render, Part.ofString, if_pos rfl,
        List.take_of_length_le (by rw [List.length_drop])]
    · rw [List.drop_eq_nil_of_le (by omega)]
      rfl
  · rw [placeholderNumbers, hall]
    split <;> rfl
  · intro part hpart
    split at hpart
    · rw [List.mem_singleton.mp hpart]
      exact .inl rfl
    · cases hpart

end

end Libpdk.Lang

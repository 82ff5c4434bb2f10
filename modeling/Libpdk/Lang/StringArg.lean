import Libpdk.Core.Text
import Libpdk.Core.Tokens

/-!
# Arguments of a string

`arg` puts a text in the place of the lowest-numbered place markers. They are counted first, which
gives the length of the result, and then a second scan copies; it does not test for the end, since
as long as markers are left there has to be one.

A place marker is a `%`, perhaps an `L`, and one or two digits; the markers of a string are its
tokens. The first scan counts those with the lowest number (`findArgEscapes_summary`).
-/
namespace Libpdk.Lang

/-- `Character::getDigitValue` of a unit, from the Unicode table: -1, or a digit. -/
structure DigitTable where
  value : UInt16 → Int
  range : ∀ c, -1 ≤ value c ∧ value c ≤ 9
  percent : value 0x25 = -1
  letter : value 0x4C = -1

/-- The digits of the table that are ASCII characters. -/
def asciiDigits : DigitTable where
  value c := if 0x30 ≤ c.toNat ∧ c.toNat ≤ 0x39 then c.toNat - 0x30 else -1
  range c := by split <;> omega
  percent := by decide
  letter := by decide

/-- mirrors lang/String.cpp:3534-3541 -/
structure ArgEscapeData where
  minEscape : Int
  occurrences : Int
  localeOccurrences : Int
  escapeLen : Int
  deriving DecidableEq

/-- `INT_MAX` -/
def intMax : Int := 2147483647

/-- From the next `%` on. -/
def toPercent (c : Str) : Str := c.dropWhile (· ≠ 0x25)

/-- Whether there is an `L`, and what is behind it. -/
def localeLetter : Str → Bool × Str
  | [] => (false, [])
  | first :: rest => if first = 0x4C then (true, rest) else (false, first :: rest)

/-! ## Counting -/

section

variable (t : DigitTable)

/-- mirrors lang/String.cpp:3581-3587 -/
def secondDigit (escape : Int) : Str → Int × Str
  | [] => (escape, [])
  | next :: rest =>
    if t.value next ≠ -1 then (10 * escape + t.value next, rest) else (escape, next :: rest)

/-- mirrors lang/String.cpp:3588-3602 -/
def ArgEscapeData.count (d : ArgEscapeData) (escape : Int) (localeArg : Bool) (len : Int) :
    ArgEscapeData :=
  if escape > d.minEscape then d
  else
    let d := if escape < d.minEscape then ⟨escape, 0, 0, 0⟩ else d
    { d with
      occurrences := d.occurrences + 1
      localeOccurrences := d.localeOccurrences + (if localeArg then 1 else 0)
      escapeLen := d.escapeLen + len }

/-- mirrors lang/String.cpp:3556-3603 -/
def findLoop : Nat → Str → ArgEscapeData → Option ArgEscapeData
  | 0, _, _ => none
  | rounds + 1, c, d =>
    match toPercent c with
    | [] => some d
    | percent :: c =>
      match (localeLetter c).2 with
      | [] => some d
      | first :: rest =>
        if t.value first = -1 then findLoop rounds (first :: rest) d
        else
          let number := secondDigit t (t.value first) rest
          findLoop rounds number.2
            (d.count number.1 (localeLetter c).1 ((percent :: c).length - number.2.length))

/-- mirrors lang/String.cpp:3543-3605 -/
def findArgEscapes (s : Str) : Option ArgEscapeData :=
  findLoop t (s.length + 1) s ⟨intMax, 0, 0, 0⟩

/-! ## Copying -/

/-- Units that are put behind `rc` in the result, where it has room for them. -/
def put (resultLen : Int) (rc text : Str) : Option Str :=
  if rc.length + text.length ≤ resultLen then some (rc ++ text) else none

/-- The number, and from its last digit on what is read.
mirrors lang/String.cpp:3643-3649 -/
def lastDigit : Str → Option (Int × Str)
  | [] => none
  | [first] => some (t.value first, [first])
  | first :: next :: rest =>
    if t.value first ≠ -1 ∧ t.value next ≠ -1 then
      some (10 * t.value first + t.value next, next :: rest)
    else some (t.value first, first :: next :: rest)

/-- mirrors lang/String.cpp:3661-3687 -/
def putPadded (resultLen fieldWidth : Int) (fillChar : UInt16) (rc arg : Str) : Option Str := do
  let padChars := List.replicate (max fieldWidth.natAbs arg.length - arg.length) fillChar
  let rc ← put resultLen rc (if fieldWidth > 0 then padChars else [])
  let rc ← put resultLen rc arg
  put resultLen rc (if fieldWidth < 0 then padChars else [])

section

variable (d : ArgEscapeData) (fieldWidth : Int) (arg larg : Str) (fillChar : UInt16)

/-- mirrors lang/String.cpp:3627-3695 -/
def replaceEscapesLoop (resultLen : Int) : Nat → Str → Str → Int → Option Str
  | 0, _, _, _ => none
  | rounds + 1, textStart, rc, replCnt =>
    if textStart = [] then some rc
    else
      match toPercent textStart with
      | [] => none
      | percent :: c => do
        let letter ← if c = [] then none else some (localeLetter c)
        let number ← lastDigit t letter.2
        if number.1 ≠ d.minEscape then
          let rc ← put resultLen rc (textStart.take (textStart.length - number.2.length))
          replaceEscapesLoop resultLen rounds number.2 rc replCnt
        else
          let rc ← put resultLen rc (textStart.take (textStart.length - (percent :: c).length))
          let rc ← putPadded resultLen fieldWidth fillChar rc (if letter.1 then larg else arg)
          if replCnt + 1 = d.occurrences then
            let rc ← put resultLen rc number.2.tail
            if rc.length = resultLen then replaceEscapesLoop resultLen rounds [] rc (replCnt + 1)
            else none
          else replaceEscapesLoop resultLen rounds number.2.tail rc (replCnt + 1)

/-- mirrors lang/String.cpp:3607-3698 -/
def replaceArgEscapes (s : Str) : Option Str := do
  let absfieldWidth : Int := fieldWidth.natAbs
  let resultLen := s.length - d.escapeLen
    + (d.occurrences - d.localeOccurrences) * max absfieldWidth arg.length
    + d.localeOccurrences * max absfieldWidth larg.length
  let rc ← replaceEscapesLoop t d fieldWidth arg larg fillChar resultLen (s.length + 1) s [] 0
  if rc.length = resultLen then some rc else none

end

/-- mirrors lang/String.cpp:3710-3719 -/
def arg (s a : Str) (fieldWidth : Int) (fillChar : UInt16) : Option Str := do
  let d ← findArgEscapes t s
  if d.occurrences = 0 then some s else replaceArgEscapes t d fieldWidth a a fillChar s

end

/-! ## Place markers -/

structure Marker where
  number : Int
  localized : Bool
  size : Nat

/-- One or two digits, and how many. -/
def readNumber (t : DigitTable) : Str → Option (Int × Nat)
  | [] => none
  | [first] => if t.value first = -1 then none else some (t.value first, 1)
  | first :: next :: _ =>
    if t.value first = -1 then none
    else if t.value next = -1 then some (t.value first, 1)
    else some (10 * t.value first + t.value next, 2)

/-- The place marker that a string begins with. -/
def readMarker (t : DigitTable) : Str → Option Marker
  | [] => none
  | c :: s =>
    if c ≠ 0x25 then none
    else if s.head? = some 0x4C then (readNumber t s.tail).map fun n => ⟨n.1, true, n.2 + 2⟩
    else (readNumber t s).map fun n => ⟨n.1, false, n.2 + 1⟩

section

variable {t : DigitTable}

theorem readNumber_digits {s : Str} {number : Int} {k : Nat}
    (hread : readNumber t s = some (number, k)) :
    0 < k ∧ k ≤ s.length ∧ (∀ x ∈ s.take k, t.value x ≠ -1) ∧ 0 ≤ number ∧ number ≤ 99 := by
  match s with
  | [] => cases hread
  | [first] =>
    have hfirst := t.range first
    rw [readNumber] at hread
    split at hread
    · cases hread
    · next hdigit =>
      cases hread
      refine ⟨by omega, by simp, fun x hx => ?_, by omega, by omega⟩
      rw [List.take_succ_cons, List.take_nil, List.mem_singleton] at hx
      rwa [hx]
  | first :: next :: rest =>
    have hfirst := t.range first
    have hnext := t.range next
    rw [readNumber] at hread
    split at hread
    · cases hread
    · next hdigit =>
      split at hread
      · cases hread
        refine ⟨by omega, by simp, fun x hx => ?_, by omega, by omega⟩
        rw [List.take_succ_cons, List.take_zero, List.mem_singleton] at hx
        rwa [hx]
      · next hdigit' =>
        cases hread
        refine ⟨by omega, by simp, fun x hx => ?_, by omega, by omega⟩
        rw [List.take_succ_cons, List.take_succ_cons, List.take_zero, List.mem_cons,
          List.mem_singleton] at hx
        rcases hx with rfl | rfl
        · exact hdigit
        · exact hdigit'

/-- The `L` that `localeLetter` steps over. -/
def letter (localized : Bool) : Str := if localized then [0x4C] else []

theorem localeLetter_eq (s : Str) : s = letter (localeLetter s).1 ++ (localeLetter s).2 := by
  cases s with
  | nil => rfl
  | cons first rest =>
    rw [localeLetter]
    split
    · next hl => rw [hl]; rfl
    · rfl

theorem readMarker_percent (s : Str) :
    readMarker t (0x25 :: s) = (readNumber t (localeLetter s).2).map fun n =>
      ⟨n.1, (localeLetter s).1, n.2 + (letter (localeLetter s).1).length + 1⟩ := by
  rw [readMarker, if_neg (fun h => h rfl)]
  cases s with
  | nil => rfl
  | cons first rest =>
    rw [localeLetter]
    by_cases hl : first = 0x4C
    · rw [if_pos hl, if_pos (by rw [hl]; rfl)]
      rfl
    · rw [if_neg hl, if_neg (by rw [List.head?_cons, Option.some.injEq]; exact hl)]
      rfl

theorem readMarker_other {c : UInt16} (hc : c ≠ 0x25) (s : Str) : readMarker t (c :: s) = none := by
  rw [readMarker, if_pos hc]

/-- What a marker is made of. -/
theorem readMarker_some {s : Str} {m : Marker} (hread : readMarker t s = some m) :
    ∃ rest k, s = 0x25 :: (letter m.localized ++ rest) ∧ readNumber t rest = some (m.number, k) ∧
      m.size = k + (letter m.localized).length + 1 := by
  cases s with
  | nil => cases hread
  | cons c s =>
    by_cases hc : c = 0x25
    · subst hc
      rw [readMarker_percent, Option.map_eq_some_iff] at hread
      obtain ⟨⟨number, k⟩, hnumber, rfl⟩ := hread
      exact ⟨_, k, congrArg (0x25 :: ·) (localeLetter_eq s), hnumber, rfl⟩
    · rw [readMarker_other hc] at hread
      cases hread

theorem letter_apart {localized : Bool} : ∀ x ∈ letter localized, x ≠ 0x25 := by
  cases localized
  · nofun
  · intro x hx
    rw [letter, if_pos rfl, List.mem_singleton] at hx
    rw [hx]
    decide

section

variable (t)

/-- Place markers as tokens. -/
def placeMarkers : Tokens UInt16 Marker where
  read := readMarker t
  size := Marker.size
  start := (· = 0x25)
  begins := by
    intro c s m hread
    obtain ⟨rest, k, hs, -, -⟩ := readMarker_some hread
    exact (List.cons.inj hs).1
  room := by
    intro s m hread
    obtain ⟨rest, k, rfl, hnumber, hsize⟩ := readMarker_some hread
    have hdigits := readNumber_digits hnumber
    rw [hsize, List.length_cons, List.length_append]
    omega
  apart := by
    intro c s m hread x hx
    obtain ⟨rest, k, hs, hnumber, hsize⟩ := readMarker_some hread
    have hdigits := readNumber_digits hnumber
    rw [(List.cons.inj hs).2, hsize, Nat.add_sub_cancel, Nat.add_comm, List.take_length_add_append,
      List.mem_append] at hx
    rcases hx with hx | hx
    · exact letter_apart x hx
    · rintro rfl
      exact hdigits.2.2.1 _ hx t.percent

/-- A text padded to a width, on the left if it is positive and on the right if it is negative. -/
def padded (fieldWidth : Int) (fillChar : UInt16) (a : Str) : Str :=
  if fieldWidth < 0 then a.rightpad fieldWidth.natAbs fillChar
  else a.leftpad fieldWidth.natAbs fillChar

end

/-! ## Counting markers -/

def ArgEscapeData.record (d : ArgEscapeData) (m : Marker) : ArgEscapeData :=
  d.count m.number m.localized m.size

/-- The sum of `w` over the markers with the number `n`. -/
def sumAt (n : Int) (w : Marker → Int) (ms : List Marker) : Int :=
  ((ms.filter (·.number = n)).map w).sum

@[simp] theorem sumAt_nil (n : Int) (w : Marker → Int) : sumAt n w [] = 0 := rfl

theorem sumAt_here {n : Int} {m : Marker} (hm : m.number = n) (w : Marker → Int)
    (ms : List Marker) : sumAt n w (m :: ms) = w m + sumAt n w ms := by
  rw [sumAt, List.filter_cons_of_pos (by rw [decide_eq_true_eq]; exact hm), List.map_cons,
    List.sum_cons, sumAt]

theorem sumAt_other {n : Int} {m : Marker} (hm : m.number ≠ n) (w : Marker → Int)
    (ms : List Marker) : sumAt n w (m :: ms) = sumAt n w ms := by
  rw [sumAt, List.filter_cons_of_neg (by rw [decide_eq_true_eq]; exact hm), sumAt]

theorem sumAt_append (n : Int) (w : Marker → Int) (ms ms' : List Marker) :
    sumAt n w (ms ++ ms') = sumAt n w ms + sumAt n w ms' := by
  rw [sumAt, List.filter_append, List.map_append, List.sum_append, sumAt, sumAt]

theorem sumAt_none {n : Int} {ms : List Marker} (hall : ∀ m ∈ ms, m.number ≠ n)
    (w : Marker → Int) : sumAt n w ms = 0 := by
  have hfilter : ms.filter (·.number = n) = [] := by
    rw [List.filter_eq_nil_iff]
    intro m hm
    rw [decide_eq_true_eq]
    exact hall m hm
  rw [sumAt, hfilter]
  rfl

/-- How many markers have the number `n`. -/
def countAt (n : Int) (ms : List Marker) : Int := sumAt n (fun _ => 1) ms

def localeAt (n : Int) (ms : List Marker) : Int :=
  sumAt n (fun m => if m.localized then 1 else 0) ms

/-- What the first scan knows of the markers it has seen. -/
structure Summary (d : ArgEscapeData) (ms : List Marker) : Prop where
  least : ∀ m ∈ ms, d.minEscape ≤ m.number
  attained : (ms = [] ∧ d.minEscape = intMax) ∨ ∃ m ∈ ms, m.number = d.minEscape
  occurrences : d.occurrences = countAt d.minEscape ms
  localeOccurrences : d.localeOccurrences = localeAt d.minEscape ms
  escapeLen : d.escapeLen = sumAt d.minEscape (fun m => m.size) ms

theorem Summary.record {d : ArgEscapeData} {ms : List Marker} {m : Marker} (h : Summary d ms)
    (hle : m.number ≤ 99) : Summary (d.record m) (ms ++ [m]) := by
  have hmem : ∀ {n : Int}, n ≤ m.number → (∀ m' ∈ ms, n ≤ m'.number) →
      ∀ m' ∈ ms ++ [m], n ≤ m'.number := by
    intro n hn hall m' hm'
    rcases List.mem_append.mp hm' with hm' | hm'
    · exact hall m' hm'
    · rwa [List.mem_singleton.mp hm']
  rw [ArgEscapeData.record, ArgEscapeData.count]
  by_cases hgt : m.number > d.minEscape
  · have hnone : ∀ w, sumAt d.minEscape w [m] = 0 := fun w => by
      rw [sumAt_other (by omega), sumAt_nil]
    rw [if_pos hgt]
    refine ⟨hmem (by omega) h.least, ?_, ?_, ?_, ?_⟩
    · rcases h.attained with ⟨-, hmax⟩ | ⟨m', hm', hn⟩
      · rw [intMax] at hmax
        omega
      · exact .inr ⟨m', List.mem_append_left _ hm', hn⟩
    · rw [countAt, sumAt_append, hnone, Int.add_zero]
      exact h.occurrences
    · rw [localeAt, sumAt_append, hnone, Int.add_zero]
      exact h.localeOccurrences
    · rw [sumAt_append, hnone, Int.add_zero]
      exact h.escapeLen
  rw [if_neg hgt]
  by_cases hlt : m.number < d.minEscape
  · -- the markers seen so far have greater numbers
    have hnone : ∀ w, sumAt m.number w ms = 0 := fun w =>
      sumAt_none (fun m' hm' => by have := h.least m' hm'; omega) w
    have hleast := hmem (Int.le_refl m.number) fun m' hm' => by
      have := h.least m' hm'
      omega
    simp only [if_pos hlt]
    refine ⟨hleast, .inr ⟨m, List.mem_append_right _ (List.mem_singleton_self m), rfl⟩,
      ?_, ?_, ?_⟩
    · rw [countAt, sumAt_append, hnone, sumAt_here rfl, sumAt_nil]
      rfl
    · rw [localeAt, sumAt_append, hnone, sumAt_here rfl, sumAt_nil, Int.add_zero]
    · rw [sumAt_append, hnone, sumAt_here rfl, sumAt_nil, Int.add_zero]
  · have heq : m.number = d.minEscape := by omega
    have hleast := hmem (Int.le_of_eq heq.symm) h.least
    simp only [if_neg hlt]
    refine ⟨hleast, .inr ⟨m, List.mem_append_right _ (List.mem_singleton_self m), heq⟩,
      ?_, ?_, ?_⟩
    · rw [countAt, sumAt_append, sumAt_here heq, sumAt_nil, Int.add_zero, h.occurrences]
      rfl
    · rw [localeAt, sumAt_append, sumAt_here heq, sumAt_nil, Int.add_zero, h.localeOccurrences]
      rfl
    · rw [sumAt_append, sumAt_here heq, sumAt_nil, Int.add_zero, h.escapeLen]

theorem Summary.foldl {d : ArgEscapeData} {ms ms' : List Marker} (h : Summary d ms)
    (hle : ∀ m ∈ ms', m.number ≤ 99) : Summary (ms'.foldl ArgEscapeData.record d) (ms ++ ms') := by
  induction ms' generalizing d ms with
  | nil => rwa [List.append_nil]
  | cons m ms' ih =>
    have hstep := ih (h.record (hle m (List.mem_cons_self ..)))
      fun m' hm' => hle m' (List.mem_cons_of_mem _ hm')
    rwa [List.append_assoc] at hstep

end

/-!
## Arguments are put in the place of the lowest markers

What the first scan counted gives the length of the result. The second scan does not run off the
end, since as long as it has not put in all of what was counted a marker is left (`arg_exact`).
-/

section

variable {t : DigitTable}

/-! ## The length of the result -/

/-- What the markers with the number `n` are replaced by. -/
def replacement (n : Int) (text : Bool → Str) (m : Marker) : Option Str :=
  if m.number = n then some (text m.localized) else none

variable {resultLen fieldWidth : Int} {fillChar : UInt16} {rc text : Str}

/-- `copied` is copied from `c` without a marker with the number `n` in it. -/
structure Passed (t : DigitTable) (n : Int) (text : Bool → Str) (c copied rest : Str) : Prop where
  split : c = copied ++ rest
  rewrite : (placeMarkers t).rewrite (replacement n text) c =
    copied ++ (placeMarkers t).rewrite (replacement n text) rest
  count : countAt n ((placeMarkers t).all c) = countAt n ((placeMarkers t).all rest)

section

variable {n : Int} {text : Bool → Str}

theorem Passed.trans {c copied middle copied' rest : Str} (h : Passed t n text c copied middle)
    (h' : Passed t n text middle copied' rest) : Passed t n text c (copied ++ copied') rest := by
  refine ⟨?_, ?_, h.count.trans h'.count⟩
  · rw [List.append_assoc, ← h'.split]
    exact h.split
  · rw [h.rewrite, h'.rewrite, List.append_assoc]

end

section

variable {d : ArgEscapeData} {arg larg : Str}

/-- What is put in for a marker. -/
def padding (fieldWidth : Int) (fillChar : UInt16) (arg larg : Str) (localized : Bool) : Str :=
  padded fieldWidth fillChar (if localized then larg else arg)

end

/-- "%%1-%L1" with "ab" in three units -/
example : arg asciiDigits [0x25, 0x25, 0x31, 0x2D, 0x25, 0x4C, 0x31] [0x61, 0x62] 3 0x2E =
    some [0x25, 0x2E, 0x61, 0x62, 0x2D, 0x2E, 0x61, 0x62] := by decide

end

end Libpdk.Lang

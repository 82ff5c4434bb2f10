import Libpdk.Io.FileSystemEntry

/-!
# File names

What the getters of a `FileSystemEntry` answer, in whatever order they are called. The loops find the
last slash and the dots behind it (`findFileNameSeparators_eq`); what is kept of that is right
exactly where the three numbers fit 16 bits (`names_iff`).
-/
namespace Libpdk.Io

open Lang (substring substring_rest substring_part)

/-! ## The parts of a path -/

/-- The path up to its last slash. -/
def folderOf (p : Str) : Str := p.rdropWhile (· ≠ separator)

/-- The part behind the last slash. -/
def nameOf (p : Str) : Str := p.rtakeWhile (· ≠ separator)

/-- The part in front of the first dot. -/
def baseOf (name : Str) : Str := name.takeWhile (· ≠ dot)

/-- The part in front of the last dot. -/
def completeBaseOf (name : Str) : Str := (name.rdropWhile (· ≠ dot)).dropLast

/-- A list is cut at the last place of a unit. -/
theorem cut_last {c : UInt16} {l : Str} (h : c ∈ l) : ∃ a b, l = a ++ c :: b ∧ c ∉ b ∧
    l.rdropWhile (· ≠ c) = a ++ [c] ∧ l.rtakeWhile (· ≠ c) = b := by
  have happend : l.rdropWhile (· ≠ c) ++ l.rtakeWhile (· ≠ c) = l :=
    List.rdropWhile_append_rtakeWhile
  have hnot : c ∉ l.rtakeWhile (· ≠ c) := fun hc => by
    have hne := List.mem_rtakeWhile_imp hc
    exact of_decide_eq_true hne rfl
  have hne : l.rdropWhile (· ≠ c) ≠ [] := fun hnil => by
    rw [hnil, List.nil_append] at happend
    exact hnot (happend.symm ▸ h)
  have hlast : (l.rdropWhile (· ≠ c)).getLast hne = c := by
    by_contra hc
    exact List.rdropWhile_last_not _ _ hne (decide_eq_true hc)
  have hcut : (l.rdropWhile (· ≠ c)).dropLast ++ [c] = l.rdropWhile (· ≠ c) := by
    conv_rhs => rw [← List.dropLast_append_getLast hne, hlast]
  refine ⟨(l.rdropWhile (· ≠ c)).dropLast, l.rtakeWhile (· ≠ c), ?_, hnot, hcut.symm, rfl⟩
  rw [← List.singleton_append, ← List.append_assoc, hcut, happend]

/-- There is one such cut. -/
theorem cut_unique {c : UInt16} {a a' b b' : Str} (h : a ++ c :: b = a' ++ c :: b') (hb : c ∉ b)
    (hb' : c ∉ b') : a = a' := by
  rcases List.append_eq_append_iff.mp h with ⟨t, rfl, ht⟩ | ⟨t, rfl, ht⟩
  · cases t with
    | nil => rw [List.append_nil]
    | cons d t =>
      rw [List.cons_append, List.cons.injEq] at ht
      exact absurd (ht.2 ▸ List.mem_append_right t (List.mem_cons_self)) hb
  · cases t with
    | nil => rw [List.append_nil]
    | cons d t =>
      rw [List.cons_append, List.cons.injEq] at ht
      exact absurd (ht.2 ▸ List.mem_append_right t (List.mem_cons_self)) hb'

theorem folderOf_append_nameOf (p : Str) : folderOf p ++ nameOf p = p :=
  List.rdropWhile_append_rtakeWhile

theorem separator_not_mem (p : Str) : separator ∉ nameOf p := fun hc => by
  have hne := List.mem_rtakeWhile_imp hc
  exact of_decide_eq_true hne rfl

/-- What is in front of a last slash, and behind it. -/
theorem folderOf_append (f : Str) {name : Str} (h : separator ∉ name) :
    folderOf (f ++ separator :: name) = f ++ [separator] ∧ nameOf (f ++ separator :: name) = name := by
  obtain ⟨a, b, heq, hb, ha, hb'⟩ := cut_last (c := separator) (l := f ++ separator :: name) (by simp)
  obtain rfl := cut_unique heq h hb
  have hname := List.append_cancel_left heq
  rw [List.cons.injEq] at hname
  rw [folderOf, nameOf, ha, hb', hname.2]
  exact ⟨rfl, rfl⟩

/-- The folder is empty or ends with a slash. -/
theorem folderOf_cases (p : Str) : folderOf p = [] ∨ ∃ f, folderOf p = f ++ [separator] := by
  by_cases h : separator ∈ p
  · obtain ⟨a, b, -, -, ha, -⟩ := cut_last h
    exact .inr ⟨a, ha⟩
  · exact .inl (List.rdropWhile_eq_nil_iff.mpr fun x hx => decide_eq_true fun heq => h (heq ▸ hx))

theorem lastIndexOf_eq (p : Str) : lastIndexOf p separator = (folderOf p).length - 1 := by
  rw [lastIndexOf]
  split
  · rfl
  · next h =>
    have hnil : folderOf p = [] :=
      List.rdropWhile_eq_nil_iff.mpr fun x hx => decide_eq_true fun heq => h (heq ▸ hx)
    rw [hnil]
    rfl

/-- The name is cut at its last dot. -/
theorem name_last {name : Str} (h : dot ∈ name) :
    name = completeBaseOf name ++ dot :: name.rtakeWhile (· ≠ dot) ∧
      dot ∉ name.rtakeWhile (· ≠ dot) := by
  obtain ⟨a, b, heq, hb, ha, hb'⟩ := cut_last h
  rw [completeBaseOf, ha, hb', List.dropLast_concat]
  exact ⟨heq, hb⟩

/-- The name is cut at its first dot. -/
theorem name_first {name : Str} (h : dot ∈ name) : ∃ rest, name = baseOf name ++ dot :: rest := by
  induction name with
  | nil => cases h
  | cons c name ih =>
    by_cases hc : c = dot
    · refine ⟨name, ?_⟩
      rw [baseOf, List.takeWhile_cons, if_neg (by simp [hc]), hc, List.nil_append]
    · obtain ⟨rest, hrest⟩ := ih ((List.mem_cons.mp h).resolve_left (fun h' => hc h'.symm))
      refine ⟨rest, ?_⟩
      rw [baseOf, List.takeWhile_cons, if_pos (by simp [hc]), List.cons_append]
      exact congrArg (c :: ·) hrest

theorem baseOf_plain {name : Str} (h : dot ∉ name) : baseOf name = name :=
  List.takeWhile_eq_self_iff.mpr fun _ hx => decide_eq_true fun heq => h (heq ▸ hx)

theorem dot_not_mem_baseOf (name : Str) : dot ∉ baseOf name := fun h => by
  have hne := List.mem_takeWhile_imp h
  exact of_decide_eq_true hne rfl

theorem baseOf_append_plain {b : Str} (h : dot ∉ b) (r : Str) :
    baseOf (b ++ r) = b ++ baseOf r :=
  List.takeWhile_append_of_pos fun _ hx => decide_eq_true fun heq => h (heq ▸ hx)

theorem baseOf_append_dot {b : Str} (h : dot ∈ b) (r : Str) : baseOf (b ++ r) = baseOf b := by
  have hlen : ¬(b.takeWhile (· ≠ dot)).length = b.length := fun hlen => by
    have hself := (List.takeWhile_prefix (· ≠ dot)).eq_of_length hlen
    exact of_decide_eq_true (List.takeWhile_eq_self_iff.mp hself dot h) rfl
  rw [baseOf, List.takeWhile_append, if_neg hlen]
  rfl

/-- The first dot is not behind the last one. -/
theorem baseOf_completeBaseOf {name : Str} (h : dot ∈ name) :
    baseOf name = baseOf (completeBaseOf name) := by
  conv_lhs => rw [(name_last h).1]
  by_cases hdot : dot ∈ completeBaseOf name
  · rw [baseOf_append_dot hdot]
  · rw [baseOf_append_plain hdot, baseOf_plain hdot, baseOf, List.takeWhile_cons,
      if_neg (by simp), List.append_nil]

/-- The place of the last slash, or -1. -/
def sepPlace (p : Str) : Int := (folderOf p).length - 1

/-- The place of the last dot of the name, or -1. -/
def lastDotPlace (p : Str) : Int :=
  if dot ∈ nameOf p then (folderOf p).length + (completeBaseOf (nameOf p)).length else -1

/-- The place of the first dot of the name, or -1. -/
def firstDotPlace (p : Str) : Int :=
  if dot ∈ nameOf p then (folderOf p).length + (baseOf (nameOf p)).length else -1

theorem length_baseOf_le (name : Str) : (baseOf name).length ≤ name.length :=
  (List.takeWhile_prefix _).length_le

namespace FileSystemEntry

/-! ## The loops -/

theorem getD_last (a r : Str) (c : UInt16) : (a ++ c :: r).getD a.length 0 = c := by
  rw [List.getD_append_right _ _ _ _ (Nat.le_refl _), Nat.sub_self, List.getD_cons_zero]

/-- Units that are neither dots nor slashes are passed. -/
theorem lastDotLoop_skip {a : Str} {stop : Nat} (hstop : stop ≤ a.length) (s : Int) :
    ∀ (b r : Str), dot ∉ b → separator ∉ b →
      lastDotLoop (a ++ b ++ r) stop s (a.length + b.length) =
        lastDotLoop (a ++ b ++ r) stop s a.length := by
  intro b
  induction b using List.reverseRecOn with
  | nil => intro r _ _; rfl
  | append_singleton b c ih =>
    intro r hdot hsep
    rw [List.mem_append, List.mem_singleton, not_or] at hdot hsep
    have hget : (a ++ (b ++ [c]) ++ r).getD (a.length + b.length) 0 = c := by
      rw [← List.append_assoc, ← List.length_append, List.append_assoc]
      exact getD_last _ _ _
    rw [List.length_append, List.length_singleton, ← Nat.add_assoc, lastDotLoop,
      if_neg (by omega), hget, if_neg (fun h => hdot.2 h.symm), if_neg (fun h => hsep.2 h.symm)]
    have hassoc : a ++ (b ++ [c]) ++ r = a ++ b ++ (c :: r) := by simp
    rw [hassoc]
    exact ih _ hdot.1 hsep.1

/-- Of the dots that are passed the first one is kept. -/
theorem firstDotLoop_skip {a : Str} {stop : Nat} (hstop : stop ≤ a.length) (s : Int) :
    ∀ (b r : Str) (f : Int), separator ∉ b →
      firstDotLoop (a ++ b ++ r) stop f s (a.length + b.length) =
        firstDotLoop (a ++ b ++ r) stop (if dot ∈ b then ↑(a.length + (baseOf b).length) else f) s
          a.length := by
  intro b
  induction b using List.reverseRecOn with
  | nil => intro r f _; rfl
  | append_singleton b c ih =>
    intro r f hsep
    rw [List.mem_append, List.mem_singleton, not_or] at hsep
    have hget : (a ++ (b ++ [c]) ++ r).getD (a.length + b.length) 0 = c := by
      rw [← List.append_assoc, ← List.length_append, List.append_assoc]
      exact getD_last _ _ _
    have hassoc : a ++ (b ++ [c]) ++ r = a ++ b ++ (c :: r) := by simp
    rw [List.length_append, List.length_singleton, ← Nat.add_assoc, firstDotLoop,
      if_neg (by omega), hget]
    by_cases hc : c = dot
    · rw [if_pos hc, hassoc, ih _ _ hsep.1, hc,
        if_pos (List.mem_append_right b (List.mem_singleton_self dot))]
      by_cases hb : dot ∈ b
      · rw [if_pos hb, baseOf_append_dot hb]
      · rw [if_neg hb, baseOf_append_plain hb, baseOf, List.takeWhile_cons, if_neg (by simp),
          List.append_nil]
    · rw [if_neg hc, if_neg (fun h => hsep.2 h.symm), hassoc, ih _ _ hsep.1]
      by_cases hb : dot ∈ b
      · rw [if_pos hb, if_pos (List.mem_append_left _ hb), baseOf_append_dot hb]
      · rw [if_neg hb, if_neg (by
          rw [List.mem_append, List.mem_singleton, not_or]
          exact ⟨hb, fun h => hc h.symm⟩)]

/-- Where the loops may stop: nothing is known, or the last slash is. -/
def Stops (p : Str) (stop : Nat) (s : Int) : Prop :=
  stop = 0 ∧ s = -1 ∨ stop + 1 = (folderOf p).length ∧ s = stop

/-- Where the name begins. -/
theorem lastDotLoop_folder {p : Str} {stop : Nat} {s : Int} (hstop : Stops p stop s) :
    lastDotLoop p stop s (folderOf p).length = (sepPlace p, -1, sepPlace p) := by
  have hp := folderOf_append_nameOf p
  rw [Stops] at hstop
  rw [sepPlace]
  rcases folderOf_cases p with hf | ⟨f, hf⟩
  · rw [hf, List.length_nil] at hstop ⊢
    obtain ⟨-, rfl⟩ := hstop.resolve_right (by omega)
    rfl
  · have hget : p.getD f.length 0 = separator := by
      rw [← hp, hf, List.append_assoc]
      exact getD_last _ _ _
    rw [hf, List.length_append, List.length_singleton] at hstop ⊢
    rw [lastDotLoop, if_neg (by omega), hget, if_neg (by decide), if_pos rfl]
    simp

theorem firstDotLoop_folder {p : Str} {stop : Nat} {s : Int} (f : Int)
    (hstop : Stops p stop s) :
    firstDotLoop p stop f s (folderOf p).length = (f, sepPlace p) := by
  have hp := folderOf_append_nameOf p
  rw [Stops] at hstop
  rw [sepPlace]
  rcases folderOf_cases p with hf | ⟨g, hf⟩
  · rw [hf, List.length_nil] at hstop ⊢
    obtain ⟨-, rfl⟩ := hstop.resolve_right (by omega)
    rfl
  · have hget : p.getD g.length 0 = separator := by
      rw [← hp, hf, List.append_assoc]
      exact getD_last _ _ _
    rw [hf, List.length_append, List.length_singleton] at hstop ⊢
    rw [firstDotLoop, if_neg (by omega), hget, if_neg (by decide), if_pos rfl]
    simp

theorem Stops.le {p : Str} {stop : Nat} {s : Int} (h : Stops p stop s) :
    stop ≤ (folderOf p).length ∧ s < (folderOf p).length := by
  rcases h with ⟨rfl, rfl⟩ | ⟨h, rfl⟩ <;> omega

/-- The places that the loops find. -/
theorem loops_eq {p : Str} {stop : Nat} {s : Int} (hstop : Stops p stop s) :
    ∃ i t, lastDotLoop p stop s p.length = (i, lastDotPlace p, t) ∧
      (if t ≠ i then firstDotLoop p stop (lastDotPlace p) t i.toNat else (lastDotPlace p, t)) =
        (firstDotPlace p, sepPlace p) := by
  have hsep := separator_not_mem p
  have hp := folderOf_append_nameOf p
  obtain ⟨hle, hlt⟩ := hstop.le
  have hlen : p.length = (folderOf p).length + (nameOf p).length := by
    conv_lhs => rw [← hp]
    exact List.length_append
  by_cases hdot : dot ∈ nameOf p
  · obtain ⟨hname, hsuffix⟩ := name_last hdot
    rw [lastDotPlace, firstDotPlace, if_pos hdot, if_pos hdot, baseOf_completeBaseOf hdot]
    generalize hbase : completeBaseOf (nameOf p) = base at *
    generalize (nameOf p).rtakeWhile (· ≠ dot) = suffix at *
    rw [hname, List.mem_append, List.mem_cons, not_or, not_or] at hsep
    have hcut : p = folderOf p ++ base ++ [dot] ++ suffix ++ [] := by
      rw [List.append_nil, List.append_assoc, List.append_assoc, List.singleton_append, ← hname, hp]
    have hfront : p = folderOf p ++ base ++ dot :: suffix := by
      rw [List.append_assoc, ← hname, hp]
    have hlast : lastDotLoop p stop s p.length =
        (((folderOf p).length + base.length : Int), ((folderOf p).length + base.length : Int), s) := by
      have hbound : stop ≤ (folderOf p ++ base ++ [dot]).length := by
        rw [List.length_append, List.length_append]
        omega
      have hskip := lastDotLoop_skip hbound s suffix [] hsuffix hsep.2.2
      have hget : p.getD ((folderOf p).length + base.length) 0 = dot := by
        have hlast := getD_last (folderOf p ++ base) suffix dot
        rwa [← hfront, List.length_append] at hlast
      rw [← hcut, List.length_append, List.length_append, List.length_singleton] at hskip
      have hall : p.length = (folderOf p).length + base.length + 1 + suffix.length := by
        rw [hlen, hname, List.length_append, List.length_cons]
        omega
      rw [hall, hskip, lastDotLoop, if_neg (by omega), hget, if_pos rfl]
      rfl
    refine ⟨_, _, hlast, ?_⟩
    rw [if_pos (by omega)]
    have hskip := firstDotLoop_skip hle s base (dot :: suffix)
      ((folderOf p).length + base.length) hsep.1
    rw [← hfront, firstDotLoop_folder _ hstop] at hskip
    have hnat : ((folderOf p).length + base.length : Int).toNat =
        (folderOf p).length + base.length := by omega
    rw [hnat, hskip]
    by_cases hb : dot ∈ base
    · rw [if_pos hb]
      rfl
    · rw [if_neg hb, baseOf_plain hb]
  · rw [lastDotPlace, firstDotPlace, if_neg hdot, if_neg hdot]
    have hskip := lastDotLoop_skip hle s (nameOf p) [] hdot hsep
    rw [List.append_nil, hp, ← hlen, lastDotLoop_folder hstop] at hskip
    exact ⟨_, _, hskip, if_neg (fun h => h rfl)⟩

/-! ## What is kept -/

/-- The first dot, counted from the last slash. -/
def firstDotOffset (p : Str) : Int :=
  if firstDotPlace p = -1 then -1 else firstDotPlace p - max 0 (sepPlace p)

/-- The last dot, counted from the first one. -/
def lastDotOffset (p : Str) : Int :=
  if lastDotPlace p = -1 then -1
  else if firstDotPlace p = lastDotPlace p then 0 else lastDotPlace p - firstDotPlace p

/-- The three numbers that are kept fit 16 bits. -/
structure Fits (p : Str) : Prop where
  separator : sepPlace p < 32768
  firstDot : firstDotOffset p < 32768
  lastDot : lastDotOffset p < 32768

theorem pint16_eq {n : Int} (h : -32768 ≤ n) (h' : n < 32768) : pint16 n = n := by
  rw [pint16]
  exact Int.bmod_eq_of_le (by omega) (by omega)

theorem pint16_bounds (n : Int) : -32768 ≤ pint16 n ∧ pint16 n < 32768 := by
  have hlo := Int.le_bmod (x := n) (show 0 < 65536 by decide)
  have hhi := Int.bmod_lt (x := n) (show 0 < 65536 by decide)
  rw [pint16]
  omega

theorem sepPlace_ge (p : Str) : -1 ≤ sepPlace p := by
  rw [sepPlace]
  omega

/-- The offsets, with the lengths of the names. -/
theorem firstDotOffset_eq (p : Str) : firstDotOffset p = if dot ∈ nameOf p then
    (folderOf p).length + (baseOf (nameOf p)).length - max 0 (sepPlace p) else -1 := by
  rw [firstDotOffset, firstDotPlace]
  by_cases h : dot ∈ nameOf p
  · rw [if_pos h, if_pos h, if_neg (by omega)]
  · rw [if_neg h, if_neg h, if_pos rfl]

theorem lastDotOffset_eq (p : Str) : lastDotOffset p = if dot ∈ nameOf p then
    ((completeBaseOf (nameOf p)).length : Int) - (baseOf (nameOf p)).length else -1 := by
  rw [lastDotOffset, firstDotPlace, lastDotPlace]
  by_cases h : dot ∈ nameOf p
  · simp only [if_pos h]
    split
    · omega
    · split <;> omega
  · simp only [if_neg h]
    rfl

theorem firstDotOffset_ge (p : Str) : -1 ≤ firstDotOffset p ∧
    (dot ∈ nameOf p → 0 ≤ firstDotOffset p) := by
  have hsep := sepPlace_ge p
  rw [firstDotOffset_eq]
  rw [sepPlace] at hsep ⊢
  split
  · next h => exact ⟨by omega, fun _ => by omega⟩
  · next h => exact ⟨Int.le_refl _, fun h' => absurd h' h⟩

theorem lastDotOffset_ge (p : Str) : -1 ≤ lastDotOffset p ∧
    (dot ∈ nameOf p → 0 ≤ lastDotOffset p) := by
  rw [lastDotOffset_eq]
  split
  · next h =>
    have hle := length_baseOf_le (completeBaseOf (nameOf p))
    rw [← baseOf_completeBaseOf h] at hle
    exact ⟨by omega, fun _ => by omega⟩
  · next h => exact ⟨Int.le_refl _, fun h' => absurd h' h⟩

/-- What is found, as it is kept. -/
theorem findFileNameSeparators_eq {p : Str} {s : Int} (h : s = -2 ∨ s = sepPlace p) (l : Int) :
    findFileNameSeparators ⟨p, s, -2, l⟩ =
      ⟨p, pint16 (sepPlace p), pint16 (firstDotOffset p), pint16 (lastDotOffset p)⟩ := by
  have hstop : Stops p (if s < 0 then 0 else s.toNat) (if s < 0 then -1 else s) := by
    by_cases hneg : s < 0
    · rw [if_pos hneg, if_pos hneg]
      exact .inl ⟨rfl, rfl⟩
    · rw [if_neg hneg, if_neg hneg]
      obtain rfl := h.resolve_left (by omega)
      rw [sepPlace] at hneg ⊢
      exact .inr ⟨by omega, by omega⟩
  obtain ⟨i, t, hlast, hfirst⟩ := loops_eq hstop
  rw [findFileNameSeparators, if_pos rfl]
  simp only [hlast, hfirst]
  rfl

/-! ## Calls in any order -/

inductive Getter
  | getFileName | getPath | getBaseName | getCompleteBaseName | getSuffix | getCompleteSuffix
  deriving DecidableEq

def call (e : FileSystemEntry) : Getter → Str × FileSystemEntry
  | .getFileName => e.getFileName
  | .getPath => e.getPath
  | .getBaseName => e.getBaseName
  | .getCompleteBaseName => e.getCompleteBaseName
  | .getSuffix => e.getSuffix
  | .getCompleteSuffix => e.getCompleteSuffix

/-- The answers, one after the other. -/
def calls (e : FileSystemEntry) : List Getter → List Str
  | [] => []
  | g :: gs => (e.call g).1 :: calls (e.call g).2 gs

/-- What is asked of the answers. -/
structure Consistent (p : Str) (answer : Getter → Str) : Prop where
  fileName : answer .getFileName = nameOf p
  path : answer .getPath = if folderOf p = [] then [dot]
    else if folderOf p = [separator] then [separator] else (folderOf p).dropLast
  dotted : dot ∈ nameOf p →
    nameOf p = answer .getBaseName ++ dot :: answer .getCompleteSuffix ∧
    nameOf p = answer .getCompleteBaseName ++ dot :: answer .getSuffix ∧
    dot ∉ answer .getBaseName ∧ dot ∉ answer .getSuffix
  plain : dot ∉ nameOf p → answer .getBaseName = nameOf p ∧
    answer .getCompleteBaseName = nameOf p ∧ answer .getSuffix = [] ∧
    answer .getCompleteSuffix = []

/-- The names. -/
def nameAnswer (p : Str) : Getter → Str
  | .getFileName => nameOf p
  | .getPath => if folderOf p = [] then [dot]
    else if folderOf p = [separator] then [separator] else (folderOf p).dropLast
  | .getBaseName => baseOf (nameOf p)
  | .getCompleteBaseName => if dot ∈ nameOf p then completeBaseOf (nameOf p) else nameOf p
  | .getSuffix => if dot ∈ nameOf p then (nameOf p).rtakeWhile (· ≠ dot) else []
  | .getCompleteSuffix =>
    if dot ∈ nameOf p then (nameOf p).drop ((baseOf (nameOf p)).length + 1) else []

theorem nameAnswer_consistent (p : Str) : Consistent p (nameAnswer p) where
  fileName := rfl
  path := rfl
  dotted h := by
    obtain ⟨rest, hrest⟩ := name_first h
    obtain ⟨hlast, hsuffix⟩ := name_last h
    have hdrop : (nameOf p).drop ((baseOf (nameOf p)).length + 1) = rest := by
      have hcut : (baseOf (nameOf p) ++ dot :: rest).drop ((baseOf (nameOf p)).length + 1) = rest :=
        List.drop_length_add_append 1
      rwa [← hrest] at hcut
    simp only [nameAnswer, if_pos h, hdrop]
    exact ⟨hrest, hlast, dot_not_mem_baseOf _, hsuffix⟩
  plain h := by
    simp only [nameAnswer, if_neg h]
    exact ⟨baseOf_plain h, trivial, trivial, trivial⟩

/-! ### One call -/

/-- What a path is read as before and behind the calls. -/
inductive Reached (p : Str) : FileSystemEntry → Prop
  | unread : Reached p (ofPath p)
  | separator : Reached p ⟨p, sepPlace p, -2, 0⟩
  | dots : Reached p ⟨p, sepPlace p, firstDotOffset p, lastDotOffset p⟩

variable {p : Str} {e : FileSystemEntry}

theorem Reached.findLastSeparator (h : Reached p e) (hfits : Fits p) :
    Reached p e.findLastSeparator ∧ e.findLastSeparator.filePath = p ∧
      e.findLastSeparator.lastSeparator = sepPlace p := by
  have hge := sepPlace_ge p
  have hkept : pint16 (sepPlace p) = sepPlace p := pint16_eq (by omega) hfits.separator
  cases h with
  | unread =>
    have heq : (ofPath p).findLastSeparator = ⟨p, sepPlace p, -2, 0⟩ := by
      rw [FileSystemEntry.findLastSeparator, if_pos (show (ofPath p).lastSeparator = -2 from rfl)]
      simp only [ofPath, lastIndexOf_eq]
      rw [← sepPlace, hkept]
    rw [heq]
    exact ⟨.separator, rfl, rfl⟩
  | separator =>
    rw [FileSystemEntry.findLastSeparator, if_neg (by show sepPlace p ≠ -2; omega)]
    exact ⟨.separator, rfl, rfl⟩
  | dots =>
    rw [FileSystemEntry.findLastSeparator, if_neg (by show sepPlace p ≠ -2; omega)]
    exact ⟨.dots, rfl, rfl⟩

theorem Reached.findFileNameSeparators (h : Reached p e) (hfits : Fits p) :
    e.findFileNameSeparators = ⟨p, sepPlace p, firstDotOffset p, lastDotOffset p⟩ := by
  have hsep := sepPlace_ge p
  have hfirst := (firstDotOffset_ge p).1
  have hlast := (lastDotOffset_ge p).1
  have hs : pint16 (sepPlace p) = sepPlace p := pint16_eq (by omega) hfits.separator
  have hf : pint16 (firstDotOffset p) = firstDotOffset p := pint16_eq (by omega) hfits.firstDot
  have hl : pint16 (lastDotOffset p) = lastDotOffset p := pint16_eq (by omega) hfits.lastDot
  cases h with
  | unread => rw [ofPath, findFileNameSeparators_eq (.inl rfl), hs, hf, hl]
  | separator => rw [findFileNameSeparators_eq (.inr rfl), hs, hf, hl]
  | dots =>
    rw [FileSystemEntry.findFileNameSeparators,
      if_neg (by show firstDotOffset p ≠ -2; omega)]

theorem drop_folderOf (p : Str) : p.drop (folderOf p).length = nameOf p := by
  have hcut : (folderOf p ++ nameOf p).drop (folderOf p).length = nameOf p := List.drop_left
  rwa [folderOf_append_nameOf] at hcut

theorem length_path (p : Str) : p.length = (folderOf p).length + (nameOf p).length := by
  conv_lhs => rw [← folderOf_append_nameOf p]
  exact List.length_append

/-- The part behind the last slash, whole or with a length. -/
theorem substring_name (hlen : p.length < 2 ^ 31) :
    substring p (sepPlace p + 1) (-1) = nameOf p := by
  have hsep : sepPlace p + 1 = (folderOf p).length := by
    rw [sepPlace]
    omega
  have hpath := length_path p
  rw [hsep, substring_rest (by omega) hlen, drop_folderOf]

theorem substring_name_take (hlen : p.length < 2 ^ 31) {n : Nat} (hn : n ≤ (nameOf p).length) :
    substring p (sepPlace p + 1) n = (nameOf p).take n := by
  have hsep : sepPlace p + 1 = (folderOf p).length := by
    rw [sepPlace]
    omega
  have hpath := length_path p
  have hpart := substring_part (s := p) (k := (folderOf p).length) (r := (folderOf p).length + n)
    (by omega) (by omega) hlen
  have hsub : (((folderOf p).length + n : Nat) : Int) - (folderOf p).length = n := by omega
  rw [hsub, Nat.add_sub_cancel_left, drop_folderOf] at hpart
  rw [hsep, hpart]

/-- A place behind the last slash. -/
theorem substring_behind (hlen : p.length < 2 ^ 31) {n : Nat} (hn : n ≤ (nameOf p).length) :
    substring p ((folderOf p).length + n) (-1) = (nameOf p).drop n := by
  have hpath := length_path p
  have hrest := substring_rest (s := p) (k := (folderOf p).length + n) (by omega) hlen
  rw [← List.drop_drop, drop_folderOf] at hrest
  exact hrest

/-- The correction for the slash leaves the length of a name. -/
theorem nameLength_eq (p : Str) (l offset : Int) :
    nameLength ⟨p, sepPlace p, firstDotOffset p, l⟩ offset =
      if dot ∈ nameOf p then (baseOf (nameOf p)).length + offset else -1 := by
  have hfirst := firstDotOffset_eq p
  by_cases h : dot ∈ nameOf p
  · have hge := (firstDotOffset_ge p).2 h
    rw [if_pos h] at hfirst ⊢
    have hsep : sepPlace p = (folderOf p).length - 1 := rfl
    rw [nameLength, if_pos hge]
    split
    · next hne =>
      have hne : sepPlace p ≠ -1 := hne
      show firstDotOffset p + offset - 1 = _
      omega
    · next heq =>
      have heq : sepPlace p = -1 := not_not.mp heq
      show firstDotOffset p + offset = _
      omega
  · rw [if_neg h] at hfirst ⊢
    rw [nameLength, if_neg (by show ¬firstDotOffset p ≥ 0; omega)]

theorem length_names {name : Str} (h : dot ∈ name) :
    (baseOf name).length ≤ (completeBaseOf name).length ∧
      (completeBaseOf name).length < name.length := by
  have hle := length_baseOf_le (completeBaseOf name)
  have hcut := congrArg List.length (name_last h).1
  rw [← baseOf_completeBaseOf h] at hle
  rw [List.length_append, List.length_cons] at hcut
  omega

theorem take_baseOf (name : Str) : name.take (baseOf name).length = baseOf name :=
  (List.prefix_iff_eq_take.mp (List.takeWhile_prefix _)).symm

theorem take_completeBaseOf {name : Str} (h : dot ∈ name) :
    name.take (completeBaseOf name).length = completeBaseOf name := by
  have hcut : (completeBaseOf name ++ dot :: name.rtakeWhile (· ≠ dot)).take
      (completeBaseOf name).length = completeBaseOf name := List.take_left
  rwa [← (name_last h).1] at hcut

/-- The place behind a dot, counted from the beginning of the path. -/
theorem behindDot_eq (h : dot ∈ nameOf p) (offset : Int) :
    max 0 (sepPlace p) + firstDotOffset p + offset + 1 =
      (folderOf p).length + ((baseOf (nameOf p)).length + offset + 1) := by
  rw [firstDotOffset_eq, if_pos h]
  omega

theorem getPath_eq (hlen : p.length < 2 ^ 31) (hpath : e.findLastSeparator.filePath = p)
    (hsep : e.findLastSeparator.lastSeparator = sepPlace p) :
    e.getPath.1 = nameAnswer p .getPath := by
  have hfolder := length_path p
  rw [getPath]
  simp only [hpath, hsep, nameAnswer]
  rcases folderOf_cases p with hnil | ⟨f, hf⟩
  · have hminus : sepPlace p = -1 := by rw [sepPlace, hnil]; rfl
    rw [if_pos hminus, if_pos hnil]
  · have hplace : sepPlace p = f.length := by
      rw [sepPlace, hf, List.length_append, List.length_singleton]
      omega
    rw [hf, List.length_append, List.length_singleton] at hfolder
    have hne : folderOf p ≠ [] := by rw [hf]; simp
    rw [if_neg (by omega), if_neg hne]
    by_cases hzero : f = []
    · subst hzero
      rw [List.nil_append] at hf
      rw [if_pos (by rw [hplace]; rfl), if_pos hf]
    · have hpos := List.length_pos_of_ne_nil hzero
      have hone : folderOf p ≠ [separator] := by
        rw [hf]
        intro heq
        exact hzero (List.append_cancel_right (heq.trans (List.nil_append _).symm))
      have hmod : (f.length : Int) % 2 ^ 32 = f.length := by
        apply Int.emod_eq_of_lt <;> omega
      rw [if_neg (by omega), if_neg hone, left, hplace, hmod, if_neg (by omega),
        Int.toNat_natCast, hf, List.dropLast_concat]
      have hcut : (f ++ ([separator] ++ nameOf p)).take f.length = f := List.take_left
      rwa [← List.append_assoc, ← hf, folderOf_append_nameOf] at hcut

/-- Every call answers with the names, and leaves the path read in one of these ways. -/
theorem call_spec (h : Reached p e) (hfits : Fits p) (hlen : p.length < 2 ^ 31) (g : Getter) :
    (e.call g).1 = nameAnswer p g ∧ Reached p (e.call g).2 := by
  obtain ⟨hreached, hpath, hsep⟩ := h.findLastSeparator hfits
  have hdots := h.findFileNameSeparators hfits
  cases g with
  | getFileName =>
    refine ⟨?_, hreached⟩
    show substring _ _ _ = _
    rw [hpath, hsep, substring_name hlen]
    rfl
  | getPath =>
    refine ⟨getPath_eq hlen hpath hsep, ?_⟩
    rw [call, getPath]
    split
    · exact hreached
    · split
      · exact hreached
      · exact hreached
  | getBaseName =>
    rw [call, getBaseName, hdots]
    refine ⟨?_, .dots⟩
    simp only [nameLength_eq, nameAnswer]
    by_cases hdot : dot ∈ nameOf p
    · have hle := length_baseOf_le (nameOf p)
      rw [if_pos hdot, Int.add_zero, substring_name_take hlen hle, take_baseOf]
    · rw [if_neg hdot, substring_name hlen, baseOf_plain hdot]
  | getCompleteBaseName =>
    rw [call, getCompleteBaseName, hdots]
    refine ⟨?_, .dots⟩
    simp only [nameLength_eq, nameAnswer]
    by_cases hdot : dot ∈ nameOf p
    · obtain ⟨hle, hlt⟩ := length_names hdot
      rw [if_pos hdot, if_pos hdot, lastDotOffset_eq, if_pos hdot]
      have hsum : ((baseOf (nameOf p)).length : Int) + ((completeBaseOf (nameOf p)).length -
          (baseOf (nameOf p)).length) = (completeBaseOf (nameOf p)).length := by omega
      rw [hsum, substring_name_take hlen (Nat.le_of_lt hlt), take_completeBaseOf hdot]
    · rw [if_neg hdot, if_neg hdot, substring_name hlen]
  | getSuffix =>
    rw [call, getSuffix, hdots]
    by_cases hdot : dot ∈ nameOf p
    · obtain ⟨hle, hlt⟩ := length_names hdot
      have hge := (lastDotOffset_ge p).2 hdot
      have hplace : max 0 (sepPlace p) + firstDotOffset p + lastDotOffset p + 1 =
          (folderOf p).length + ((completeBaseOf (nameOf p)).length + 1 : Nat) := by
        rw [behindDot_eq hdot, lastDotOffset_eq, if_pos hdot]
        omega
      simp only [nameAnswer, if_pos hdot]
      rw [if_neg (by omega)]
      refine ⟨?_, .dots⟩
      rw [hplace, substring_behind hlen hlt]
      have hcut : (completeBaseOf (nameOf p) ++ dot :: (nameOf p).rtakeWhile (· ≠ dot)).drop
          ((completeBaseOf (nameOf p)).length + 1) = (nameOf p).rtakeWhile (· ≠ dot) :=
        List.drop_length_add_append 1
      rwa [← (name_last hdot).1] at hcut
    · have hminus : lastDotOffset p = -1 := by rw [lastDotOffset_eq, if_neg hdot]
      rw [if_pos hminus, nameAnswer, if_neg hdot]
      exact ⟨rfl, .dots⟩
  | getCompleteSuffix =>
    rw [call, getCompleteSuffix, hdots]
    by_cases hdot : dot ∈ nameOf p
    · obtain ⟨hle, hlt⟩ := length_names hdot
      have hge := (firstDotOffset_ge p).2 hdot
      have hplace : max 0 (sepPlace p) + firstDotOffset p + 1 =
          (folderOf p).length + ((baseOf (nameOf p)).length + 1 : Nat) := by
        have hbehind := behindDot_eq hdot 0
        omega
      simp only [nameAnswer, if_pos hdot]
      rw [if_neg (by omega)]
      exact ⟨by rw [hplace, substring_behind hlen (by omega)], .dots⟩
    · have hminus : firstDotOffset p = -1 := by rw [firstDotOffset_eq, if_neg hdot]
      rw [if_pos hminus, nameAnswer, if_neg hdot]
      exact ⟨rfl, .dots⟩

/-- So do all of them, in every order. -/
theorem calls_spec (hfits : Fits p) (hlen : p.length < 2 ^ 31) : ∀ (gs : List Getter)
    {e : FileSystemEntry}, Reached p e → e.calls gs = gs.map (nameAnswer p)
  | [], _, _ => rfl
  | g :: gs, e, h => by
    obtain ⟨hanswer, hreached⟩ := call_spec h hfits hlen g
    rw [calls, hanswer, calls_spec hfits hlen gs hreached, List.map_cons]

/-! ### Numbers that do not fit -/

theorem pint16_lt {n : Int} (h : 32768 ≤ n) : pint16 n < n := by
  have hbounds := pint16_bounds n
  omega

/-- A place in front of the name gives a longer text. -/
theorem substring_before (hlen : p.length < 2 ^ 31) {k : Int} (hk : k ≤ sepPlace p)
    (hpos : 0 ≤ sepPlace p) : (nameOf p).length < (substring p k (-1)).length := by
  have hpath := length_path p
  rw [sepPlace] at hk hpos
  by_cases hneg : k < 0
  · have hfull : substring p k (-1) = p := by
      rw [substring, Lang.mid, if_neg (by omega), if_pos hneg, if_pos (.inl (by decide))]
      rfl
    rw [hfull]
    omega
  · obtain ⟨n, rfl⟩ := Int.eq_ofNat_of_zero_le (not_lt.mp hneg)
    rw [substring_rest (by omega) hlen, List.length_drop]
    omega

/-- A negative length is none. -/
theorem substring_name_neg (hlen : p.length < 2 ^ 31) {n : Int} (hneg : n < 0)
    (hge : -2147483648 ≤ n) : substring p (sepPlace p + 1) n = nameOf p := by
  have hpath := length_path p
  have hsep : sepPlace p + 1 = (folderOf p).length := by
    rw [sepPlace]
    omega
  have hroom : ((p.length : Int) - (folderOf p).length) % 2 ^ 32 =
      (p.length : Int) - (folderOf p).length := by
    apply Int.emod_eq_of_lt <;> omega
  have hmod : n % 2 ^ 32 = n + 2 ^ 32 := by
    rw [← Int.add_emod_right, Int.emod_eq_of_lt] <;> omega
  rw [hsep, substring, Lang.mid, if_neg (by omega), if_neg (by omega), hroom, hmod,
    if_pos (by omega), Lang.cutUnits_cutPart (by omega), drop_folderOf,
    List.take_of_length_le (by omega)]

/-- A length that is too small does not give the name it should. -/
theorem substring_short (hlen : p.length < 2 ^ 31) {n : Int} {size : Nat} (hlt : n < size)
    (hge : -2147483648 ≤ n) (hsize : size < (nameOf p).length) :
    (substring p (sepPlace p + 1) n).length ≠ size := by
  by_cases hneg : n < 0
  · rw [substring_name_neg hlen hneg hge]
    omega
  · obtain ⟨k, rfl⟩ := Int.eq_ofNat_of_zero_le (not_lt.mp hneg)
    rw [substring_name_take hlen (by omega), List.length_take]
    omega

theorem Consistent.length_base {answer : Getter → Str} (h : Consistent p answer)
    (hdot : dot ∈ nameOf p) :
    (answer .getBaseName).length = (baseOf (nameOf p)).length ∧
      (answer .getCompleteBaseName).length = (completeBaseOf (nameOf p)).length := by
  obtain ⟨hfirst, hlast, hbase, hsuffix⟩ := h.dotted hdot
  obtain ⟨hcut, hrest⟩ := name_last hdot
  constructor
  · conv_rhs => rw [hfirst]
    rw [baseOf_append_plain hbase, baseOf, List.takeWhile_cons, if_neg (by simp), List.append_nil]
  · rw [cut_unique (hlast.symm.trans hcut) hsuffix hrest]

theorem fits_of_consistent (hlen : p.length < 2 ^ 31) {answer : Getter → Str}
    (h : Consistent p answer) (hcalls : ∀ gs, (ofPath p).calls gs = gs.map answer) : Fits p := by
  have hcall : ∀ g, ((ofPath p).call g).1 = answer g := fun g => by
    have hone := hcalls [g]
    rwa [calls, List.map_singleton, calls, List.singleton_inj] at hone
  have hsep : sepPlace p < 32768 := by
    by_contra hge
    have hlt := pint16_lt (not_lt.mp hge)
    have hname := hcall .getFileName
    rw [h.fileName] at hname
    have hread : ((ofPath p).call .getFileName).1 =
        substring p (pint16 (lastIndexOf p separator) + 1) (-1) := rfl
    rw [hread, lastIndexOf_eq, ← sepPlace] at hname
    have hlong := substring_before hlen (show pint16 (sepPlace p) + 1 ≤ sepPlace p by omega)
      (by omega)
    rw [hname] at hlong
    exact absurd hlong (lt_irrefl _)
  have hs : pint16 (sepPlace p) = sepPlace p :=
    pint16_eq (by have := sepPlace_ge p; omega) hsep
  have hdots := findFileNameSeparators_eq (p := p) (.inl rfl) 0
  rw [hs] at hdots
  have hfirst : firstDotOffset p < 32768 := by
    by_contra hge
    have hdot : dot ∈ nameOf p := by
      by_contra hdot
      rw [firstDotOffset_eq, if_neg hdot] at hge
      omega
    have hlt := pint16_lt (not_lt.mp hge)
    have hbounds := pint16_bounds (firstDotOffset p)
    obtain ⟨hle, hname⟩ := length_names hdot
    have hbase := congrArg List.length (hcall .getBaseName)
    rw [(h.length_base hdot).1, call, getBaseName, ofPath, hdots] at hbase
    refine substring_short hlen ?_ ?_ (Nat.lt_of_le_of_lt hle hname) hbase
    · have hlength := nameLength_eq p 0 0
      rw [if_pos hdot, nameLength, if_pos (show firstDotOffset p ≥ 0 by omega)] at hlength
      simp only at hlength
      rw [nameLength]
      simp only
      split
      · split <;> split at hlength <;> omega
      · omega
    · rw [nameLength]
      simp only
      split
      · split <;> omega
      · omega
  have hf : pint16 (firstDotOffset p) = firstDotOffset p :=
    pint16_eq (by have := (firstDotOffset_ge p).1; omega) hfirst
  rw [hf] at hdots
  refine ⟨hsep, hfirst, ?_⟩
  by_contra hge
  have hdot : dot ∈ nameOf p := by
    by_contra hdot
    rw [lastDotOffset_eq, if_neg hdot] at hge
    omega
  have hlt := pint16_lt (not_lt.mp hge)
  have hbounds := pint16_bounds (lastDotOffset p)
  obtain ⟨hle, hname⟩ := length_names hdot
  have hbase := congrArg List.length (hcall .getCompleteBaseName)
  rw [(h.length_base hdot).2, call, getCompleteBaseName, ofPath, hdots] at hbase
  refine substring_short hlen ?_ ?_ hname hbase
  · rw [nameLength_eq, if_pos hdot]
    rw [lastDotOffset_eq, if_pos hdot] at hlt
    simp only [lastDotOffset_eq, if_pos hdot]
    omega
  · rw [nameLength_eq, if_pos hdot]
    simp only
    omega

/-- The getters answer with the parts of the name, in every order, exactly where the three numbers
fit 16 bits. -/
theorem names_iff (p : Str) (hlen : p.length < 2 ^ 31) :
    (∃ answer, Consistent p answer ∧ ∀ gs, (ofPath p).calls gs = gs.map answer) ↔ Fits p :=
  ⟨fun ⟨_, h, hcalls⟩ => fits_of_consistent hlen h hcalls,
    fun hfits => ⟨nameAnswer p, nameAnswer_consistent p, fun gs => calls_spec hfits hlen gs .unread⟩⟩

/-- An archive. -/
theorem names_archive : ∃ answer, Consistent (lit16 "/a.tar.gz") answer ∧
    ∀ gs, (ofPath (lit16 "/a.tar.gz")).calls gs = gs.map answer :=
  (names_iff (lit16 "/a.tar.gz") (by decide)).mpr ⟨by decide, by decide, by decide⟩

/-- Behind a folder of 32768 units the whole path is taken for the file name. -/
theorem getFileName_wrapped {f name : Str} (hf : f.length = 32768) (hname : separator ∉ name) :
    (ofPath (f ++ separator :: name)).getFileName.1 = f ++ separator :: name := by
  have hfolder := (folderOf_append f hname).1
  generalize f ++ separator :: name = p at *
  have hplace : lastIndexOf p separator = 32768 := by
    rw [lastIndexOf_eq, hfolder, List.length_append, hf]
    rfl
  have hread : (ofPath p).getFileName.1 = substring p (pint16 (lastIndexOf p separator) + 1) (-1) :=
    rfl
  have hwrapped : pint16 32768 + 1 = -32767 := by decide
  rw [hread, hplace, hwrapped, substring, Lang.mid, if_neg (by omega), if_pos (by decide),
    if_pos (.inl (by decide))]
  rfl

theorem names_wrapped : ∃ p, p = List.replicate 32768 (unit 'a') ++ separator :: [unit 'b'] ∧
    (ofPath p).getFileName.1 = p ∧
      ¬∃ answer, Consistent p answer ∧ ∀ gs, (ofPath p).calls gs = gs.map answer := by
  have hb : separator ∉ [unit 'b'] := by decide
  have hwhole := getFileName_wrapped (List.length_replicate (n := 32768) (a := unit 'a')) hb
  have hname := (folderOf_append (List.replicate 32768 (unit 'a')) hb).2
  refine ⟨_, rfl, hwhole, fun ⟨answer, h, hcalls⟩ => ?_⟩
  have hone := hcalls [.getFileName]
  rw [calls, List.map_singleton, calls, List.singleton_inj, h.fileName, hname] at hone
  have hsize := congrArg List.length (hwhole.symm.trans hone)
  rw [List.length_append, List.length_replicate] at hsize
  exact absurd hsize (by decide)

end FileSystemEntry

end Libpdk.Io

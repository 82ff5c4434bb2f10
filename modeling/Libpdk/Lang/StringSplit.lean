import Libpdk.Lang.StringSearchFromEnd

/-!
# Splitting a string

Each part ends where the separator is found next. An empty separator is found where it is searched,
so the search starts behind the part then, at last one unit behind the end of the string. The parts
joined by the separator are the string (`split_exact`).
-/
namespace Libpdk.Lang

open Codecs.Character

inductive SplitBehavior
  | keepEmptyParts
  | skipEmptyParts
  deriving DecidableEq

inductive CutResult
  | null
  | empty
  | full
  | subset
  deriving DecidableEq

/-- A part that lies in the whole, with its place and its length.
mirrors ds/ArrayData.cpp:158-161 -/
def cutPart (originalLength position length : Int) : CutResult × Int × Int :=
  if position = 0 ∧ length = originalLength then (.full, position, length)
  else (if length > 0 then .subset else .empty, position, length)

/-- mirrors ds/ArrayData.cpp:139-162 -/
def mid (originalLength position length : Int) : CutResult × Int × Int :=
  if position > originalLength then (.null, position, length)
  else if position < 0 then
    if length < 0 ∨ length + position ≥ originalLength then (.full, position, length)
    else if length + position ≤ 0 then (.null, position, length)
    else cutPart originalLength 0 (length + position)
  else if length % 2 ^ 32 > (originalLength - position) % 2 ^ 32 then
    cutPart originalLength position (originalLength - position)
  else cutPart originalLength position length

/-- mirrors lang/String.cpp:2262-2273 -/
def cutUnits (s : Str) : CutResult × Int × Int → Str
  | (.null, _, _) => []
  | (.empty, _, _) => []
  | (.full, _, _) => s
  | (.subset, pos, n) => (s.drop pos.toNat).take n.toNat

/-- mirrors lang/String.cpp:2259-2276 -/
def substring (s : Str) (pos n : Int) : Str := cutUnits s (mid s.length pos n)

section

variable (b : Build) (m : Memory) (f : CaseFolding) (cs : CaseSensitivity)
  (source sep : Text) (behavior : SplitBehavior)

/-- The part from `start` to `stop` in front of what follows.
mirrors lang/String.cpp:3318-3320 and 3324-3326 -/
def pushPart (start stop : Int) (part : Str) (list : List Str) : List Str :=
  if start ≠ stop ∨ behavior = .keepEmptyParts then part :: list else list

/-- mirrors lang/String.cpp:3313-3327 -/
def splitLoop : Nat → Int → Int → Option (List Str)
  | 0, _, _ => none
  | rounds + 1, start, extra => do
    let stop ← findString b m f cs source sep (Int32.ofInt (start + extra))
    let s := source.view.read m.units
    if stop = -1 then
      some (pushPart behavior start source.view.size (substring s start (-1)) [])
    else do
      let list ← splitLoop rounds (stop + sep.view.size) (if sep.view.size = 0 then 1 else 0)
      some (pushPart behavior start stop (substring s start (stop - start)) list)

/-- mirrors lang/String.cpp:3306-3329 -/
def split : Option (List Str) :=
  splitLoop b m f cs source sep behavior (source.view.size + 2) 0 0

end

section

variable {b : Build} {m : Memory} {f : CaseFolding} {source sep : Text}

/-! ## Parts -/

theorem cutUnits_cutPart {s : Str} {k r : Nat} (hk : k ≤ r) :
    cutUnits s (cutPart s.length k ((r : Int) - k)) = (s.drop k).take (r - k) := by
  have hsize : ((r : Int) - k).toNat = r - k := by omega
  rw [cutPart]
  by_cases hall : (k : Int) = 0 ∧ (r : Int) - k = s.length
  · obtain rfl : k = 0 := by omega
    rw [if_pos hall, List.drop_zero, List.take_of_length_le (by omega), cutUnits]
  rw [if_neg hall]
  by_cases hpos : (r : Int) - k > 0
  · rw [if_pos hpos, cutUnits, hsize, Int.toNat_natCast]
  · obtain rfl : k = r := by omega
    rw [if_neg hpos, cutUnits, Nat.sub_self, List.take_zero]

theorem substring_part {s : Str} {k r : Nat} (hk : k ≤ r) (hr : r ≤ s.length)
    (hfits : s.length < 2 ^ 31) : substring s k ((r : Int) - k) = (s.drop k).take (r - k) := by
  have hlen : ((r : Int) - k) % 2 ^ 32 = (r : Int) - k := by
    apply Int.emod_eq_of_lt <;> omega
  have hroom : ((s.length : Int) - k) % 2 ^ 32 = (s.length : Int) - k := by
    apply Int.emod_eq_of_lt <;> omega
  rw [substring, mid, if_neg (by omega), if_neg (by omega), hlen, hroom, if_neg (by omega)]
  exact cutUnits_cutPart hk

theorem substring_rest {s : Str} {k : Nat} (hk : k ≤ s.length) (hfits : s.length < 2 ^ 31) :
    substring s k (-1) = s.drop k := by
  have hroom : ((s.length : Int) - k) % 2 ^ 32 = (s.length : Int) - k := by
    apply Int.emod_eq_of_lt <;> omega
  have hneg : (-1 : Int) % 2 ^ 32 = 2 ^ 32 - 1 := by decide
  rw [substring, mid, if_neg (by omega), if_neg (by omega), hroom, hneg, if_pos (by omega),
    cutUnits_cutPart hk, List.take_of_length_le (by rw [List.length_drop])]

/-- A part that ends where `n` is found next does not hold it. -/
theorem not_occursAt_part {n s : Str} {k r : Nat} (hn : n ≠ []) (hr : r ≤ s.length)
    (hleast : ∀ j, k ≤ j → j < r → ¬OccursAt n s j) (j : Nat) :
    ¬OccursAt n ((s.drop k).take (r - k)) j := by
  rintro ⟨hle, hget⟩
  have hpos : 0 < n.length := List.length_pos_iff.mpr hn
  rw [List.length_take, List.length_drop] at hle
  refine hleast (k + j) (Nat.le_add_right _ _) (by omega) ⟨by omega, fun i hi => ?_⟩
  rw [← hget i hi, List.getElem?_take, if_pos (by omega), List.getElem?_drop, Nat.add_assoc]

/-! ## The loop -/

/-- What the parts of the rest of a string are. -/
structure Splits (sep rest : Str) (parts : List Str) : Prop where
  some : parts ≠ []
  joined : sep.intercalate parts = rest
  free : sep ≠ [] → ∀ part ∈ parts, ∀ j, ¬OccursAt sep part j

theorem splits_last {sep s : Str} {k extra : Nat} (hextra : sep ≠ [] → extra = 0)
    (hnowhere : ∀ j, k + extra ≤ j → ¬OccursAt sep s j) : Splits sep (s.drop k) [s.drop k] := by
  refine ⟨List.cons_ne_nil _ _, List.intercalate_singleton, fun hsep part hpart j hat => ?_⟩
  rw [List.mem_singleton.mp hpart] at hat
  have hall : (s.drop k).take (s.length - k) = s.drop k :=
    List.take_of_length_le (by rw [List.length_drop])
  rw [← hall] at hat
  have hzero := hextra hsep
  exact not_occursAt_part hsep (Nat.le_refl _) (fun i hi _ => hnowhere i (by omega)) j hat

theorem splits_part {sep s : Str} {k extra r : Nat} {parts : List Str}
    (hextra : sep ≠ [] → extra = 0) (hle : k ≤ r) (hat : OccursAt sep s r)
    (hleast : ∀ j, k + extra ≤ j → j < r → ¬OccursAt sep s j)
    (hrest : Splits sep (s.drop (r + sep.length)) parts) :
    Splits sep (s.drop k) ((s.drop k).take (r - k) :: parts) := by
  obtain ⟨hr, htake⟩ := occursAt_iff_take.mp hat
  refine ⟨List.cons_ne_nil _ _, ?_, fun hsep part hpart => ?_⟩
  · have hback : (s.drop k).drop (r - k) = s.drop r := by
      rw [List.drop_drop]
      congr 1
      omega
    have hsplit := List.take_append_drop sep.length (s.drop r)
    rw [htake, List.drop_drop] at hsplit
    rw [List.intercalate_cons_of_ne_nil hrest.some, hrest.joined, List.append_assoc, hsplit,
      ← hback, List.take_append_drop]
  · rcases List.mem_cons.mp hpart with rfl | hmem
    · have hzero := hextra hsep
      exact not_occursAt_part hsep hr fun j hj => hleast j (by omega)
    · exact hrest.free hsep part hmem

theorem pushPart_keep (start stop : Int) (part : Str) (list : List Str) :
    pushPart .keepEmptyParts start stop part list = part :: list := if_pos (.inr rfl)

theorem pushPart_skip {k r : Nat} {s : Str} (hle : k ≤ r) (hr : r ≤ s.length)
    (list : List Str) :
    pushPart .skipEmptyParts k r ((s.drop k).take (r - k)) (list.filter (· ≠ [])) =
      ((s.drop k).take (r - k) :: list).filter (· ≠ []) := by
  have hlen : ((s.drop k).take (r - k)).length = r - k := by
    rw [List.length_take, List.length_drop]
    omega
  by_cases hsame : k = r
  · have hnil : (s.drop k).take (r - k) = [] := List.length_eq_zero_iff.mp (by omega)
    rw [hnil, List.filter_cons_of_neg (by simp)]
    simp [pushPart, hsame]
  · have hne : (s.drop k).take (r - k) ≠ [] := List.length_pos_iff.mp (by omega)
    have hne' : ((k : Int)) ≠ r := by omega
    rw [List.filter_cons_of_pos (by simpa using hne), pushPart, if_pos (.inl hne')]

variable (b m f source sep) in
theorem splitLoop_exact : ∀ (rounds k extra : Nat), k ≤ source.view.size →
    (extra = 0 ∨ extra = 1 ∧ sep.view.size = 0) → source.view.size + 1 < rounds + (k + extra) →
    ∃ parts, splitLoop b m f .sensitive source sep .keepEmptyParts rounds k extra = some parts ∧
      splitLoop b m f .sensitive source sep .skipEmptyParts rounds k extra =
        some (parts.filter (· ≠ [])) ∧
      Splits (sep.view.read m.units) ((source.view.read m.units).drop k) parts
  | 0, k, extra, hk, hextra, hrounds => by omega
  | rounds + 1, k, extra, hk, hextra, hrounds => by
    have hs : (source.view.read m.units).length = source.view.size := View.length_read _ _
    have hn : (sep.view.read m.units).length = sep.view.size := View.length_read _ _
    have hfits := source.fits
    have hzero : sep.view.read m.units ≠ [] → extra = 0 := by
      intro hne
      have hpos := List.length_pos_iff.mpr hne
      omega
    obtain ⟨r, hr, hfirst⟩ : ∃ r, findString b m f .sensitive source sep
        (Int32.ofInt (k + extra : Nat)) = some r ∧
        FirstFrom (Occurs m source.view sep.view) (k + extra) r :=
      findString_next b m f (by omega)
    have hplace : (k : Int) + extra = (k + extra : Nat) := by omega
    simp only [splitLoop, hplace, hr, Option.bind_eq_bind, Option.bind_some]
    cases hfirst with
    | none nowhere =>
      have hall : ((source.view.read m.units).drop k).take (source.view.size - k) =
          (source.view.read m.units).drop k :=
        List.take_of_length_le (by rw [List.length_drop]; omega)
      have hpush := pushPart_skip hk (Nat.le_of_eq hs.symm) []
      rw [hall] at hpush
      rw [substring_rest (by omega) (by omega), if_pos rfl, if_pos rfl, pushPart_keep]
      exact ⟨[(source.view.read m.units).drop k], rfl, congrArg some hpush,
        splits_last hzero nowhere⟩
    | @found j le holds least =>
      have hle : j + sep.view.size ≤ source.view.size := by
        have hle := holds.le
        omega
      obtain ⟨parts, hkeep, hskip, hsplits⟩ := splitLoop_exact rounds (j + sep.view.size)
        (if sep.view.size = 0 then 1 else 0) hle (by split <;> omega) (by split <;> omega)
      have hnext : (j : Int) + sep.view.size = (j + sep.view.size : Nat) := by omega
      have hextra' : (if sep.view.size = 0 then 1 else 0 : Int) =
          (if sep.view.size = 0 then 1 else 0 : Nat) := by
        split <;> rfl
      rw [← hn] at hsplits
      have hfound : ¬((j : Int) = -1) := by omega
      rw [if_neg hfound, if_neg hfound, hnext, hextra', hkeep, hskip, Option.bind_some,
        Option.bind_some, substring_part (by omega) (by omega) (by omega), pushPart_keep,
        pushPart_skip (by omega) (by omega)]
      exact ⟨_, rfl, rfl, splits_part hzero (by omega) holds least hsplits⟩

end

/-- The parts joined by the separator are the string, and none holds a separator that is not empty;
those that are not empty are what is left when empty parts are skipped. -/
theorem split_exact (b : Build) (m : Memory) (f : CaseFolding) (source sep : Text) :
    ∃ parts, split b m f .sensitive source sep .keepEmptyParts = some parts ∧
      (sep.view.read m.units).intercalate parts = source.view.read m.units ∧
      (sep.view.read m.units ≠ [] →
        ∀ part ∈ parts, ∀ j, ¬OccursAt (sep.view.read m.units) part j) ∧
      split b m f .sensitive source sep .skipEmptyParts = some (parts.filter (· ≠ [])) := by
  obtain ⟨parts, hkeep, hskip, hsplits⟩ := splitLoop_exact b m f source sep
    (source.view.size + 2) 0 0 (Nat.zero_le _) (.inl rfl) (by omega)
  exact ⟨parts, hkeep, hsplits.joined, hsplits.free, hskip⟩

end Libpdk.Lang

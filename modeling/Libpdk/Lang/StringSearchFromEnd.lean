import Libpdk.Lang.StringSearchExact

/-!
# Starts counted from the end

A negative start has the length added. A start that lies in front of the string then is neither
refused nor clamped by `find_string`: the sum with the length of the needle is compared without its
sign, so that a needle that is shorter than the distance is not searched at all, and of the
strategies one searches the last unit only, one the whole string and one reads in front of it
(`indexOf_counted`).
-/
namespace Libpdk.Lang

section

open Codecs.Character

section

variable (b : Build) (m : Memory) (f : CaseFolding) (cs : CaseSensitivity) (h needle : Text)
  (start : Int32)

/-- The start counted from the end, and not in front of the string. -/
def fromEnd : Int32 := Int32.ofInt (max 0 (start.toInt + h.view.size))

/-- A search reads nothing outside of the string, a negative start is counted from its end, and a
unit is found as a needle and on its own. -/
structure Counted : Prop where
  reads : ∃ r, indexOf b m f cs h needle start = some r
  same : start.toInt < 0 →
    indexOf b m f cs h needle start = indexOf b m f cs h needle (fromEnd h start)
  char : needle.view.size = 1 → ∀ c, fetch m needle.view 0 = some c →
    indexOf b m f cs h needle start = indexOfChar b m f cs h c start

/-- The start lies in the string or behind it; or the needle is too short to reach the string from
it and is found nowhere, or is too long, or is one unit that the last unit is not the only one to
look for, or is searched with a table. -/
def Countable : Prop :=
  let place := startPlace h start
  0 ≤ place ∨
    (needle.view.size + place < 0 ∧ needle.view.size ≠ 0 ∧
      ∀ j, ¬FoundAt b m f cs h.view needle.view j) ∨
    (0 ≤ needle.view.size + place ∧
      (needle.view.size + place > h.view.size ∨ h.view.size = 0 ∨
        (needle.view.size = 1 ∧ ∀ j, j + 1 < h.view.size →
          ¬FoundAt b m f cs h.view needle.view j) ∨
        (h.view.size > 500 ∧ needle.view.size > 5)))

variable {b m f cs h needle start}

theorem findString_congr {start' : Int32} (heq : startPlace h start = startPlace h start') :
    findString b m f cs h needle start = findString b m f cs h needle start' := by
  rw [startPlace, startPlace] at heq
  simp only [findString, heq]

/-- Too long a needle. -/
theorem findString_behind {place : Nat} (hplace : startPlace h start = place)
    (hlong : h.view.size < needle.view.size + place) :
    findString b m f cs h needle start = some (-1) := by
  have hn := needle.fits
  have hint : (place : Int) < 2 ^ 31 := by
    have hlt := Int32.toInt_lt start
    have hh := h.fits
    rw [← hplace, startPlace]
    split <;> omega
  rw [startPlace] at hplace
  simp only [findString, hplace]
  rw [if_pos (by omega)]

variable (b m f) in
/-- An empty needle may also be searched one unit behind the end, which may be too far for an
`int`. -/
theorem findString_next {place : Nat}
    (hplace : place ≤ h.view.size ∨ place = h.view.size + 1 ∧ needle.view.size = 0) :
    ∃ r, findString b m f .sensitive h needle (Int32.ofInt place) = some r ∧
      FirstFrom (Occurs m h.view needle.view) place r := by
  have hfits := h.fits
  rcases hplace with hle | ⟨rfl, hempty⟩
  · exact findString_first b m f (startPlace_ofInt (by omega)) hle
  have hnone : FirstFrom (Occurs m h.view needle.view) (h.view.size + 1) (-1) := by
    refine .none fun j hj hat => ?_
    have hle := hat.le
    rw [View.length_read, View.length_read] at hle
    omega
  by_cases hint : h.view.size + 1 < 2 ^ 31
  · exact ⟨-1, findString_behind (startPlace_ofInt hint) (by omega), hnone⟩
  · refine ⟨-1, ?_, hnone⟩
    have hsize : h.view.size = 2 ^ 31 - 1 := by omega
    simp only [findString, hempty, hsize]
    rfl

/-- A unit as a needle. -/
theorem findString_one {place : Nat} {c : UInt16} (hplace : startPlace h start = place)
    (hone : needle.view.size = 1) (hc : fetch m needle.view 0 = some c) :
    findString b m f cs h needle start = findChar b m f cs h.view c place := by
  by_cases hlong : h.view.size < needle.view.size + place
  · rw [findString_behind hplace hlong]
    obtain ⟨r, hr, hfirst⟩ := findChar_nat m f cs b h.view c place
    rw [hr]
    rcases hfirst.sound with hneg | ⟨j, -, hj, hat⟩
    · rw [hneg]
    · have hlt := hat.lt
      omega
  · have hh := h.fits
    rw [startPlace] at hplace
    simp only [findString, hplace]
    rw [if_neg (by omega), if_neg (by omega), if_neg (by omega), if_pos hone, hc]
    rfl

/-- On its own a unit is searched from the start clamped. -/
theorem findChar_clamp (s : StringView) (c : UInt16) {i : Int} (hi : i < 0) :
    findChar b m f cs s c i = findChar b m f cs s c (max (i + s.size) 0 : Int) := by
  have hclamp : ¬(max (i + s.size) 0 : Int) < 0 := by omega
  simp only [findChar, if_pos hi, if_neg hclamp]

theorem indexOfChar_place {c : UInt16} (place : Nat) (hstart : start.toInt < 0)
    (hplace : (max 0 (startPlace h start)) = place) :
    indexOfChar b m f cs h c start = findChar b m f cs h.view c place := by
  rw [startPlace, if_pos hstart] at hplace
  rw [indexOfChar, findChar_clamp _ _ hstart, Int.max_comm, hplace]

theorem startPlace_fromEnd (hstart : start.toInt < 0) :
    startPlace h (fromEnd h start) = max 0 (startPlace h start) := by
  have hh := h.fits
  have hlow := Int32.le_toInt start
  have hint : (fromEnd h start).toInt = max 0 (start.toInt + h.view.size) := by
    apply Int32.toInt_ofInt_of_le <;> omega
  rw [startPlace, hint, if_neg (by omega), startPlace, if_pos hstart]

theorem needle_unit (hone : needle.view.size = 1) : ∃ c, fetch m needle.view 0 = some c :=
  ⟨_, (fetch_nat needle.view 0).trans (View.getElem?_read _ _ (by omega))⟩

/-- Starts that lie in the string, or behind it. -/
theorem counted_of_place {place : Nat} (hplace : startPlace h start = place) :
    Counted b m f cs h needle start where
  reads := by
    by_cases hlong : h.view.size < needle.view.size + place
    · exact ⟨-1, findString_behind hplace hlong⟩
    · by_cases hempty : needle.view.size = 0
      · exact ⟨place, findString_empty b m f cs hplace hempty (by omega)⟩
      · obtain ⟨r, hr, -⟩ := findString_found b m f cs hplace (Nat.pos_of_ne_zero hempty)
        exact ⟨r, hr⟩
  same := by
    intro hstart
    apply findString_congr
    rw [startPlace_fromEnd hstart]
    omega
  char := by
    intro hone c hc
    rw [indexOf, findString_one hplace hone hc]
    by_cases hstart : start.toInt < 0
    · rw [indexOfChar_place place hstart (by rw [hplace]; omega)]
    · rw [startPlace, if_neg hstart] at hplace
      rw [indexOfChar, hplace]

theorem fromEnd_place (hneg : startPlace h start < 0) :
    startPlace h (fromEnd h start) = (0 : Nat) := by
  have hstart : start.toInt < 0 := by
    by_contra hpos
    rw [startPlace, if_neg hpos] at hneg
    exact hpos hneg
  rw [startPlace_fromEnd hstart]
  omega

/-- In front of the string the search has to be the one from its first unit. -/
theorem counted_iff (hneg : startPlace h start < 0) : Counted b m f cs h needle start ↔
    ∃ r, findString b m f cs h needle start = some r ∧
      findString b m f cs h needle (fromEnd h start) = some r := by
  have hstart : start.toInt < 0 := by
    by_contra hpos
    rw [startPlace, if_neg hpos] at hneg
    exact hpos hneg
  have hzero := fromEnd_place hneg
  constructor
  · intro hcounted
    obtain ⟨r, hr⟩ := hcounted.reads
    exact ⟨r, hr, (hcounted.same hstart).symm.trans hr⟩
  · rintro ⟨r, hr, hr'⟩
    refine ⟨⟨r, hr⟩, fun _ => hr.trans hr'.symm, fun hone c hc => ?_⟩
    rw [indexOf, hr, ← hr', findString_one hzero hone hc,
      indexOfChar_place 0 hstart (by omega)]

/-! ## In front of the string -/

/-- The reference: the search from the first unit. -/
theorem findString_fromEnd (hneg : startPlace h start < 0) (hsize : needle.view.size ≠ 0) :
    ∃ r, findString b m f cs h needle (fromEnd h start) = some r ∧
      (r = -1 ∨ ∃ j : Nat, r = j ∧ FoundAt b m f cs h.view needle.view j) ∧
      (Unsplit m f cs needle.view → FirstFrom (FoundAt b m f cs h.view needle.view) 0 r) := by
  obtain ⟨r, hr, hsound, hfirst⟩ := findString_found b m f cs
    (fromEnd_place hneg) (Nat.pos_of_ne_zero hsize)
  refine ⟨r, hr, ?_, hfirst⟩
  rcases hsound with hnone | ⟨j, hj, -, hat⟩
  · exact .inl hnone
  · exact .inr ⟨j, hj, hat⟩

/-- A search that is given up is right where there is nothing to be found. -/
theorem counted_of_nowhere (hneg : startPlace h start < 0) (hsize : needle.view.size ≠ 0)
    (hrun : findString b m f cs h needle start = some (-1))
    (hnowhere : ∀ j, ¬FoundAt b m f cs h.view needle.view j) :
    Counted b m f cs h needle start := by
  obtain ⟨r, hr, hsound, -⟩ := findString_fromEnd (b := b) (m := m) (f := f) hneg hsize
  rcases hsound with rfl | ⟨j, -, hat⟩
  · exact (counted_iff hneg).mpr ⟨-1, hrun, hr⟩
  · exact absurd hat (hnowhere j)

/-- A needle that does not reach the string: the sum without its sign is large. -/
theorem findString_short (hshort : needle.view.size + startPlace h start < 0) :
    findString b m f cs h needle start = some (-1) := by
  have hh := h.fits
  have hlow : -2 ^ 31 ≤ startPlace h start := by
    have hle := Int32.le_toInt start
    rw [startPlace]
    split <;> omega
  rw [startPlace] at hshort hlow
  simp only [findString]
  rw [if_pos (by omega)]

theorem findString_long (hneg : startPlace h start < 0)
    (hlong : needle.view.size + startPlace h start > h.view.size) :
    findString b m f cs h needle start = some (-1) := by
  have hn := needle.fits
  rw [startPlace] at hneg hlong
  simp only [findString]
  rw [if_pos (by omega)]

/-- The strategies, behind the test of the start. -/
theorem findString_reached (hneg : startPlace h start < 0)
    (hreach : 0 ≤ needle.view.size + startPlace h start)
    (hle : needle.view.size + startPlace h start ≤ h.view.size) :
    findString b m f cs h needle start =
      if h.view.size = 0 then some (-1)
      else if needle.view.size = 1 then
        (fetch m needle.view 0).bind fun c => findChar b m f cs h.view c (startPlace h start)
      else if h.view.size > 500 ∧ needle.view.size > 5 then
        findStringBoyerMoore m f cs h.view (startPlace h start) needle.view
      else findStringHash b m f cs h.view needle.view (startPlace h start) := by
  have hn := needle.fits
  rw [startPlace] at hneg hreach hle ⊢
  simp only [findString]
  rw [if_neg (by omega), if_neg (by omega)]
  rfl

/-- The hash reads in front of the string. -/
theorem findStringHash_neg {s t : StringView} {i : Int} (hi : i < 0) (ht : 0 < t.size) :
    findStringHash b m f cs s t i = none := by
  obtain ⟨n, hn⟩ : ∃ n, t.size = n + 1 := ⟨t.size - 1, by omega⟩
  have hout : hashUnits m f cs s t.size i 0 = none := by
    rw [hn, hashUnits, unitKey_neg hi]
    rfl
  rw [findStringHash, hout]
  cases hashUnits m f cs t t.size 0 0 <;> rfl

/-- One unit is searched from the last unit on. -/
theorem counted_one_iff (hneg : startPlace h start < 0) (hone : needle.view.size = 1)
    (hreach : 0 ≤ needle.view.size + startPlace h start) (hsize : h.view.size ≠ 0) :
    Counted b m f cs h needle start ↔
      ∀ j, j + 1 < h.view.size → ¬FoundAt b m f cs h.view needle.view j := by
  obtain ⟨c, hc⟩ := needle_unit (m := m) hone
  have hlast : (max (startPlace h start + h.view.size) 0 : Int) = (h.view.size - 1 : Nat) := by
    omega
  have hrun : findString b m f cs h needle start =
      findChar b m f cs h.view c (h.view.size - 1 : Nat) := by
    rw [findString_reached hneg hreach (by omega), if_neg hsize, if_pos hone, hc, Option.bind_some,
      findChar_clamp _ _ hneg, hlast]
  have hfound (j : Nat) : FoundAt b m f cs h.view needle.view j ↔
      CharAt m f cs h.view (charKey f cs c) j := by
    rw [FoundAt, if_pos hone, hc]
    simp
  obtain ⟨r, hr, hfirst⟩ := findChar_nat m f cs b h.view c (h.view.size - 1)
  obtain ⟨r', hr', hfirst'⟩ := findChar_nat m f cs b h.view c 0
  rw [counted_iff hneg, hrun, hr, findString_one (fromEnd_place hneg) hone hc, hr']
  simp only [hfound]
  constructor
  · rintro ⟨_, ⟨⟩, hsame⟩ j hj hat
    rw [Option.some.injEq] at hsame
    subst hsame
    cases hfirst' with
    | found le holds least =>
      obtain hneg | ⟨k, hk, hle, -⟩ := hfirst.sound
      · omega
      · exact least j (Nat.zero_le j) (by omega) hat
    | none nowhere => exact nowhere j (Nat.zero_le j) hat
  · intro hbefore
    have hskip := hfirst.skip (Nat.zero_le _) fun j _ hj => hbefore j (by omega)
    exact ⟨r, rfl, by rw [hfirst'.unique hskip]⟩

/-- The table is used from the first unit on. -/
theorem counted_table (hneg : startPlace h start < 0)
    (hbm : h.view.size > 500 ∧ needle.view.size > 5)
    (hreach : 0 ≤ needle.view.size + startPlace h start)
    (hle : needle.view.size + startPlace h start ≤ h.view.size) :
    Counted b m f cs h needle start := by
  have hrun : findString b m f cs h needle start =
      findStringBoyerMoore m f cs h.view (0 : Nat) needle.view := by
    have hmax : max (startPlace h start) 0 = max ((0 : Nat) : Int) 0 := by omega
    rw [findString_reached hneg hreach hle, if_neg (by omega), if_neg (by omega), if_pos hbm,
      findStringBoyerMoore, findStringBoyerMoore, hmax]
  obtain ⟨skiptable, htable, -⟩ := bmInitSkiptable_spec m f cs needle.view
  obtain ⟨r, hr, hsound, -⟩ := bmFind_first m f cs needle.view skiptable (Nat.zero_le h.view.size)
  have hbmrun : findString b m f cs h needle start = some r := by
    rw [hrun, findStringBoyerMoore, htable]
    exact hr
  by_cases hlong : h.view.size < needle.view.size
  · -- the needle is found nowhere
    refine counted_of_nowhere hneg (by omega) ?_ fun j hat => ?_
    · rcases hsound with rfl | ⟨j, -, -, hat⟩
      · exact hbmrun
      · have hin := hat.le
        omega
    · have hin := hat.le
      omega
  · have hh := h.fits
    have hplace := fromEnd_place hneg
    rw [counted_iff hneg, hrun]
    rw [startPlace] at hplace
    have hsame : findString b m f cs h needle (fromEnd h start) =
        findStringBoyerMoore m f cs h.view (0 : Nat) needle.view := by
      have hn := needle.fits
      simp only [findString, hplace]
      rw [if_neg (by omega), if_neg (by omega), if_neg (by omega), if_neg (by omega), if_pos hbm]
    rw [hsame, ← hrun]
    exact ⟨r, hbmrun, hbmrun⟩

theorem Countable.counted (hc : Countable b m f cs h needle start) :
    Counted b m f cs h needle start := by
  by_cases hneg : startPlace h start < 0
  · rcases hc with hpos | ⟨hshort, hsize, hnowhere⟩ | ⟨hreach, hcase⟩
    · omega
    · exact counted_of_nowhere hneg hsize (findString_short hshort) hnowhere
    · by_cases hlong : needle.view.size + startPlace h start > h.view.size
      · refine counted_of_nowhere hneg (by omega) (findString_long hneg hlong) fun j hat => ?_
        have hin := hat.le
        omega
      by_cases hempty : h.view.size = 0
      · refine counted_of_nowhere hneg (by omega) ?_ fun j hat => ?_
        · rw [findString_reached hneg hreach (by omega), if_pos hempty]
        · have hin := hat.le
          omega
      rcases hcase with hlong' | hempty' | ⟨hone, hbefore⟩ | hbm
      · exact absurd hlong' hlong
      · exact absurd hempty' hempty
      · exact (counted_one_iff hneg hone hreach hempty).mpr hbefore
      · exact counted_table hneg hbm hreach (by omega)
  · have hplace : startPlace h start = (startPlace h start).toNat := by omega
    exact counted_of_place hplace

theorem Counted.countable (hunsplit : Unsplit m f cs needle.view)
    (hcounted : Counted b m f cs h needle start) : Countable b m f cs h needle start := by
  by_cases hneg : startPlace h start < 0
  · obtain ⟨r, hr, hsame⟩ := (counted_iff hneg).mp hcounted
    by_cases hshort : needle.view.size + startPlace h start < 0
    · -- the search is given up, so the reference finds nothing either
      rw [findString_short hshort, Option.some.injEq] at hr
      subst hr
      by_cases hsize : needle.view.size = 0
      · rw [findString_empty b m f cs (fromEnd_place hneg) hsize (Nat.zero_le _)] at hsame
        cases hsame
      · obtain ⟨r', hr', -, hfirst⟩ := findString_fromEnd (b := b) (m := m) (f := f) hneg hsize
        rw [hr', Option.some.injEq] at hsame
        subst hsame
        cases hfirst hunsplit with
        | none nowhere => exact .inr (.inl ⟨hshort, hsize, fun j => nowhere j (Nat.zero_le j)⟩)
    · refine .inr (.inr ⟨by omega, ?_⟩)
      by_cases hlong : needle.view.size + startPlace h start > h.view.size
      · exact .inl hlong
      by_cases hempty : h.view.size = 0
      · exact .inr (.inl hempty)
      by_cases hone : needle.view.size = 1
      · exact .inr (.inr (.inl ⟨hone,
          (counted_one_iff hneg hone (by omega) hempty).mp hcounted⟩))
      by_cases hbm : h.view.size > 500 ∧ needle.view.size > 5
      · exact .inr (.inr (.inr hbm))
      · rw [findString_reached hneg (by omega) (by omega), if_neg hempty, if_neg hone, if_neg hbm,
          findStringHash_neg hneg (by omega)] at hr
        cases hr
  · exact .inl (by omega)

end

/-- A start is counted from the end where it does not lie in front of the string or where the
strategy does not depend on it. -/
theorem indexOf_counted (b : Build) (m : Memory) (f : CaseFolding) (cs : CaseSensitivity)
    (h needle : Text) (start : Int32) :
    (Countable b m f cs h needle start → Counted b m f cs h needle start) ∧
      (Unsplit m f cs needle.view →
        (Counted b m f cs h needle start ↔ Countable b m f cs h needle start)) :=
  ⟨Countable.counted, fun hunsplit => ⟨Counted.countable hunsplit, Countable.counted⟩⟩

theorem indexOf_counted_abab :
    Counted sse2Build ababMemory latin1Folding .insensitive abab secondUnit (-2) :=
  (indexOf_counted sse2Build ababMemory latin1Folding .insensitive abab secondUnit (-2)).1
    (.inl (by decide))

/-- "ba" in "abab", from five units in front of its end: the unit in front of the string is read. -/
theorem read_in_front : ¬∀ (b : Build) (m : Memory) (f : CaseFolding) (cs : CaseSensitivity)
    (h needle : Text) (start : Int32), Counted b m f cs h needle start := by
  intro hall
  obtain ⟨r, hr⟩ := (hall sse2Build ababMemory latin1Folding .sensitive abab
    ⟨⟨some 1, 2, by simp⟩, by decide⟩ (-5)).reads
  revert hr
  have hnone : indexOf sse2Build ababMemory latin1Folding .sensitive abab
      ⟨⟨some 1, 2, by simp⟩, by decide⟩ (-5) = none := by
    decide
  rw [hnone]
  exact fun h => by cases h

end

/-!
## Counting in strings

Each search starts one unit behind what was found, so occurrences that overlap are counted, and an
empty needle is counted at each place and at the end (`stringCount_exact`).
-/

open Codecs.Character

/-- mirrors lang/StringMatcher.cpp:121-128 -/
def stringMatcher (m : Memory) (f : CaseFolding) (cs : CaseSensitivity) (needle : Text) :
    Option (StringMatcher m f) :=
  match h : bmInitSkiptable m f cs needle.view with
  | some skiptable => some ⟨needle, cs, skiptable, h⟩
  | none => none

/-- The searches end after at most some rounds.
mirrors lang/String.cpp:1919-1936 -/
def stringCount (b : Build) (m : Memory) (f : CaseFolding) (cs : CaseSensitivity) (rounds : Nat)
    (haystack needle : Text) : Option Nat :=
  if haystack.view.size > 500 ∧ needle.view.size > 5 then do
    let matcher ← stringMatcher m f cs needle
    countFrom (fun i => matcher.indexIn haystack (Int32.ofInt i)) rounds (-1)
  else countFrom (fun i => findString b m f cs haystack needle (Int32.ofInt i)) rounds (-1)

theorem stringMatcher_some (m : Memory) (f : CaseFolding) (cs : CaseSensitivity) (needle : Text) :
    ∃ matcher, stringMatcher m f cs needle = some matcher ∧ matcher.pattern = needle ∧
      matcher.cs = cs := by
  obtain ⟨skiptable, htable, -⟩ := bmInitSkiptable_spec m f cs needle.view
  refine ⟨⟨needle, cs, skiptable, htable⟩, ?_, rfl, rfl⟩
  unfold stringMatcher
  split
  · next skiptable' htable' =>
    rw [htable, Option.some.injEq] at htable'
    subst htable'
    rfl
  · next hnone =>
    rw [htable] at hnone
    cases hnone

theorem stringCount_exact (b : Build) (m : Memory) (f : CaseFolding) (haystack needle : Text) :
    stringCount b m f .sensitive (haystack.view.size + 2) haystack needle =
      some (occurrences (needle.view.read m.units) (haystack.view.read m.units)) := by
  have hh : (haystack.view.read m.units).length = haystack.view.size := View.length_read _ _
  have hn : (needle.view.read m.units).length = needle.view.size := View.length_read _ _
  have hfits := haystack.fits
  rw [stringCount, ← hh]
  by_cases hbm : (haystack.view.read m.units).length > 500 ∧ needle.view.size > 5
  · obtain ⟨matcher, hmatcher, rfl, hcs⟩ := stringMatcher_some m f .sensitive needle
    rw [if_pos hbm, hmatcher, Option.bind_eq_bind, Option.bind_some]
    refine countFrom_occurrences fun place hplace => ?_
    have hle : place ≤ haystack.view.size := by omega
    have hint : (Int32.ofInt place).toInt = place :=
      Int32.toInt_ofInt_of_le (by omega) (by omega)
    exact matcher.indexIn_first hcs hint hle
  · rw [if_neg hbm]
    exact countFrom_occurrences fun place hplace => findString_next b m f (by omega)

end Libpdk.Lang

import Libpdk.Lang.StringCompareFaithful
import Libpdk.Lang.StringSearch

/-!
# Searches find the first occurrence

With case all that the loops find are occurrences of the units of the needle, so the searches agree
whatever the strategy (`search_exact`).
-/
namespace Libpdk.Lang

section

open Codecs.Character Codecs.Utf8.Reading

section

variable {b : Build} {m : Memory} {f : CaseFolding} {cs : CaseSensitivity}

/-! ## Exactness -/

/-- The needle stands in the string. -/
def Occurs (m : Memory) (h needle : StringView) : Nat → Prop :=
  OccursAt (needle.read m.units) (h.read m.units)

instance (h needle : StringView) (i : Nat) : Decidable (Occurs m h needle i) :=
  inferInstanceAs (Decidable (OccursAt _ _ i))

theorem numbers_injective : Function.Injective numbers :=
  List.map_injective_iff.mpr fun _ _ h => UInt16.toNat_inj.mp h

theorem keysAt_sensitive {h needle : StringView} {i : Nat} :
    KeysAt m f .sensitive h needle i ↔ Occurs m h needle i := by
  rw [KeysAt, Occurs, occursAt_iff_take, occursAt_iff_take, stringKeys, stringKeys, numbers, numbers,
    ← List.map_drop, List.length_map, List.length_map, ← List.map_take]
  exact and_congr_right fun _ => numbers_injective.eq_iff

/-- With case the units are equal. -/
theorem compareStrings_zero {s t : StringView} :
    compareStrings b m f s t .sensitive = 0 ↔ s.read m.units = t.read m.units := by
  have hsign := unicodeStrcmp_sign b m s t
  constructor
  · intro hzero
    have heq : unicodeStrcmp b m s t = 0 := hzero
    rw [heq, Int.compare_eq_eq.mpr rfl, eq_comm, Std.LawfulEqOrd.compare_eq_iff_eq] at hsign
    exact numbers_injective hsign
  · intro heq
    rw [heq, compare_self, Int.compare_eq_eq] at hsign
    exact hsign

/-- The window of an occurrence is the needle. -/
theorem KeysAt.window {h needle : StringView} {i : Nat} (hat : KeysAt m f cs h needle i) :
    windowKeys m f cs h i needle.size = windowKeys m f cs needle 0 needle.size := by
  obtain ⟨-, htake⟩ := occursAt_iff_take.mp hat
  rw [length_stringKeys] at htake
  rw [windowKeys, windowKeys, htake, List.drop_zero,
    List.take_of_length_le (by rw [length_stringKeys])]

theorem hashAt_sensitive {h needle : StringView} {i : Nat} :
    HashAt b m f .sensitive h needle i ↔ Occurs m h needle i := by
  rw [HashAt, compareStrings_zero]
  constructor
  · rintro ⟨hin, -, hread⟩
    rw [read_window h hin] at hread
    rw [Occurs, occursAt_iff_take, View.length_read, View.length_read]
    exact ⟨by omega, hread.symm⟩
  · intro hat
    have hkeys := keysAt_sensitive (f := f).mpr hat
    refine ⟨hkeys.le, by rw [hkeys.window], ?_⟩
    obtain ⟨-, htake⟩ := occursAt_iff_take.mp hat
    rw [read_window h hkeys.le, ← View.length_read needle m.units, htake]

theorem charAt_occurs {h needle : StringView} {c : UInt16} (hsize : needle.size = 1)
    (hc : fetch m needle 0 = some c) {i : Nat} :
    CharAt m f .sensitive h c i ↔ Occurs m h needle i := by
  have hread : needle.read m.units = [c] := by
    obtain ⟨x, hx⟩ := List.length_eq_one_iff.mp ((needle.length_read m.units).trans hsize)
    have hzero : fetch m needle 0 = (needle.read m.units)[0]? := fetch_nat needle 0
    rw [hc, hx, List.getElem?_cons_zero, Option.some.injEq] at hzero
    rw [hx, hzero]
  rw [charAt_sensitive, Occurs, hread, occursAt_singleton]

/-! ## The strategies -/

/-- What the strategy takes for an occurrence. -/
def FoundAt (b : Build) (m : Memory) (f : CaseFolding) (cs : CaseSensitivity)
    (h needle : StringView) (i : Nat) : Prop :=
  if needle.size = 1 then
    ∃ c, fetch m needle 0 = some c ∧ CharAt m f cs h (charKey f cs c) i
  else if h.size > 500 ∧ needle.size > 5 then KeysAt m f cs h needle i
  else HashAt b m f cs h needle i

theorem FoundAt.le {h needle : StringView} {i : Nat} (hat : FoundAt b m f cs h needle i) :
    i + needle.size ≤ h.size := by
  rw [FoundAt] at hat
  by_cases hone : needle.size = 1
  · rw [if_pos hone] at hat
    obtain ⟨c, -, hchar⟩ := hat
    have hlt := hchar.lt
    omega
  rw [if_neg hone] at hat
  by_cases hbm : h.size > 500 ∧ needle.size > 5
  · rw [if_pos hbm] at hat
    exact hat.le
  · rw [if_neg hbm] at hat
    exact hat.1

theorem foundAt_sensitive {h needle : StringView} {i : Nat} :
    FoundAt b m f .sensitive h needle i ↔ Occurs m h needle i := by
  rw [FoundAt]
  by_cases hone : needle.size = 1
  · obtain ⟨c, hc⟩ : ∃ c, fetch m needle 0 = some c :=
      ⟨_, (fetch_nat needle 0).trans (View.getElem?_read _ _ (by omega))⟩
    rw [if_pos hone, ← charAt_occurs hone hc]
    constructor
    · rintro ⟨c', hc', hchar⟩
      rw [hc, Option.some.injEq] at hc'
      rwa [hc']
    · exact fun hchar => ⟨c, hc, hchar⟩
  rw [if_neg hone]
  by_cases hbm : h.size > 500 ∧ needle.size > 5
  · rw [if_pos hbm]
    exact keysAt_sensitive
  · rw [if_neg hbm]
    exact hashAt_sensitive

/-- The place from which the strategies search. -/
def startPlace (h : Text) (start : Int32) : Int :=
  if start.toInt < 0 then start.toInt + h.view.size else start.toInt

theorem startPlace_ofInt {h : Text} {i : Nat} (hi : i < 2 ^ 31) :
    startPlace h (Int32.ofInt i) = i := by
  have hint : (Int32.ofInt i).toInt = i := Int32.toInt_ofInt_of_le (by omega) (by omega)
  rw [startPlace, hint, if_neg (by omega)]

variable (b m f cs)

theorem findString_empty {h needle : Text} {start : Int32} {place : Nat}
    (hplace : startPlace h start = place) (hsize : needle.view.size = 0)
    (hle : place ≤ h.view.size) : findString b m f cs h needle start = some (place : Int) := by
  have hh := h.fits
  have hwrap : ((0 : Nat) + (place : Int)) % 2 ^ 32 = place := by
    rw [Int.natCast_zero, Int.zero_add]
    apply Int.emod_eq_of_lt <;> omega
  rw [startPlace] at hplace
  simp only [findString, hplace, hsize, hwrap]
  rw [if_neg (by omega), if_pos trivial]

/-- A needle is searched from a place that is not in front of the string. -/
theorem findString_found {h needle : Text} {start : Int32} {place : Nat}
    (hplace : startPlace h start = place) (hsize : 0 < needle.view.size) :
    ∃ r, findString b m f cs h needle start = some r ∧
      (r = -1 ∨ ∃ j : Nat, r = j ∧ place ≤ j ∧ FoundAt b m f cs h.view needle.view j) ∧
      (Unsplit m f cs needle.view → FirstFrom (FoundAt b m f cs h.view needle.view) place r) := by
  have hh := h.fits
  have hn := needle.fits
  have hint : (place : Int) < 2 ^ 31 := by
    have hlt := Int32.toInt_lt start
    rw [← hplace, startPlace]
    split <;> omega
  have hwrap : ((needle.view.size : Int) + place) % 2 ^ 32 = needle.view.size + place := by
    apply Int.emod_eq_of_lt <;> omega
  rw [startPlace] at hplace
  simp only [findString, hplace, hwrap]
  by_cases hlong : (needle.view.size : Int) + place > h.view.size
  · refine ⟨-1, if_pos hlong, .inl rfl, fun _ => .none fun j hj hat => ?_⟩
    have hin := hat.le
    omega
  rw [if_neg hlong, if_neg (by omega), if_neg (by omega)]
  by_cases hone : needle.view.size = 1
  · obtain ⟨c, hc⟩ : ∃ c, fetch m needle.view 0 = some c :=
      ⟨_, (fetch_nat needle.view 0).trans (View.getElem?_read _ _ hsize)⟩
    obtain ⟨r, hr, hfirst⟩ := findChar_nat m f cs b h.view c place
    have hfound : FirstFrom (FoundAt b m f cs h.view needle.view) place r := by
      apply hfirst.congr
      intro j _
      rw [FoundAt, if_pos hone, hc]
      simp
    exact ⟨r, by rw [if_pos hone, hc]; exact hr, hfound.sound, fun _ => hfound⟩
  rw [if_neg hone]
  by_cases hbm : h.view.size > 500 ∧ needle.view.size > 5
  · obtain ⟨skiptable, htable, hskip⟩ := bmInitSkiptable_spec m f cs needle.view
    obtain ⟨r, hr, hsound, hfirst⟩ := bmFind_first m f cs needle.view skiptable
      (show place ≤ h.view.size by omega)
    have hmax : (max (place : Int) 0).toNat = place := by omega
    have hkeys : FoundAt b m f cs h.view needle.view = KeysAt m f cs h.view needle.view := by
      funext j
      rw [FoundAt, if_neg hone, if_pos hbm]
    refine ⟨r, ?_, ?_, fun hunsplit => ?_⟩
    · rw [if_pos hbm, findStringBoyerMoore, htable, hmax]
      exact hr
    · rw [hkeys]
      exact hsound
    · rw [hkeys]
      exact hfirst (hskip hunsplit)
  · obtain ⟨r, hr, hfirst⟩ := findStringHash_first b m f cs hsize
      (show place + needle.view.size ≤ h.view.size by omega)
    have hfound : FirstFrom (FoundAt b m f cs h.view needle.view) place r := by
      apply hfirst.congr
      intro j _
      rw [FoundAt, if_neg hone, if_neg hbm]
    exact ⟨r, by rw [if_neg hbm]; exact hr, hfound.sound, fun _ => hfound⟩

/-- With case a string is searched from each of its places, and from its end. -/
theorem findString_first {h needle : Text} {start : Int32} {place : Nat}
    (hplace : startPlace h start = place) (hle : place ≤ h.view.size) :
    ∃ r, findString b m f .sensitive h needle start = some r ∧
      FirstFrom (Occurs m h.view needle.view) place r := by
  by_cases hempty : needle.view.size = 0
  · refine ⟨_, findString_empty b m f .sensitive hplace hempty hle, .here ?_⟩
    have hnil : needle.view.read m.units = [] :=
      List.length_eq_zero_iff.mp (by rw [View.length_read, hempty])
    rw [Occurs, hnil, occursAt_nil, View.length_read]
    exact hle
  · obtain ⟨r, hr, -, hfound⟩ := findString_found b m f .sensitive hplace
      (show 0 < needle.view.size by omega)
    exact ⟨r, hr, (hfound (unsplit_sensitive needle.view)).congr fun j _ => foundAt_sensitive⟩

variable {b m f cs}

theorem StringMatcher.indexIn_first (matcher : StringMatcher m f) (hcs : matcher.cs = .sensitive)
    {h : Text} {start : Int32} {place : Nat} (hstart : start.toInt = place)
    (hle : place ≤ h.view.size) :
    ∃ r, matcher.indexIn h start = some r ∧
      FirstFrom (Occurs m h.view matcher.pattern.view) place r := by
  obtain ⟨pattern, cs, skiptable, built⟩ := matcher
  subst hcs
  obtain ⟨table, htable, hskip⟩ :=
    bmInitSkiptable_spec m f .sensitive pattern.view
  have hsame : skiptable = table := Option.some.inj (built.symm.trans htable)
  obtain ⟨r, hr, -, hfirst⟩ := bmFind_first m f .sensitive pattern.view skiptable hle
  have hmax : (max start.toInt 0).toNat = place := by omega
  refine ⟨r, by rw [indexIn, hmax]; exact hr, ?_⟩
  rw [hsame] at hfirst
  exact (hfirst (hskip (unsplit_sensitive pattern.view))).congr fun j _ => keysAt_sensitive

end

/-- The searches with case find the first occurrence, whatever the strategy. -/
theorem search_exact (b : Build) (m : Memory) (f : CaseFolding) (h needle : Text) (start : Int32)
    (hstart : 0 ≤ start.toInt) (hle : start.toInt ≤ h.view.size) :
    ∃ r, FirstFrom (Occurs m h.view needle.view) start.toInt.toNat r ∧
      indexOf b m f .sensitive h needle start = some r ∧
      ∀ matcher : StringMatcher m f, matcher.pattern = needle → matcher.cs = .sensitive →
        matcher.indexIn h start = some r := by
  have hnat : start.toInt = start.toInt.toNat := (Int.toNat_of_nonneg hstart).symm
  have hplace : startPlace h start = start.toInt.toNat := (if_neg (by omega)).trans hnat
  obtain ⟨r, hr, hfirst⟩ : ∃ r, indexOf b m f .sensitive h needle start = some r ∧
      FirstFrom (Occurs m h.view needle.view) start.toInt.toNat r :=
    findString_first b m f hplace (by omega)
  refine ⟨r, hfirst, hr, ?_⟩
  rintro matcher rfl hcs
  obtain ⟨r', hr', hfirst'⟩ := matcher.indexIn_first (h := h) hcs hnat (by omega)
  rw [hr', hfirst'.unique hfirst]

/-- "abab" -/
def ababMemory : Memory := ⟨fun i => if i % 2 = 0 then 0x61 else 0x62, fun _ => 0⟩

def abab : Text := ⟨⟨some 0, 4, (nomatch ·)⟩, by decide⟩

/-- "b", a part of it -/
def secondUnit : Text := ⟨⟨some 1, 1, (nomatch ·)⟩, by decide⟩

theorem search_exact_abab : ∃ r,
    FirstFrom (Occurs ababMemory abab.view secondUnit.view) 2 r ∧
    indexOf sse2Build ababMemory latin1Folding .sensitive abab secondUnit 2 = some r ∧
    ∀ matcher : StringMatcher ababMemory latin1Folding, matcher.pattern = secondUnit →
      matcher.cs = .sensitive → matcher.indexIn abab 2 = some r :=
  search_exact sse2Build ababMemory latin1Folding abab secondUnit 2 (by decide) (by decide)

end

/-!
## Searching backwards

`lastIndexOf` slides a window towards the first unit; its hash is built from the last unit down,
so it is the hash of the reversed window. From a start in the string it finds the last occurrence
up to there; a start at the length or behind it is refused, with the exception of an empty needle
at the length (`lastIndexOf_last`).
-/

open Codecs.Character

section

variable (b : Build) (m : Memory) (f : CaseFolding) (cs : CaseSensitivity)

/-- mirrors lang/String.cpp:1899-1911 -/
def lastCharLoop (s : StringView) (c : UInt16) : Nat → Option Int
  | 0 => some (-1)
  | n + 1 => do
    let u ← fetch m s n
    if charKey f cs u = c then some n else lastCharLoop s c n

/-- mirrors lang/String.cpp:1886-1915 -/
def lastIndexOfChar (haystack : Text) (needle : UInt16) (start : Int32) : Option Int :=
  let start := startPlace haystack start
  if start % 2 ^ 32 ≥ haystack.view.size then some (-1)
  else if start ≥ 0 then lastCharLoop m f cs haystack.view (charKey f cs needle) (start.toNat + 1)
  else some (-1)

/-- The hash of `count` units from `i` on, the last of them first.
mirrors lang/String.cpp:1796-1799 and 1811-1814 -/
def hashBack (s : StringView) (i : Int) : Nat → BitVec 32 → Option (BitVec 32)
  | 0, hash => some hash
  | count + 1, hash => do
    let key ← unitKey m f cs s 0 (i + count)
    hashBack s i count ((hash <<< 1) + BitVec.ofNat 32 key)

/-- Without case the arguments are the other way round. -/
def sameBack (h needle : StringView) (hashNeedle hashHaystack : BitVec 32) (i : Int) :
    Option Bool :=
  if hashHaystack = hashNeedle then
    (window h i needle.size).map fun w =>
      match cs with
      | .sensitive => compareStrings b m f needle w cs == 0
      | .insensitive => compareStrings b m f w needle cs == 0
  else some false

/-- `uint(sl - 1)` -/
def slminus1 (sl : Nat) : Nat := (sl + (2 ^ 32 - 1)) % 2 ^ 32

/-- mirrors lang/String.cpp:1801-1809 and 1817-1825 -/
def hashBackLoop (h needle : StringView) (hashNeedle : BitVec 32) :
    Nat → BitVec 32 → Option Int
  | 0, _ => some (-1)
  | i + 1, hashHaystack => do
    let first ← unitKey m f cs h 0 i
    let hashHaystack := hashHaystack + BitVec.ofNat 32 first
    let same ← sameBack b m f cs h needle hashNeedle hashHaystack i
    if same then some i
    else do
      let last ← unitKey m f cs h 0 ((i : Int) - 1 + needle.size)
      hashBackLoop h needle hashNeedle i (rehash (slminus1 needle.size) hashHaystack last)

/-- mirrors lang/String.cpp:1779-1828 -/
def lastIndexOfHelper (h needle : StringView) (start : Int) : Option Int := do
  let hashNeedle ← hashBack m f cs needle 0 needle.size 0
  let hashHaystack ← hashBack m f cs h start needle.size 0
  let first ← unitKey m f cs h 0 start
  hashBackLoop b m f cs h needle hashNeedle (start + 1).toNat
    (hashHaystack - BitVec.ofNat 32 first)

/-- mirrors lang/String.cpp:4297-4320 -/
def lastIndexOf (h needle : Text) (start : Int32) : Option Int :=
  let sl := needle.view.size
  if sl = 1 then do
    let c ← fetch m needle.view 0
    lastIndexOfChar m f cs h c start
  else
    let l := h.view.size
    let start := startPlace h start
    let delta : Int := l - sl
    if start = l ∧ sl = 0 then some start
    else if start % 2 ^ 32 ≥ l ∨ delta < 0 then some (-1)
    else lastIndexOfHelper b m f cs h.view needle.view (if start > delta then delta else start)

end

section

variable {b : Build} {m : Memory} {f : CaseFolding} {cs : CaseSensitivity}

/-! ## One unit -/

variable (m f cs) in
theorem lastCharLoop_last (s : StringView) (c : UInt16) : ∀ n : Nat, n ≤ s.size →
    ∃ r, lastCharLoop m f cs s c n = some r ∧ LastUpTo (CharAt m f cs s c) ((n : Int) - 1) r
  | 0, _ => ⟨-1, rfl, .none fun j hj => by omega⟩
  | n + 1, hn => by
    have hu := View.getElem?_read s m.units (i := n) (by omega)
    have hlast : ((n + 1 : Nat) : Int) - 1 = n := by omega
    rw [lastCharLoop, fetch_nat, hu, hlast]
    by_cases hc : charKey f cs (m.units (s.begin.getD 0 + n)) = c
    · refine ⟨n, by simp [hc], .here ?_⟩
      rw [CharAt, hu, Option.map_some, hc]
    · obtain ⟨r, hr, hfirst⟩ := lastCharLoop_last s c n (by omega)
      refine ⟨r, by simpa [hc] using hr, hfirst.skip (by omega) fun j hle hlt => ?_⟩
      obtain rfl : j = n := by omega
      rw [CharAt, hu, Option.map_some, Option.some.injEq]
      exact hc

/-! ## The hash of the reversed window -/

variable (m f cs) in
theorem hashBack_words (s : StringView) (i : Int) : ∀ (count : Nat) (hash : BitVec 32),
    hashBack m f cs s i count hash = RollingHash.hashBack (stringWords m f cs s) i count hash
  | 0, _ => rfl
  | count + 1, hash => by
    rw [hashBack, RollingHash.hashBack, elementAt_stringWords]
    cases unitKey m f cs s 0 (i + count) with
    | none => rfl
    | some key => exact hashBack_words s i count _

variable (m f cs) in
/-- Reversed, a window that moves towards the first unit gets it as its last element. -/
theorem hashBack_eq (s : StringView) (i count : Nat) (hash : BitVec 32) (h : i + count ≤ s.size) :
    hashBack m f cs s i count hash =
      some ((windowKeys m f cs s i count).reverse.foldl RollingHash.push hash) := by
  rw [hashBack_words, RollingHash.hashBack_eq _ i count hash (by rwa [length_stringWords]),
    window_stringWords]

/-- The hash that is built backwards. -/
def backHash (m : Memory) (f : CaseFolding) (cs : CaseSensitivity) (s : StringView)
    (i size : Nat) : BitVec 32 :=
  RollingHash.hash (windowKeys m f cs s i size).reverse

theorem KeysAt.backHash {h needle : StringView} {i : Nat} (hat : KeysAt m f cs h needle i) :
    backHash m f cs h i needle.size = Lang.backHash m f cs needle 0 needle.size := by
  rw [Lang.backHash, Lang.backHash, hat.window]

theorem sameBack_eq {h needle : StringView} {i : Nat} (hi : i + needle.size ≤ h.size) :
    ∃ same, sameBack b m f .sensitive h needle (backHash m f .sensitive needle 0 needle.size)
        (backHash m f .sensitive h i needle.size) i = some same ∧
      (same = true ↔ Occurs m h needle i) := by
  rw [sameBack]
  by_cases hhash : backHash m f .sensitive h i needle.size =
      backHash m f .sensitive needle 0 needle.size
  · rw [if_pos hhash, window_nat hi]
    refine ⟨_, rfl, ?_⟩
    rw [beq_iff_eq, compareStrings_zero, read_window h hi, Occurs, occursAt_iff_take,
      View.length_read, View.length_read]
    exact ⟨fun heq => ⟨by omega, heq.symm⟩, fun hat => hat.2.symm⟩
  · rw [if_neg hhash]
    exact ⟨false, rfl, Bool.noConfusion,
      fun hat => absurd (KeysAt.backHash (keysAt_sensitive.mpr hat)) hhash⟩

theorem hashBackLoop_slideBack {h needle : StringView} {hashNeedle : BitVec 32} :
    ∀ (n : Nat) (hash : BitVec 32), hashBackLoop b m f cs h needle hashNeedle n hash =
      RollingHash.slideBack (stringWords m f cs h) needle.size (slminus1 needle.size)
        (sameBack b m f cs h needle hashNeedle) n hash
  | 0, _ => rfl
  | i + 1, hash => by
    rw [hashBackLoop, RollingHash.slideBack, elementAt_stringWords, elementAt_stringWords]
    cases unitKey m f cs h 0 i with
    | none => rfl
    | some first =>
      show (sameBack b m f cs h needle hashNeedle (hash + BitVec.ofNat 32 first) i).bind _ =
        (sameBack b m f cs h needle hashNeedle (hash + BitVec.ofNat 32 first) i).bind _
      congr 1
      funext same
      cases same with
      | true => rfl
      | false =>
        cases unitKey m f cs h 0 ((i : Int) - 1 + needle.size) with
        | none => rfl
        | some last => exact hashBackLoop_slideBack i _

/-- In front of each round the hash lacks the first unit of the window. -/
theorem hashBackLoop_last {h needle : StringView} (hfits : needle.size < 2 ^ 31) (n : Nat)
    (hash : BitVec 32)
    (hinv : ∀ i, n = i + 1 → i + needle.size ≤ h.size ∧ ∃ first,
      (stringKeys m f.foldCase32 .sensitive h)[i]? = some first ∧
      hash + BitVec.ofNat 32 first = backHash m f .sensitive h i needle.size) :
    ∃ r, hashBackLoop b m f .sensitive h needle (backHash m f .sensitive needle 0 needle.size)
        n hash = some r ∧ LastUpTo (Occurs m h needle) ((n : Int) - 1) r := by
  rw [hashBackLoop_slideBack]
  apply RollingHash.slideBack_last
  · intro size hsize
    rw [slminus1]
    omega
  · intro hzero i hi
    have hnil : needle.read m.units = [] :=
      List.length_eq_zero_iff.mp (by rw [View.length_read, hzero])
    rw [length_stringWords] at hi
    rw [Occurs, hnil, occursAt_nil, View.length_read]
    exact hi
  · intro i hi
    rw [length_stringWords] at hi
    rw [window_stringWords]
    exact sameBack_eq hi
  · intro i hi
    obtain ⟨hin, first, hfirst, hhash⟩ := hinv i hi
    rw [length_stringWords, window_stringWords, stringWords, List.getElem?_map, hfirst]
    exact ⟨hin, _, rfl, hhash⟩

theorem lastIndexOfHelper_last {h needle : StringView} (hfits : needle.size < 2 ^ 31) (start : Nat)
    (hlt : start < h.size) (hin : start + needle.size ≤ h.size) :
    ∃ r, lastIndexOfHelper b m f .sensitive h needle start = some r ∧
      LastUpTo (Occurs m h needle) start r := by
  obtain ⟨first, hfirst⟩ := stringKeys_getElem? m f .sensitive (s := h) (i := start) hlt
  have hneedle : hashBack m f .sensitive needle 0 needle.size 0 =
      some (backHash m f .sensitive needle 0 needle.size) :=
    hashBack_eq m f .sensitive needle 0 needle.size 0 (by omega)
  have hhay : hashBack m f .sensitive h start needle.size 0 =
      some (backHash m f .sensitive h start needle.size) :=
    hashBack_eq m f .sensitive h start needle.size 0 hin
  have hcount : ((start : Int) + 1).toNat = start + 1 := by omega
  obtain ⟨r, hr, hlast⟩ := hashBackLoop_last (b := b) (m := m) (f := f) (h := h) hfits (start + 1)
    (backHash m f .sensitive h start needle.size - BitVec.ofNat 32 first) (by
      rintro i hi
      obtain rfl : start = i := by omega
      exact ⟨hin, first, hfirst, BitVec.sub_add_cancel _ _⟩)
  have hplace : ((start + 1 : Nat) : Int) - 1 = start := by omega
  rw [hplace] at hlast
  refine ⟨r, ?_, hlast⟩
  rw [lastIndexOfHelper, hneedle, hhay, unitKey_nat, hfirst, hcount]
  exact hr

end

/-! ## The last occurrence -/

theorem startPlace_bounds (h : Text) (start : Int32) :
    -2 ^ 31 ≤ startPlace h start ∧ startPlace h start < 2 ^ 31 := by
  have hlow := Int32.le_toInt start
  have hlt := Int32.toInt_lt start
  have hfits := h.fits
  rw [startPlace]
  constructor <;> split <;> omega

section

variable {b : Build} {m : Memory} {f : CaseFolding}

theorem lastIndexOfChar_last (h : Text) (needle : UInt16) (start : Int32) :
    ∃ r, lastIndexOfChar m f .sensitive h needle start = some r ∧
      (startPlace h start < h.view.size →
        LastUpTo (CharAt m f .sensitive h.view needle) (startPlace h start) r) ∧
      (h.view.size ≤ startPlace h start → r = -1) := by
  obtain ⟨hlow, hhigh⟩ := startPlace_bounds h start
  have hfits := h.fits
  obtain ⟨place, hplace⟩ : ∃ place, place = startPlace h start := ⟨_, rfl⟩
  simp only [lastIndexOfChar, ← hplace] at hlow hhigh ⊢
  by_cases hbehind : h.view.size ≤ place
  · refine ⟨-1, if_pos (by omega), fun hlt => by omega, fun _ => rfl⟩
  by_cases hneg : place < 0
  · exact ⟨-1, if_pos (by omega), fun _ => .none fun j hj => by omega, fun _ => rfl⟩
  · obtain ⟨r, hr, hlast⟩ := lastCharLoop_last m f .sensitive h.view needle (place.toNat + 1)
      (by omega)
    have hend : ((place.toNat + 1 : Nat) : Int) - 1 = place := by omega
    rw [hend] at hlast
    refine ⟨r, ?_, fun _ => hlast, fun hle => absurd hle hbehind⟩
    rw [if_neg (by omega), if_pos (by omega)]
    exact hr

/-- A search backwards from a place in the string finds the last occurrence up to there; from the
length on it finds nothing, but for an empty needle at the length. -/
theorem lastIndexOf_last (b : Build) (m : Memory) (f : CaseFolding) (h needle : Text)
    (start : Int32) :
    ∃ r, lastIndexOf b m f .sensitive h needle start = some r ∧
      if startPlace h start < h.view.size ∨
          (startPlace h start = h.view.size ∧ needle.view.size = 0) then
        LastUpTo (Occurs m h.view needle.view) (startPlace h start) r
      else r = -1 := by
  obtain ⟨hlow, hhigh⟩ := startPlace_bounds h start
  have hh := h.fits
  have hn := needle.fits
  by_cases hone : needle.view.size = 1
  · obtain ⟨c, hc⟩ : ∃ c, fetch m needle.view 0 = some c :=
      ⟨_, (fetch_nat needle.view 0).trans (View.getElem?_read _ _ (by omega))⟩
    obtain ⟨r, hr, hlast, hbehind⟩ := lastIndexOfChar_last (m := m) (f := f) h c start
    refine ⟨r, ?_, ?_⟩
    · simp only [lastIndexOf, if_pos hone, hc]
      exact hr
    by_cases hlt : startPlace h start < h.view.size
    · rw [if_pos (.inl hlt)]
      exact (hlast hlt).congr fun j => charAt_occurs hone hc
    · rw [if_neg (by omega)]
      exact hbehind (by omega)
  obtain ⟨place, hplace⟩ : ∃ place, place = startPlace h start := ⟨_, rfl⟩
  simp only [lastIndexOf, if_neg hone, ← hplace] at hlow hhigh ⊢
  by_cases hempty : place = h.view.size ∧ needle.view.size = 0
  · refine ⟨place, if_pos hempty, ?_⟩
    rw [if_pos (.inr hempty), hempty.1]
    refine .here ?_
    have hnil : needle.view.read m.units = [] :=
      List.length_eq_zero_iff.mp (by rw [View.length_read, hempty.2])
    rw [Occurs, hnil, occursAt_nil, View.length_read]
  rw [if_neg hempty]
  have hle {j : Nat} (hat : Occurs m h.view needle.view j) :
      j + needle.view.size ≤ h.view.size := by
    have hin := hat.le
    rwa [View.length_read, View.length_read] at hin
  by_cases hrefused : place % 2 ^ 32 ≥ h.view.size ∨ (h.view.size : Int) - needle.view.size < 0
  · refine ⟨-1, if_pos hrefused, ?_⟩
    by_cases hlt : place < h.view.size
    · rw [if_pos (.inl hlt)]
      refine .none fun j hj hat => ?_
      have hin := hle hat
      omega
    · rw [if_neg (by omega)]
  · -- the window at the start does not reach behind the string
    obtain ⟨start', hstart'⟩ : ∃ start' : Nat,
        (if place > (h.view.size : Int) - needle.view.size
          then (h.view.size : Int) - needle.view.size else place) = start' :=
      Int.eq_ofNat_of_zero_le (by split <;> omega)
    have hbound : (start' : Int) ≤ place ∧ start' + needle.view.size ≤ h.view.size ∧
        (start' : Int) < h.view.size ∧
        (start' < place → h.view.size ≤ start' + needle.view.size) := by
      rw [← hstart']
      split <;> omega
    obtain ⟨r, hr, hlast⟩ := lastIndexOfHelper_last (b := b) (m := m) (f := f) (h := h.view) hn
      start' (by omega) (by omega)
    refine ⟨r, ?_, ?_⟩
    · rw [if_neg hrefused, hstart']
      exact hr
    · rw [if_pos (.inl (by omega))]
      refine hlast.skip hbound.1 fun j hj hj' hat => ?_
      have hin := hle hat
      omega

/-- "b" in "abab" from the length on -/
theorem last_unit_missed :
    ¬∀ (b : Build) (m : Memory) (f : CaseFolding) (h needle : Text) (start : Int32),
      ∃ r, lastIndexOf b m f .sensitive h needle start = some r ∧
        LastUpTo (Occurs m h.view needle.view) (startPlace h start) r := by
  intro hall
  obtain ⟨r, hr, hlast⟩ := hall sse2Build ababMemory latin1Folding abab secondUnit 4
  have hrun : lastIndexOf sse2Build ababMemory latin1Folding .sensitive abab secondUnit 4 =
      some (-1) := by
    decide
  rw [hrun, Option.some.injEq] at hr
  subst hr
  cases hlast with
  | none nowhere => exact nowhere 3 (by decide) (by decide)

end

end Libpdk.Lang

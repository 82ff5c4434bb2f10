import Libpdk.Core.BoyerMoore
import Libpdk.Core.RollingHash
import Libpdk.Core.Mem

/-!
# Searching byte arrays

Each overload of `indexOf` and `lastIndexOf` counts a negative start in a way of its own and has
its own tests in front of the search. A byte is read through `elementAt`, which fails outside of
what is searched or searched for: a search that returns something has read nothing else.
-/
namespace Libpdk.Ds.ByteArray

/-- mirrors ds/ByteArrayMatcher.cpp:24-32 -/
def bmInitSkiptable (cc : Bytes) : UInt8 → Nat :=
  let l := min cc.length 255
  ((cc.drop (cc.length - l)).zipIdx).foldl
    (fun skiptable (c, i) => Function.update skiptable c (l - 1 - i)) (fun _ => l)

end Libpdk.Ds.ByteArray

namespace Libpdk.Ds.ByteArraySearch

section

open Libpdk.Ds.ByteArray (bmInitSkiptable)

/-- The bytes of an array, which an `int` counts. -/
abbrev Chars := { bytes : Bytes // bytes.length < 2 ^ 31 }

namespace Chars

def size (h : Chars) : Nat := h.val.length

end Chars

/-- What a `const char *` leads to, up to the NUL. -/
structure CString where
  chars : Chars
  free : 0 ∉ chars.val

/-- mirrors kernel/StringUtils.h:35-38 -/
def strlen (str : CString) : Nat := (str.chars.val ++ [0]).idxOf 0

/-! ## One byte -/

def findCharLoop (h : Bytes) (c : UInt8) : Nat → Nat → Option Int
  | 0, _ => some (-1)
  | count + 1, n => do
    let x ← elementAt h n
    if x = c then some n else findCharLoop h c count (n + 1)

/-- mirrors ds/ByteArrayMatcher.cpp:144-161 and
ds/ByteArray.cpp:647-663 -/
def findChar (h : Chars) (c : UInt8) (start : Int) : Option Int :=
  let start := if start < 0 then max (start + h.size) 0 else start
  if start < h.size then findCharLoop h.val c (h.size - start.toNat) start.toNat else some (-1)

/-! ## Boyer-Moore -/

/-- mirrors ds/ByteArrayMatcher.cpp:34-71 -/
def bmFind (cc : Bytes) (index : Nat) (puc : Bytes) (skiptable : UInt8 → Nat) : Option Int :=
  BoyerMoore.search id cc puc skiptable index

/-- mirrors ds/ByteArrayMatcher.cpp:163-174 -/
def findBoyerMoore (h : Chars) (haystackOffset : Int) (needle : Chars) : Option Int :=
  bmFind h.val (max haystackOffset 0).toNat needle.val (bmInitSkiptable needle.val)

/-- `ByteArrayMatcher`
mirrors ds/ByteArrayMatcher.cpp:84-91 and 126-142 -/
def indexIn (pattern h : Chars) (start : Int32) : Option Int :=
  bmFind h.val (max start.toInt 0).toNat pattern.val (bmInitSkiptable pattern.val)

/-! ## A hash -/

/-- A `char` is signed. -/
def charWord (c : UInt8) : BitVec 32 := c.toBitVec.signExtend 32

def words (h : Bytes) : List (BitVec 32) := h.map charWord

/-- `memcmp(needle, haystack, sl) == 0` -/
def sameBytes (h needle : Bytes) (i : Int) : Option Bool :=
  if 0 ≤ i ∧ i + needle.length ≤ h.length then
    some ((h.drop i.toNat).take needle.length == needle)
  else none

/-- mirrors ds/ByteArrayMatcher.cpp:226-227 -/
def sameWindow (h needle : Bytes) (hashNeedle hashHaystack : BitVec 32) (i : Int) :
    Option Bool :=
  if hashHaystack = hashNeedle then do
    let x ← elementAt needle 0
    let y ← elementAt h i
    if x = y then sameBytes h needle i else some false
  else some false

/-- mirrors ds/ByteArrayMatcher.cpp:211-236 -/
def findHash (h needle : Bytes) (start : Int) : Option Int := do
  let hashNeedle ← RollingHash.hashFrom (words needle) needle.length 0 0
  let hashHaystack ← RollingHash.hashFrom (words h) needle.length start 0
  let last ← elementAt (words h) (start + (needle.length - 1))
  RollingHash.slide (words h) needle.length (sameWindow h needle hashNeedle)
    ((h.length : Int) - needle.length - start + 1).toNat start (hashHaystack - last)

/-! ## From the front -/

/-- The sum wraps.
mirrors ds/ByteArrayMatcher.cpp:184-237 -/
def findByteArray (h needle : Chars) (start : Int) : Option Int :=
  let l := h.size
  let sl := needle.size
  let start := if start < 0 then start + l else start
  if (sl + start) % 2 ^ 32 > l then some (-1)
  else if sl = 0 then some start
  else if l = 0 then some (-1)
  else if sl = 1 then do
    let c ← elementAt needle.val 0
    findChar h c start
  else if l > 500 ∧ sl > 5 then findBoyerMoore h start needle
  else findHash h.val needle.val start

/-- mirrors ds/ByteArray.cpp:647-663 -/
def indexOfChar (h : Chars) (needle : UInt8) (start : Int32) : Option Int :=
  findChar h needle start.toInt

/-- mirrors ds/ByteArray.cpp:613-628 -/
def indexOf (h needle : Chars) (start : Int32) : Option Int :=
  let searchedLength := needle.size
  if searchedLength = 0 then some start.toInt
  else if searchedLength = 1 then do
    let c ← elementAt needle.val 0
    indexOfChar h c start
  else if start.toInt > h.size ∨ searchedLength + start.toInt > h.size then some (-1)
  else findByteArray h needle start.toInt

/-- mirrors ds/ByteArray.cpp:630-645 -/
def indexOfText (h : Chars) (needle : CString) (start : Int32) : Option Int :=
  let searchedLength := strlen needle
  if searchedLength = 1 then do
    let c ← elementAt needle.chars.val 0
    indexOfChar h c start
  else if start.toInt > h.size ∨ searchedLength + start.toInt > h.size then some (-1)
  else if searchedLength = 0 then some start.toInt
  else findByteArray h needle.chars start.toInt

/-! ## From the back -/

/-- `uint(needleLength - 1)` -/
def minusOne (needleLength : Nat) : Nat := (needleLength + (2 ^ 32 - 1)) % 2 ^ 32

/-- mirrors ds/ByteArray.cpp:446-448 -/
def sameBack (h needle : Bytes) (hashNeedle hashHaystack : BitVec 32) (i : Int) : Option Bool :=
  if hashHaystack = hashNeedle then sameBytes h needle i else some false

/-- mirrors ds/ByteArray.cpp:430-453 -/
def lastWindow (h needle : Bytes) (start : Int) : Option Int := do
  let hashNeedle ← RollingHash.hashBack (words needle) 0 needle.length 0
  let hashHaystack ← RollingHash.hashBack (words h) start needle.length 0
  let first ← elementAt (words h) start
  RollingHash.slideBack (words h) needle.length (minusOne needle.length)
    (sameBack h needle hashNeedle) (start + 1).toNat (hashHaystack - first)

/-- mirrors ds/ByteArray.cpp:418-453 -/
def lastIndexOfHelper (h needle : Chars) (start : Int) : Option Int :=
  let delta : Int := (h.size : Int) - needle.size
  let start := if start < 0 then delta else start
  if start < 0 ∨ start > h.size then some (-1)
  else lastWindow h.val needle.val (if start > delta then delta else start)

def lastCharLoop (h : Bytes) (c : UInt8) : Nat → Option Int
  | 0 => some (-1)
  | n + 1 => do
    let x ← elementAt h n
    if x = c then some n else lastCharLoop h c n

/-- mirrors ds/ByteArray.cpp:684-702 -/
def lastIndexOfChar (h : Chars) (needle : UInt8) (start : Int32) : Option Int :=
  let start := if start.toInt < 0 then start.toInt + h.size
    else if start.toInt > h.size then (h.size : Int) - 1 else start.toInt
  if start ≥ 0 then lastCharLoop h.val needle (start.toNat + 1) else some (-1)

/-- mirrors ds/ByteArray.cpp:665-673 -/
def lastIndexOf (h needle : Chars) (start : Int32) : Option Int :=
  if needle.size = 1 then do
    let c ← elementAt needle.val 0
    lastIndexOfChar h c start
  else lastIndexOfHelper h needle start.toInt

/-- mirrors ds/ByteArray.cpp:675-683 -/
def lastIndexOfText (h : Chars) (needle : CString) (start : Int32) : Option Int :=
  if strlen needle = 1 then do
    let c ← elementAt needle.chars.val 0
    lastIndexOfChar h c start
  else lastIndexOfHelper h needle.chars start.toInt

/-! ## Counting -/

/-- The searches end after at most some rounds.
mirrors ds/ByteArray.cpp:704-719 -/
def count (rounds : Nat) (h array : Chars) : Option Nat :=
  if h.size > 500 ∧ array.size > 5 then
    countFrom (fun pos => indexIn array h (Int32.ofInt pos)) rounds (-1)
  else countFrom (fun pos => indexOf h array (Int32.ofInt pos)) rounds (-1)

end

/-!
## Byte searches find the first occurrence

The table of the matcher is one of the distances of the pattern, and the words of the bytes are
hashed by the same function wherever they are hashed; so every strategy finds what the others do
(`byteSearch_exact`).
-/

open Libpdk.Ds.ByteArray (bmInitSkiptable)

variable {h needle : Bytes}

/-! ## One byte -/

theorem findCharLoop_first (c : UInt8) : ∀ (count n : Nat), n + count = h.length →
    ∃ r, findCharLoop h c count n = some r ∧ FirstFrom (OccursAt [c] h) n r
  | 0, n, hn => ⟨-1, rfl, .none fun j hj hat => by
      have hle := hat.le
      rw [List.length_singleton] at hle
      omega⟩
  | count + 1, n, hn => by
    obtain ⟨x, hx⟩ := getElem?_isSome (s := h) (i := n) (by omega)
    rw [findCharLoop, elementAt_nat, hx, Option.bind_eq_bind, Option.bind_some]
    by_cases hc : x = c
    · exact ⟨n, if_pos hc, .here (occursAt_singleton.mpr (by rw [hx, hc]))⟩
    · obtain ⟨r, hr, hfirst⟩ := findCharLoop_first c count (n + 1) (by omega)
      refine ⟨r, (if_neg hc).trans hr, hfirst.skip (by omega) fun j hj hj' hat => ?_⟩
      obtain rfl : j = n := by omega
      rw [occursAt_singleton, hx, Option.some.injEq] at hat
      exact hc hat

/-- A start in front of the first byte is moved to it. -/
theorem findChar_first (h : Chars) (c : UInt8) (start : Int) :
    ∃ r, findChar h c start = some r ∧
      FirstFrom (OccursAt [c] h.val) (if start < 0 then start + h.size else start).toNat r := by
  obtain ⟨place, hplace⟩ : ∃ place : Nat,
      (if start < 0 then max (start + h.size) 0 else start) = place :=
    Int.eq_ofNat_of_zero_le (by split <;> omega)
  have hnat : (if start < 0 then start + (h.size : Int) else start).toNat = place := by
    split at hplace <;> split <;> omega
  simp only [findChar, hplace, hnat, Int.toNat_natCast]
  by_cases hlt : place < h.size
  · rw [if_pos (by omega)]
    exact findCharLoop_first c (h.size - place) place (by rw [Chars.size] at hlt ⊢; omega)
  · refine ⟨-1, if_neg (by omega), .none fun j hj hat => ?_⟩
    have hle := hat.le
    rw [List.length_singleton, ← Chars.size] at hle
    omega

/-! ## Boyer-Moore -/

theorem foldl_zipIdx_distances {l : Nat} : ∀ (xs : Bytes) (k : Nat) (table : UInt8 → Nat),
    k + xs.length = l →
    (xs.zipIdx k).foldl (fun skiptable (c, i) => Function.update skiptable c (l - 1 - i)) table =
      BoyerMoore.distances id xs table
  | [], _, _, _ => rfl
  | x :: xs, k, table, hl => by
    have hdistance : l - 1 - k = xs.length := by
      rw [List.length_cons] at hl
      omega
    rw [List.zipIdx_cons, List.foldl_cons, BoyerMoore.distances,
      foldl_zipIdx_distances xs (k + 1) _ (by rw [List.length_cons] at hl; omega)]
    simp only [hdistance, id]

theorem skips_bmInitSkiptable (cc : Bytes) : BoyerMoore.Skips id cc (bmInitSkiptable cc) := by
  have hl : min cc.length 255 ≤ cc.length := Nat.min_le_left _ _
  have htable := BoyerMoore.skips_of_last id hl
  have hlen : 0 + (cc.drop (cc.length - min cc.length 255)).length = min cc.length 255 := by
    rw [List.length_drop]
    omega
  rw [← foldl_zipIdx_distances _ 0 _ hlen] at htable
  exact htable

theorem bmFind_first (puc : Bytes) {cc : Bytes} {index : Nat} (hindex : index ≤ cc.length) :
    ∃ r, bmFind cc index puc (bmInitSkiptable puc) = some r ∧
      FirstFrom (OccursAt puc cc) index r := by
  obtain ⟨r, hr, -, hfirst⟩ := BoyerMoore.search_first id cc puc (bmInitSkiptable puc) hindex
  exact ⟨r, hr, hfirst (skips_bmInitSkiptable puc)⟩

/-! ## A hash -/

@[simp] theorem length_words (h : Bytes) : (words h).length = h.length := by
  rw [words, List.length_map]

theorem window_words (h : Bytes) (i size : Nat) :
    RollingHash.window (words h) i size = words ((h.drop i).take size) := by
  rw [RollingHash.window, words, words, List.map_take, List.map_drop]

theorem sameBytes_eq {i : Nat} (hi : i + needle.length ≤ h.length) :
    ∃ same, sameBytes h needle i = some same ∧ (same = true ↔ OccursAt needle h i) := by
  refine ⟨_, if_pos ⟨by omega, by omega⟩, ?_⟩
  rw [beq_iff_eq, Int.toNat_natCast, occursAt_iff_take]
  exact ⟨fun htake => ⟨by omega, htake⟩, fun hat => hat.2⟩

theorem hash_of_occursAt {i : Nat} (hat : OccursAt needle h i) :
    RollingHash.window (words h) i needle.length = words needle := by
  rw [window_words, (occursAt_iff_take.mp hat).2]

theorem sameWindow_eq {i : Nat} (hpos : 0 < needle.length) (hi : i + needle.length ≤ h.length) :
    ∃ same, sameWindow h needle (RollingHash.hash (words needle))
        (RollingHash.hash (RollingHash.window (words h) i needle.length)) i = some same ∧
      (same = true ↔ OccursAt needle h i) := by
  rw [sameWindow]
  by_cases hhash : RollingHash.hash (RollingHash.window (words h) i needle.length) =
      RollingHash.hash (words needle)
  · obtain ⟨x, hx⟩ := getElem?_isSome (s := needle) (i := 0) hpos
    obtain ⟨y, hy⟩ := getElem?_isSome (s := h) (i := i) (by omega)
    have hzero : elementAt needle 0 = some x := (elementAt_nat needle 0).trans hx
    rw [if_pos hhash, hzero, elementAt_nat, hy, Option.bind_eq_bind, Option.bind_some,
      Option.bind_some]
    by_cases hxy : x = y
    · rw [if_pos hxy]
      exact sameBytes_eq hi
    · refine ⟨false, if_neg hxy, Bool.noConfusion, fun hat => absurd ?_ hxy⟩
      have hsame := hat.2 0 hpos
      rw [Nat.add_zero, hy, hx, Option.some.injEq] at hsame
      exact hsame.symm
  · refine ⟨false, if_neg hhash, Bool.noConfusion, fun hat => absurd ?_ hhash⟩
    rw [hash_of_occursAt hat]

theorem findHash_first {start : Nat} (hpos : 0 < needle.length)
    (hin : start + needle.length ≤ h.length) :
    ∃ r, findHash h needle start = some r ∧ FirstFrom (OccursAt needle h) start r := by
  have hneedle : RollingHash.hashFrom (words needle) needle.length 0 0 =
      some (RollingHash.hash (words needle)) := by
    have heq := RollingHash.hashFrom_eq (words needle) needle.length 0 0 (by simp)
    rw [window_words, List.drop_zero, List.take_length] at heq
    exact heq
  have hhay := RollingHash.hashFrom_eq (words h) needle.length start 0 (by simpa using hin)
  obtain ⟨last, hlast⟩ := getElem?_isSome (s := words h) (i := start + (needle.length - 1))
    (by rw [length_words]; omega)
  have hplace : (start : Int) + (needle.length - 1) = (start + (needle.length - 1) : Nat) := by
    omega
  have hcount : ((h.length : Int) - needle.length - start + 1).toNat =
      h.length - needle.length - start + 1 := by omega
  obtain ⟨r, hr, hfirst⟩ := RollingHash.slide_first (words h) needle.length
    (sameWindow h needle (RollingHash.hash (words needle))) hpos
    (fun i (hat : OccursAt needle h i) => by rw [length_words]; exact hat.le)
    (fun i hi => sameWindow_eq hpos (by rwa [length_words] at hi))
    (h.length - needle.length - start + 1) start
    (RollingHash.hash (RollingHash.window (words h) start needle.length) - last)
    (by rw [length_words]; omega) (by rw [length_words]; omega)
    fun _ => ⟨last, hlast, BitVec.sub_add_cancel _ _⟩
  refine ⟨r, ?_, hfirst⟩
  rw [findHash, hneedle, hhay, hplace, elementAt_nat, hlast, hcount]
  exact hr

/-! ## The overloads -/

/-- A pattern is searched from a place that is not in front of the array. -/
theorem findByteArray_first {h needle : Chars} {start : Int} {place : Nat}
    (hplace : (if start < 0 then start + (h.size : Int) else start) = place)
    (hint : place < 2 ^ 31) (hpos : 0 < needle.size) :
    ∃ r, findByteArray h needle start = some r ∧
      FirstFrom (OccursAt needle.val h.val) place r := by
  have hh := h.property
  have hn := needle.property
  have hwrap : ((needle.size : Int) + place) % 2 ^ 32 = needle.size + place := by
    rw [Chars.size]
    apply Int.emod_eq_of_lt <;> omega
  simp only [findByteArray, hplace, hwrap]
  by_cases hlong : (needle.size : Int) + place > h.size
  · refine ⟨-1, if_pos hlong, .none fun j hj hat => ?_⟩
    have hle := hat.le
    rw [← Chars.size, ← Chars.size] at hle
    omega
  rw [if_neg hlong, if_neg (by omega), if_neg (by omega)]
  by_cases hone : needle.size = 1
  · obtain ⟨c, hc⟩ := List.length_eq_one_iff.mp hone
    have hzero : elementAt needle.val 0 = some c := by
      rw [hc]
      rfl
    obtain ⟨r, hr, hfirst⟩ := findChar_first h c place
    rw [if_neg (by omega), Int.toNat_natCast, ← hc] at hfirst
    exact ⟨r, by rw [if_pos hone, hzero]; exact hr, hfirst⟩
  rw [if_neg hone]
  by_cases hbm : h.size > 500 ∧ needle.size > 5
  · have hmax : (max (place : Int) 0).toNat = place := by omega
    rw [if_pos hbm, findBoyerMoore, hmax]
    exact bmFind_first needle.val (by rw [← Chars.size]; omega)
  · rw [if_neg hbm]
    exact findHash_first (by rwa [← Chars.size]) (by rw [← Chars.size, ← Chars.size]; omega)

theorem strlen_eq (str : CString) : strlen str = str.chars.size := by
  rw [strlen, List.idxOf_append_of_notMem str.free, List.idxOf_cons_self, Nat.add_zero, Chars.size]

theorem elementAt_singleton {needle : Chars} {c : UInt8} (hc : needle.val = [c]) :
    elementAt needle.val 0 = some c := by
  rw [hc]
  rfl

theorem indexOfChar_first (h : Chars) (c : UInt8) {start : Int32} {place : Nat}
    (hplace : start.toInt = place) :
    ∃ r, indexOfChar h c start = some r ∧ FirstFrom (OccursAt [c] h.val) place r := by
  obtain ⟨r, hr, hfirst⟩ := findChar_first h c start.toInt
  rw [if_neg (by omega), hplace, Int.toNat_natCast] at hfirst
  exact ⟨r, hr, hfirst⟩

/-- What is too long is nowhere. -/
theorem firstFrom_long {h needle : Chars} {place : Nat}
    (hlong : h.size < place ∨ h.size < needle.size + place) :
    FirstFrom (OccursAt needle.val h.val) place (-1) := by
  refine .none fun j hj hat => ?_
  have hle := hat.le
  rw [← Chars.size, ← Chars.size] at hle
  omega

theorem indexOf_first {h needle : Chars} {start : Int32} {place : Nat}
    (hplace : start.toInt = place) (hne : needle.val ≠ []) :
    ∃ r, indexOf h needle start = some r ∧ FirstFrom (OccursAt needle.val h.val) place r := by
  have hpos : 0 < needle.size := List.length_pos_iff.mpr hne
  have hint := Int32.toInt_lt start
  simp only [indexOf, hplace]
  rw [if_neg (by omega)]
  by_cases hone : needle.size = 1
  · obtain ⟨c, hc⟩ := List.length_eq_one_iff.mp hone
    rw [if_pos hone, elementAt_singleton hc, hc]
    exact indexOfChar_first h c hplace
  rw [if_neg hone]
  by_cases hlong : (place : Int) > h.size ∨ (needle.size : Int) + place > h.size
  · exact ⟨-1, if_pos hlong, firstFrom_long (by omega)⟩
  · rw [if_neg hlong]
    exact findByteArray_first (if_neg (by omega)) (by omega) hpos

/-- A needle that is not empty is searched by the overload for characters as by that for arrays. -/
theorem indexOfText_eq {h : Chars} {str : CString} (hne : str.chars.val ≠ []) (start : Int32) :
    indexOfText h str start = indexOf h str.chars start := by
  have hpos : 0 < str.chars.size := List.length_pos_iff.mpr hne
  have hzero : ¬str.chars.size = 0 := by omega
  simp only [indexOfText, indexOf, strlen_eq, if_neg hzero]

theorem indexIn_first (pattern : Chars) {h : Chars} {start : Int32} {place : Nat}
    (hplace : start.toInt = place) (hle : place ≤ h.size) :
    ∃ r, indexIn pattern h start = some r ∧ FirstFrom (OccursAt pattern.val h.val) place r := by
  have hmax : (max start.toInt 0).toNat = place := by omega
  rw [indexIn, hmax]
  exact bmFind_first pattern.val hle

/-- From a place in the array all of them find the first occurrence. -/
theorem byteSearch_exact (h needle : Chars) (start : Int32) (hne : needle.val ≠ [])
    (hstart : 0 ≤ start.toInt) (hle : start.toInt ≤ h.size) :
    ∃ r, FirstFrom (OccursAt needle.val h.val) start.toInt.toNat r ∧
      indexOf h needle start = some r ∧
      (∀ str : CString, str.chars = needle → indexOfText h str start = some r) ∧
      (∀ c, needle.val = [c] → indexOfChar h c start = some r) ∧
      findByteArray h needle start.toInt = some r ∧
      indexIn needle h start = some r := by
  have hplace : start.toInt = start.toInt.toNat := (Int.toNat_of_nonneg hstart).symm
  have hint := Int32.toInt_lt start
  obtain ⟨r, hr, hfirst⟩ := indexOf_first (h := h) hplace hne
  refine ⟨r, hfirst, hr, ?_, ?_, ?_, ?_⟩
  · rintro str rfl
    rw [indexOfText_eq hne, hr]
  · intro c hc
    obtain ⟨r', hr', hfirst'⟩ := indexOfChar_first h c hplace
    rw [← hc] at hfirst'
    rw [hr', hfirst'.unique hfirst]
  · have hcounted : (if start.toInt < 0 then start.toInt + (h.size : Int) else start.toInt) =
        start.toInt.toNat := (if_neg (by omega)).trans hplace
    obtain ⟨r', hr', hfirst'⟩ := findByteArray_first hcounted (by omega)
      (List.length_pos_iff.mpr hne)
    rw [hr', hfirst'.unique hfirst]
  · obtain ⟨r', hr', hfirst'⟩ := indexIn_first needle (h := h) hplace (by omega)
    rw [hr', hfirst'.unique hfirst]

def ababBytes : Chars := ⟨[0x61, 0x62, 0x61, 0x62], by decide⟩

def baBytes : Chars := ⟨[0x62, 0x61], by decide⟩

/-- "ba" in "abab" -/
theorem byteSearch_exact_abab : ∃ r, FirstFrom (OccursAt baBytes.val ababBytes.val) 1 r ∧
    indexOf ababBytes baBytes 1 = some r ∧
    (∀ str : CString, str.chars = baBytes → indexOfText ababBytes str 1 = some r) ∧
    (∀ c, baBytes.val = [c] → indexOfChar ababBytes c 1 = some r) ∧
    findByteArray ababBytes baBytes 1 = some r ∧ indexIn baBytes ababBytes 1 = some r :=
  byteSearch_exact ababBytes baBytes 1 (List.cons_ne_nil _ _) (by decide) (by decide)

end Libpdk.Ds.ByteArraySearch

import Libpdk.Codecs.Utf8Simd
import Libpdk.Core.BoyerMoore
import Libpdk.Core.Collect
import Libpdk.Core.RollingHash
import Libpdk.Lang.StringCompare
import Libpdk.Codecs.Utf8SimdAgrees
import Libpdk.Lang.StringCompareMixed

/-!
# Searching strings

A pointer into a string is its distance from the first unit; it may leave the string, as the start
of a search is counted from the end by adding the length. A unit is read through `fetch`, which
fails outside of the string: a search that returns something has read nothing else. With case the
units themselves are compared, without case what they are folded to; the loops are the same.
-/
namespace Libpdk.Lang

section

open Codecs.Character Codecs.Utf8.Reading

/-- A string: its length is an `int`. -/
structure Text where
  view : StringView
  fits : view.size < 2 ^ 31

/-! ## Units -/

section

variable (b : Build) (m : Memory) (f : CaseFolding) (cs : CaseSensitivity)

def fetch (s : StringView) (i : Int) : Option UInt16 :=
  if 0 ≤ i ∧ i < s.size then some (m.units (s.begin.getD 0 + i.toNat)) else none

/-- mirrors lang/Character.cpp:246-253 -/
def foldCaseAt (s : StringView) (start i : Int) : Option Nat := do
  let c ← fetch m s i
  if isLowSurrogate c.toNat ∧ start < i then
    let last ← fetch m s (i - 1)
    some (f.foldCase32 c last)
  else some (f.foldCase32 c 0)

/-- What the unit at `i` is compared by, of a text that begins at `start`. -/
def unitKey (s : StringView) (start i : Int) : Option Nat :=
  match cs with
  | .sensitive => (fetch m s i).map UInt16.toNat
  | .insensitive => foldCaseAt m f s start i

/-- What a unit of its own is compared by. -/
def charKey (c : UInt16) : UInt16 :=
  match cs with
  | .sensitive => c
  | .insensitive => f.foldCase16 c

/-- The `size` units at `i`. -/
def window (s : StringView) (i : Int) (size : Nat) : Option StringView :=
  if 0 ≤ i ∧ i + size ≤ s.size then
    some ⟨some (s.begin.getD 0 + i.toNat), size, fun h => nomatch h⟩
  else none

/-! ## One unit -/

/-- `_mm_loadu_si128` -/
def loadUnits (s : StringView) (n : Nat) : Option Str :=
  (window s n 8).map (View.read · m.units)

/-- Eight units at a time: the place of the first that is equal, and what is left.
mirrors lang/String.cpp:461-477 -/
def findBlocks (s : StringView) (c : UInt16) : Nat → Nat → Option (Option Nat × Nat)
  | 0, _ => none
  | rounds + 1, n =>
    if n + 8 ≤ s.size then do
      let data ← loadUnits m s n
      let mask := movemask (data.flatMap fun u => [u == c, u == c])
      if mask.setWidth 16 ≠ 0#16 then some (some ((n * 2 + mask.ctz.toNat) >>> 1), n)
      else findBlocks s c rounds (n + 8)
    else some (none, n)

/-- `UnrollTailLoop<7>`
mirrors lang/String.cpp:112-156 -/
def unrollTailLoop (loopCheck : Nat → Option Bool) : Nat → Nat → Nat → Option (Option Nat)
  | 0, _, _ => some none
  | maxCount + 1, count, i =>
    if count = 0 then some none
    else do
      let check ← loopCheck i
      if check then some (some i) else unrollTailLoop loopCheck maxCount (count - 1) (i + 1)

/-- mirrors lang/String.cpp:483-488 and 491-496 -/
def findCharLoop (s : StringView) (c : UInt16) : Nat → Nat → Option Int
  | 0, _ => some (-1)
  | count + 1, n => do
    let u ← fetch m s n
    if charKey f cs u = c then some n else findCharLoop s c count (n + 1)

/-- What follows the blocks.
mirrors lang/String.cpp:478-488 -/
def findTail (s : StringView) (c : UInt16) (n : Nat) : Option Int :=
  if b.optimizeSize then findCharLoop m f .sensitive s c (s.size - n) n
  else do
    let found ← unrollTailLoop (fun i => (fetch m s (n + i : Nat)).map (· == c)) 7 (s.size - n) 0
    some (found.elim (-1) fun i => (n + i : Nat))

/-- mirrors lang/String.cpp:450-501 -/
def findChar (s : StringView) (ch : UInt16) (start : Int) : Option Int :=
  let start := if start < 0 then max (start + s.size) 0 else start
  if start < s.size then
    let n := start.toNat
    match cs with
    | .sensitive =>
      if b.sse2 then do
        let (found, n) ← findBlocks m s ch (s.size + 1) n
        match found with
        | some i => some i
        | none => findTail b m f s ch n
      else findCharLoop m f .sensitive s ch (s.size - n) n
    | .insensitive => findCharLoop m f .insensitive s (f.foldCase16 ch) (s.size - n) n
  else some (-1)

/-! ## Boyer-Moore -/

/-- mirrors lang/StringMatcher.cpp:23-40 -/
def bmInitSkiptable (needle : StringView) : Option (Nat → Nat) := do
  let l := min needle.size 255
  let first := needle.size - l
  let keys ← collect (fun i => unitKey m f cs needle first i) first l
  some (BoyerMoore.distances (· % 256) keys fun _ => l)

/-- The number of units that are equal, up from the last one.
mirrors lang/StringMatcher.cpp:56-60 and 80-84 -/
def bmMatch (h needle : StringView) (current : Nat) : Nat → Nat → Option Nat
  | 0, skip => some skip
  | count + 1, skip => do
    let x ← unitKey m f cs h 0 (current - skip)
    let y ← unitKey m f cs needle 0 (needle.size - 1 - skip)
    if x ≠ y then some skip else bmMatch h needle current count (skip + 1)

/-- How far to move on; `none` is a match.
mirrors lang/StringMatcher.cpp:53-70 and 77-93 -/
def bmSkip (h needle : StringView) (skiptable : Nat → Nat) (current : Nat) :
    Option (Option Nat) := do
  let key ← unitKey m f cs h 0 current
  if skiptable (key % 256) ≠ 0 then some (some (skiptable (key % 256)))
  else do
    let skip ← bmMatch m f cs h needle current needle.size 0
    if skip ≥ needle.size then some none
    else do
      let key ← unitKey m f cs h 0 (current - skip)
      if skiptable (key % 256) = needle.size then some (some (needle.size - skip))
      else some (some 1)

/-- mirrors lang/StringMatcher.cpp:52-74 and 76-97 -/
def bmLoop (h needle : StringView) (skiptable : Nat → Nat) : Nat → Nat → Option Int
  | 0, _ => none
  | rounds + 1, current =>
    if current < h.size then do
      let skip ← bmSkip m f cs h needle skiptable current
      match skip with
      | none => some ((current : Int) - (needle.size - 1))
      | some skip =>
        if (current : Int) > h.size - skip then some (-1)
        else bmLoop h needle skiptable rounds (current + skip)
    else some (-1)

/-- mirrors lang/StringMatcher.cpp:42-100 -/
def bmFind (h : StringView) (index : Nat) (needle : StringView) (skiptable : Nat → Nat) :
    Option Int :=
  if needle.size = 0 then some (if index > h.size then -1 else index)
  else bmLoop m f cs h needle skiptable (h.size + 1) (index + (needle.size - 1))

/-- mirrors lang/StringMatcher.cpp:198-208 -/
def findStringBoyerMoore (h : StringView) (haystackOffset : Int) (needle : StringView) :
    Option Int := do
  let skiptable ← bmInitSkiptable m f cs needle
  bmFind m f cs h (max haystackOffset 0).toNat needle skiptable

/-! ## A hash -/

/-- The hash of the `count` units at `i`.
mirrors lang/String.cpp:1730-1734 and 1748-1751 -/
def hashUnits (s : StringView) : Nat → Int → BitVec 32 → Option (BitVec 32)
  | 0, _, hash => some hash
  | count + 1, i, hash => do
    let key ← unitKey m f cs s 0 i
    hashUnits s count (i + 1) ((hash <<< 1) + BitVec.ofNat 32 key)

/-- `REHASH`
mirrors lang/String.cpp:67-70 -/
def rehash (slminus1 : Nat) (hashHaystack : BitVec 32) (a : Nat) : BitVec 32 :=
  (if slminus1 < 32 then hashHaystack - (BitVec.ofNat 32 a <<< slminus1) else hashHaystack) <<< 1

/-- Whether the units at `i` are those of the needle. -/
def sameUnits (h needle : StringView) (hashNeedle hashHaystack : BitVec 32) (i : Int) :
    Option Bool :=
  if hashHaystack = hashNeedle then
    (window h i needle.size).map fun w => compareStrings b m f needle w cs == 0
  else some false

/-- mirrors lang/String.cpp:1737-1745 and 1754-1762 -/
def hashLoop (h needle : StringView) (hashNeedle : BitVec 32) :
    Nat → Int → BitVec 32 → Option Int
  | 0, _, _ => some (-1)
  | count + 1, i, hashHaystack => do
    let last ← unitKey m f cs h 0 (i + (needle.size - 1))
    let hashHaystack := hashHaystack + BitVec.ofNat 32 last
    let same ← sameUnits b m f cs h needle hashNeedle hashHaystack i
    if same then some i
    else do
      let first ← unitKey m f cs h 0 i
      hashLoop h needle hashNeedle count (i + 1) (rehash (needle.size - 1) hashHaystack first)

/-- mirrors lang/String.cpp:1716-1765 -/
def findStringHash (h needle : StringView) (start : Int) : Option Int := do
  let hashNeedle ← hashUnits m f cs needle needle.size 0 0
  let hashHaystack ← hashUnits m f cs h needle.size start 0
  let last ← unitKey m f cs h 0 (start + (needle.size - 1))
  hashLoop b m f cs h needle hashNeedle ((h.size : Int) - needle.size - start + 1).toNat start
    (hashHaystack - BitVec.ofNat 32 last)

/-! ## The searches -/

/-- The sum wraps.
mirrors lang/String.cpp:1685-1765 -/
def findString (h needle : Text) (start : Int32) : Option Int :=
  let l := h.view.size
  let sl := needle.view.size
  let start := if start.toInt < 0 then start.toInt + l else start.toInt
  if (sl + start) % 2 ^ 32 > l then some (-1)
  else if sl = 0 then some start
  else if l = 0 then some (-1)
  else if sl = 1 then do
    let c ← fetch m needle.view 0
    findChar b m f cs h.view c start
  else if l > 500 ∧ sl > 5 then findStringBoyerMoore m f cs h.view start needle.view
  else findStringHash b m f cs h.view needle.view start

/-- mirrors lang/String.cpp:1675-1678 -/
def indexOf (h needle : Text) (start : Int32) : Option Int := findString b m f cs h needle start

/-- mirrors lang/String.cpp:1767-1770 -/
def indexOfChar (h : Text) (needle : UInt16) (start : Int32) : Option Int :=
  findChar b m f cs h.view needle start.toInt

end

/-! ## The matcher -/

/-- `skiptable` belongs to the pattern. -/
structure StringMatcher (m : Memory) (f : CaseFolding) where
  pattern : Text
  cs : CaseSensitivity
  skiptable : Nat → Nat
  built : bmInitSkiptable m f cs pattern.view = some skiptable

/-- mirrors lang/StringMatcher.cpp:176-194 -/
def StringMatcher.indexIn {m : Memory} {f : CaseFolding} (matcher : StringMatcher m f) (str : Text)
    (start : Int32) : Option Int :=
  bmFind m f matcher.cs str.view (max start.toInt 0).toNat matcher.pattern.view matcher.skiptable

end

/-!
## The loops of a search

What the units of a string are compared by is a list (`stringKeys`), and each of the loops returns
the least place at which it finds the needle: a unit (`findChar_nat`), a window that has the hash
of the needle and compares equal (`findStringHash_first`), the keys of the needle where the table
of skips is one of them (`bmFind_first`).
-/

open Codecs.Character Codecs.Utf8.Reading

section

variable {b : Build} {m : Memory} {f : CaseFolding} {cs : CaseSensitivity}

/-! ## Keys -/

theorem fetch_nat (s : StringView) (i : Nat) : fetch m s i = (s.read m.units)[i]? := by
  rw [fetch]
  by_cases hi : i < s.size
  · rw [if_pos ⟨by omega, by omega⟩, View.getElem?_read s m.units hi, Int.toNat_natCast]
  · rw [if_neg (by omega), List.getElem?_eq_none (by rw [View.length_read]; omega)]

theorem fetch_neg {s : StringView} {i : Int} (h : i < 0) : fetch m s i = none := by
  rw [fetch, if_neg (by omega)]

theorem foldKeys_zero (fold : Folding) (last : UInt16) (s : Str) :
    (foldKeys fold last s)[0]? = s[0]?.map (fold · last) := by
  cases s <;> rfl

theorem foldKeys_succ (fold : Folding) : ∀ (s : Str) (last : UInt16) (i : Nat),
    (foldKeys fold last s)[i + 1]? = s[i + 1]?.bind fun c => s[i]?.map (fold c)
  | [], _, _ => rfl
  | [_], _, _ => rfl
  | c :: d :: s, last, i => by
    rw [foldKeys, List.getElem?_cons_succ]
    cases i with
    | zero => rfl
    | succ i =>
      rw [foldKeys_succ fold (d :: s) c i]
      rfl

theorem length_foldKeys (fold : Folding) : ∀ (s : Str) (last : UInt16),
    (foldKeys fold last s).length = s.length
  | [], _ => rfl
  | c :: s, _ => by rw [foldKeys, List.length_cons, length_foldKeys fold s c, List.length_cons]

@[simp] theorem length_stringKeys (s : StringView) :
    (stringKeys m f.foldCase32 cs s).length = s.size := by
  cases cs with
  | sensitive => rw [stringKeys, numbers, List.length_map, View.length_read]
  | insensitive => rw [stringKeys, length_foldKeys, View.length_read]

theorem foldCase32_of_not_low {c : UInt16} (h : ¬isLowSurrogate c.toNat) (last : UInt16) :
    f.foldCase32 c last = f.foldCase32 c 0 := by
  simp [CaseFolding.foldCase32, h]

/-- A text is folded from its beginning. -/
theorem unitKey_nat (s : StringView) (i : Nat) :
    unitKey m f cs s 0 i = (stringKeys m f.foldCase32 cs s)[i]? := by
  cases cs with
  | sensitive => rw [unitKey, fetch_nat, stringKeys, numbers, List.getElem?_map]
  | insensitive =>
    rw [unitKey, stringKeys, foldCaseAt, fetch_nat]
    cases i with
    | zero =>
      rw [foldKeys_zero]
      cases (s.read m.units)[0]? with
      | none => rfl
      | some c => simp
    | succ i =>
      rw [foldKeys_succ]
      cases hc : (s.read m.units)[i + 1]? with
      | none => rfl
      | some c =>
        obtain ⟨hi, -⟩ := List.getElem?_eq_some_iff.mp hc
        have hlast : (s.read m.units)[i]? = some ((s.read m.units).get ⟨i, by omega⟩) :=
          List.getElem?_eq_getElem _
        have hpred : ((i + 1 : Nat) : Int) - 1 = (i : Nat) := by omega
        rw [Option.bind_eq_bind, Option.bind_some, Option.bind_some, hpred, fetch_nat, hlast]
        by_cases hlow : isLowSurrogate c.toNat
        · rw [if_pos ⟨hlow, by omega⟩]
          rfl
        · rw [if_neg (fun h => hlow h.1), Option.map_some,
            foldCase32_of_not_low hlow ((s.read m.units).get ⟨i, _⟩)]

theorem unitKey_neg {s : StringView} {i : Int} (h : i < 0) : unitKey m f cs s 0 i = none := by
  cases cs with
  | sensitive => rw [unitKey, fetch_neg h, Option.map_none]
  | insensitive =>
    rw [unitKey, foldCaseAt, fetch_neg h]
    rfl

theorem unitKey_elementAt (s : StringView) (i : Int) :
    unitKey m f cs s 0 i = elementAt (stringKeys m f.foldCase32 cs s) i := by
  rcases Int.lt_or_le i 0 with hneg | hpos
  · rw [unitKey_neg hneg, elementAt_neg hneg]
  · obtain ⟨i, rfl⟩ := Int.eq_ofNat_of_zero_le hpos
    rw [unitKey_nat, elementAt_nat]

variable (m f cs) in
/-- Inside of a string there is a unit. -/
theorem stringKeys_getElem? {s : StringView} {i : Nat} (h : i < s.size) :
    ∃ key, (stringKeys m f.foldCase32 cs s)[i]? = some key :=
  ⟨_, List.getElem?_eq_getElem (by rwa [length_stringKeys])⟩

/-! ## One unit -/

/-- A unit that is found by `ch`. -/
def CharAt (m : Memory) (f : CaseFolding) (cs : CaseSensitivity) (s : StringView) (c : UInt16)
    (i : Nat) : Prop :=
  (s.read m.units)[i]?.map (charKey f cs) = some c

theorem CharAt.lt {s : StringView} {c : UInt16} {i : Nat} (h : CharAt m f cs s c i) :
    i < s.size := by
  by_contra hge
  rw [CharAt, List.getElem?_eq_none (by rw [View.length_read]; omega)] at h
  cases h

theorem findCharLoop_first (s : StringView) (c : UInt16) : ∀ (count n : Nat), n + count = s.size →
    ∃ r, findCharLoop m f cs s c count n = some r ∧ FirstFrom (CharAt m f cs s c) n r
  | 0, n, h => ⟨-1, rfl, .none fun j hj hc => absurd hc.lt (by omega)⟩
  | count + 1, n, h => by
    have hu := View.getElem?_read s m.units (i := n) (by omega)
    rw [findCharLoop, fetch_nat, hu]
    by_cases hc : charKey f cs (m.units (s.begin.getD 0 + n)) = c
    · refine ⟨n, by simp [hc], .here ?_⟩
      rw [CharAt, hu, Option.map_some, hc]
    · obtain ⟨r, hr, hfirst⟩ := findCharLoop_first s c count (n + 1) (by omega)
      refine ⟨r, by simpa [hc] using hr, hfirst.skip (by omega) fun j hle hlt => ?_⟩
      obtain rfl : j = n := by omega
      rw [CharAt, hu, Option.map_some, Option.some.injEq]
      exact hc

/-! ### Blocks -/

theorem getD_twice {α : Type} (g : α → Bool) : ∀ (data : List α) (i : Nat),
    (data.flatMap fun u => [g u, g u]).getD i false = (data[i / 2]?.map g).getD false
  | [], i => by simp
  | u :: data, 0 => rfl
  | u :: data, 1 => rfl
  | u :: data, i + 2 => by
    have hhalf : (i + 2) / 2 = i / 2 + 1 := by omega
    rw [hhalf, List.getElem?_cons_succ, ← getD_twice g data i]
    rfl

/-- The trailing zeros of a mask lead to the first lane that is set. -/
theorem mask_first {data : Str} {c : UInt16} (h : data.length = 8)
    {mask : BitVec 32} (hmask : mask = movemask (data.flatMap fun u => [u == c, u == c])) :
    (mask.setWidth 16 ≠ 0#16 → data[mask.ctz.toNat / 2]? = some c ∧
      ∀ j < mask.ctz.toNat / 2, data[j]? ≠ some c) ∧
    (mask.setWidth 16 = 0#16 → ∀ j : Nat, data[j]? ≠ some c) := by
  have hlen : (data.flatMap fun u => [u == c, u == c]).length = 16 := by
    rw [List.length_flatMap]
    simp [h]
  have hbit (i : Nat) : mask.getLsbD i = (data[i / 2]?.map (· == c)).getD false := by
    rw [hmask, movemask_getLsbD (by omega), getD_twice]
  have hlane (i : Nat) : mask.getLsbD i = true ↔ data[i / 2]? = some c := by
    rw [hbit]
    cases data[i / 2]? <;> simp
  constructor
  · intro hne
    have hne' : mask ≠ 0 := by
      rintro rfl
      exact hne rfl
    refine ⟨(hlane _).mp (BitVec.getLsbD_true_ctz_of_ne_zero hne'), fun j hj hc => ?_⟩
    have hclear : mask.getLsbD (2 * j) = false := BitVec.getLsbD_false_of_lt_ctz (by omega)
    have htwo : 2 * j / 2 = j := by omega
    rw [← htwo, ← hlane, hclear] at hc
    cases hc
  · intro hz j hc
    obtain ⟨hj, -⟩ := List.getElem?_eq_some_iff.mp hc
    have htwo : 2 * j / 2 = j := by omega
    rw [← htwo, ← hlane] at hc
    have hlow := congrArg (·.getLsbD (2 * j)) hz
    simp only [BitVec.getLsbD_setWidth, hc] at hlow
    simp [show 2 * j < 16 by omega] at hlow

theorem window_nat {s : StringView} {i size : Nat} (h : i + size ≤ s.size) :
    window s i size = some ⟨some (s.begin.getD 0 + i), size, fun h => nomatch h⟩ := by
  rw [window, if_pos ⟨by omega, by omega⟩]
  rfl

theorem read_window (s : StringView) {i size : Nat} (h : i + size ≤ s.size)
    (hn : some (s.begin.getD 0 + i) = none → size = 0) :
    View.read ⟨some (s.begin.getD 0 + i), size, hn⟩ m.units =
      ((s.read m.units).drop i).take size := by
  apply List.ext_getElem?
  intro j
  by_cases hj : j < size
  · rw [View.getElem?_read _ _ hj, List.getElem?_take, if_pos hj, List.getElem?_drop,
      View.getElem?_read _ _ (by omega), Option.getD_some, Nat.add_assoc]
  · rw [List.getElem?_eq_none (by rw [View.length_read]; exact Nat.le_of_not_lt hj),
      List.getElem?_take, if_neg hj]

theorem charAt_sensitive {s : StringView} {c : UInt16} {i : Nat} :
    CharAt m f .sensitive s c i ↔ (s.read m.units)[i]? = some c := by
  rw [CharAt]
  cases (s.read m.units)[i]? <;> rfl

theorem findBlocks_first (s : StringView) (c : UInt16) : ∀ (rounds n : Nat), n ≤ s.size →
    s.size < n + 8 * rounds → ∃ found n', findBlocks m s c rounds n = some (found, n') ∧
      (∀ i, found = some i → FirstFrom (CharAt m f .sensitive s c) n i) ∧
      (found = none → n ≤ n' ∧ n' ≤ s.size ∧ s.size < n' + 8 ∧
        ∀ j, n ≤ j → j < n' → ¬CharAt m f .sensitive s c j)
  | 0, n, _, h => by omega
  | rounds + 1, n, hn, h => by
    rw [findBlocks]
    by_cases hblock : n + 8 ≤ s.size
    · obtain ⟨data, hdata⟩ : ∃ data, data = ((s.read m.units).drop n).take 8 := ⟨_, rfl⟩
      have hload : loadUnits m s n = some data := by
        rw [loadUnits, window_nat hblock, Option.map_some, read_window s hblock, hdata]
      have hlen : data.length = 8 := by
        rw [hdata, List.length_take, List.length_drop, View.length_read]
        omega
      have hget (j : Nat) (hj : j < 8) :
          CharAt m f .sensitive s c (n + j) ↔ data[j]? = some c := by
        rw [charAt_sensitive, hdata, List.getElem?_take, if_pos hj, List.getElem?_drop]
      obtain ⟨mask, hmask⟩ : ∃ mask, mask = movemask (data.flatMap fun u => [u == c, u == c]) :=
        ⟨_, rfl⟩
      obtain ⟨hset, hclear⟩ := mask_first hlen hmask
      rw [if_pos hblock, hload, Option.bind_eq_bind, Option.bind_some]
      simp only [← hmask]
      by_cases hz : mask.setWidth 16 = 0#16
      · obtain ⟨found, n', hrun, hsome, hnone⟩ :=
          findBlocks_first s c rounds (n + 8) hblock (by omega)
        -- none of the units of the block is the one that is searched
        have hblank (j : Nat) (hle : n ≤ j) (hlt : j < n + 8) :
            ¬CharAt m f .sensitive s c j := by
          obtain ⟨d, rfl⟩ := Nat.exists_eq_add_of_le hle
          rw [hget d (by omega)]
          exact hclear hz d
        refine ⟨found, n', by rw [if_neg (not_not.mpr hz), hrun], fun i hi => ?_, fun hi => ?_⟩
        · exact (hsome i hi).skip (by omega) hblank
        · obtain ⟨hle, hsize, hend, hnot⟩ := hnone hi
          refine ⟨by omega, hsize, hend, fun j hj hj' => ?_⟩
          by_cases hjb : j < n + 8
          · exact hblank j hj hjb
          · exact hnot j (by omega) hj'
      · obtain ⟨hhit, hbefore⟩ := hset hz
        obtain ⟨hk, -⟩ := List.getElem?_eq_some_iff.mp hhit
        refine ⟨_, _, if_pos hz, fun i hi => ?_, (nomatch ·)⟩
        have hplace : i = n + mask.ctz.toNat / 2 := by
          rw [Option.some.injEq, Nat.shiftRight_eq_div_pow] at hi
          omega
        subst hplace
        refine .found (by omega) ((hget _ (by omega)).mpr hhit) fun j hle hlt => ?_
        obtain ⟨d, rfl⟩ := Nat.exists_eq_add_of_le hle
        rw [hget d (by omega)]
        exact hbefore d (by omega)
    · refine ⟨none, n, if_neg hblock, fun i hi => ?_, fun _ => ⟨Nat.le_refl n, hn, by omega,
        fun j hle hlt => absurd hlt (by omega)⟩⟩
      cases hi

/-- At most `maxCount` units are left, so all of them are looked at. -/
theorem unrollTailLoop_first (s : StringView) (c : UInt16) (n : Nat) :
    ∀ (maxCount count i : Nat), count ≤ maxCount → n + i + count = s.size →
      ∃ found, unrollTailLoop (fun i => (fetch m s (n + i : Nat)).map (· == c)) maxCount count i =
          some found ∧
        FirstFrom (CharAt m f .sensitive s c) (n + i) (found.elim (-1) fun i => (n + i : Nat))
  | 0, count, i, hle, h =>
    ⟨none, rfl, .none fun j hj hc => absurd hc.lt (by omega)⟩
  | maxCount + 1, count, i, hle, h => by
    rw [unrollTailLoop]
    by_cases hzero : count = 0
    · exact ⟨none, if_pos hzero, .none fun j hj hc => absurd hc.lt (by omega)⟩
    · have hu := View.getElem?_read s m.units (i := n + i) (by omega)
      rw [if_neg hzero, fetch_nat, hu]
      by_cases hc : m.units (s.begin.getD 0 + (n + i)) = c
      · refine ⟨some i, by simp [hc], .here ?_⟩
        rw [charAt_sensitive, hu, hc]
      · obtain ⟨found, hrun, hfirst⟩ :=
          unrollTailLoop_first s c n maxCount (count - 1) (i + 1) (by omega) (by omega)
        refine ⟨found, by simpa [hc] using hrun, hfirst.skip (by omega) fun j hj hj' => ?_⟩
        obtain rfl : j = n + i := by omega
        rw [charAt_sensitive, hu, Option.some.injEq]
        exact hc

theorem findTail_first (b : Build) (s : StringView) (c : UInt16) (n : Nat) (hle : n ≤ s.size)
    (hend : s.size < n + 8) :
    ∃ r, findTail b m f s c n = some r ∧ FirstFrom (CharAt m f .sensitive s c) n r := by
  rw [findTail]
  by_cases hb : b.optimizeSize
  · rw [if_pos hb]
    exact findCharLoop_first s c (s.size - n) n (by omega)
  · obtain ⟨found, hrun, hfirst⟩ :=
      unrollTailLoop_first (m := m) (f := f) s c n 7 (s.size - n) 0 (by omega) (by omega)
    refine ⟨_, ?_, hfirst⟩
    rw [if_neg hb, hrun]
    rfl

variable (m f cs) in
/-- A single unit is searched from a place in the string. -/
theorem findChar_nat (b : Build) (s : StringView) (ch : UInt16) (start : Nat) :
    ∃ r, findChar b m f cs s ch start = some r ∧
      FirstFrom (CharAt m f cs s (charKey f cs ch)) start r := by
  have hpos : ¬((start : Int) < 0) := by omega
  simp only [findChar, if_neg hpos]
  by_cases hlt : start < s.size
  · rw [if_pos (by omega), Int.toNat_natCast]
    cases cs with
    | insensitive => exact findCharLoop_first s _ (s.size - start) start (by omega)
    | sensitive =>
      by_cases hb : b.sse2
      · obtain ⟨found, n', hrun, hsome, hnone⟩ :=
          findBlocks_first (m := m) (f := f) s ch (s.size + 1) start (by omega) (by omega)
        simp only [if_pos hb, hrun]
        cases found with
        | some i => exact ⟨i, rfl, hsome i rfl⟩
        | none =>
          obtain ⟨hle, hsize, hend, hnot⟩ := hnone rfl
          obtain ⟨r, hr, hfirst⟩ := findTail_first (m := m) (f := f) b s ch n' hsize hend
          exact ⟨r, hr, hfirst.skip hle hnot⟩
      · simp only [if_neg hb]
        exact findCharLoop_first s ch (s.size - start) start (by omega)
  · rw [if_neg (by omega)]
    exact ⟨-1, rfl, .none fun j hj hc => absurd hc.lt (by omega)⟩

/-! ## A hash -/

/-- The keys of the `size` units at `i`, as words. -/
def windowKeys (m : Memory) (f : CaseFolding) (cs : CaseSensitivity) (s : StringView)
    (i size : Nat) : List (BitVec 32) :=
  (((stringKeys m f.foldCase32 cs s).drop i).take size).map (BitVec.ofNat 32)

/-- The keys of a string, as words. -/
def stringWords (m : Memory) (f : CaseFolding) (cs : CaseSensitivity) (s : StringView) :
    List (BitVec 32) := (stringKeys m f.foldCase32 cs s).map (BitVec.ofNat 32)

theorem length_stringWords (s : StringView) : (stringWords m f cs s).length = s.size := by
  rw [stringWords, List.length_map, length_stringKeys]

theorem window_stringWords (s : StringView) (i size : Nat) :
    RollingHash.window (stringWords m f cs s) i size = windowKeys m f cs s i size := by
  rw [RollingHash.window, stringWords, windowKeys, ← List.map_drop, ← List.map_take]

theorem elementAt_stringWords (s : StringView) (i : Int) :
    elementAt (stringWords m f cs s) i = (unitKey m f cs s 0 i).map (BitVec.ofNat 32) := by
  rw [unitKey_elementAt, elementAt, elementAt, stringWords]
  by_cases hi : 0 ≤ i
  · rw [if_pos hi, if_pos hi, List.getElem?_map]
  · rw [if_neg hi, if_neg hi, Option.map_none]

theorem hashUnits_hashFrom (s : StringView) : ∀ (count : Nat) (i : Int) (hash : BitVec 32),
    hashUnits m f cs s count i hash =
      RollingHash.hashFrom (stringWords m f cs s) count i hash
  | 0, _, _ => rfl
  | count + 1, i, hash => by
    rw [hashUnits, RollingHash.hashFrom, elementAt_stringWords]
    cases unitKey m f cs s 0 i with
    | none => rfl
    | some key => exact hashUnits_hashFrom s count (i + 1) _

theorem hashUnits_eq (s : StringView) (count i : Nat) (hash : BitVec 32)
    (h : i + count ≤ s.size) : hashUnits m f cs s count i hash =
      some ((windowKeys m f cs s i count).foldl RollingHash.push hash) := by
  rw [hashUnits_hashFrom, RollingHash.hashFrom_eq _ count i hash (by rwa [length_stringWords]),
    window_stringWords]

/-- A window that is taken for the needle. -/
def HashAt (b : Build) (m : Memory) (f : CaseFolding) (cs : CaseSensitivity)
    (h needle : StringView) (i : Nat) : Prop :=
  i + needle.size ≤ h.size ∧
    RollingHash.hash (windowKeys m f cs h i needle.size) =
      RollingHash.hash (windowKeys m f cs needle 0 needle.size) ∧
    compareStrings b m f needle ⟨some (h.begin.getD 0 + i), needle.size, fun h => nomatch h⟩ cs = 0

variable (b m f cs) in
theorem sameUnits_eq {h needle : StringView} {i : Nat} (hi : i + needle.size ≤ h.size) :
    ∃ same, sameUnits b m f cs h needle
        (RollingHash.hash (windowKeys m f cs needle 0 needle.size))
        (RollingHash.hash (windowKeys m f cs h i needle.size)) i = some same ∧
      (same = true ↔ HashAt b m f cs h needle i) := by
  rw [sameUnits]
  by_cases hhash : RollingHash.hash (windowKeys m f cs h i needle.size) =
      RollingHash.hash (windowKeys m f cs needle 0 needle.size)
  · rw [if_pos hhash, window_nat hi]
    refine ⟨_, rfl, ?_⟩
    rw [beq_iff_eq]
    exact ⟨fun hzero => ⟨hi, hhash, hzero⟩, fun hat => hat.2.2⟩
  · rw [if_neg hhash]
    exact ⟨false, rfl, Bool.noConfusion, fun hat => absurd hat.2.1 hhash⟩

theorem hashLoop_slide {h needle : StringView} {hashNeedle : BitVec 32} :
    ∀ (count : Nat) (i : Int) (hash : BitVec 32),
      hashLoop b m f cs h needle hashNeedle count i hash =
        RollingHash.slide (stringWords m f cs h) needle.size
          (sameUnits b m f cs h needle hashNeedle) count i hash
  | 0, _, _ => rfl
  | count + 1, i, hash => by
    rw [hashLoop, RollingHash.slide, elementAt_stringWords, elementAt_stringWords]
    cases unitKey m f cs h 0 (i + (needle.size - 1)) with
    | none => rfl
    | some last =>
      show (sameUnits b m f cs h needle hashNeedle (hash + BitVec.ofNat 32 last) i).bind _ =
        (sameUnits b m f cs h needle hashNeedle (hash + BitVec.ofNat 32 last) i).bind _
      congr 1
      funext same
      cases same with
      | true => rfl
      | false =>
        cases unitKey m f cs h 0 i with
        | none => rfl
        | some first => exact hashLoop_slide count (i + 1) _

variable (b m f cs) in
theorem findStringHash_first {h needle : StringView} {start : Nat} (hsize : 0 < needle.size)
    (hin : start + needle.size ≤ h.size) :
    ∃ r, findStringHash b m f cs h needle start = some r ∧
      FirstFrom (HashAt b m f cs h needle) start r := by
  obtain ⟨last, hlast⟩ := stringKeys_getElem? m f cs (s := h)
    (i := start + (needle.size - 1)) (by omega)
  have hplace : (start : Int) + (needle.size - 1) = (start + (needle.size - 1) : Nat) := by omega
  have hcount : ((h.size : Int) - needle.size - start + 1).toNat =
      h.size - needle.size - start + 1 := by omega
  have hneedle : hashUnits m f cs needle needle.size 0 0 = some
      (RollingHash.hash (windowKeys m f cs needle 0 needle.size)) :=
    hashUnits_eq needle needle.size 0 0 (by omega)
  have hhay : hashUnits m f cs h needle.size start 0 = some
      (RollingHash.hash (windowKeys m f cs h start needle.size)) :=
    hashUnits_eq h needle.size start 0 hin
  have hwords : (stringWords m f cs h)[start + (needle.size - 1)]? =
      some (BitVec.ofNat 32 last) := by
    rw [stringWords, List.getElem?_map, hlast, Option.map_some]
  obtain ⟨r, hr, hfirst⟩ := RollingHash.slide_first (stringWords m f cs h) needle.size
    (sameUnits b m f cs h needle (RollingHash.hash (windowKeys m f cs needle 0 needle.size))) hsize
    (fun i (hat : HashAt b m f cs h needle i) => by
      rw [length_stringWords]
      exact hat.1)
    (fun i hi => by
      rw [length_stringWords] at hi
      rw [window_stringWords]
      exact sameUnits_eq b m f cs hi)
    (h.size - needle.size - start + 1) start
    (RollingHash.hash (windowKeys m f cs h start needle.size) - BitVec.ofNat 32 last)
    (by rw [length_stringWords]; omega) (by rw [length_stringWords]; omega)
    fun _ => ⟨_, hwords, by rw [window_stringWords, BitVec.sub_add_cancel]⟩
  refine ⟨r, ?_, hfirst⟩
  rw [findStringHash, hneedle, hhay, hplace, unitKey_nat, hlast, hcount]
  exact (hashLoop_slide _ _ _).trans hr

/-! ## Boyer-Moore -/

/-- The keys of the needle stand in the string. -/
def KeysAt (m : Memory) (f : CaseFolding) (cs : CaseSensitivity) (h needle : StringView) :
    Nat → Prop :=
  OccursAt (stringKeys m f.foldCase32 cs needle) (stringKeys m f.foldCase32 cs h)

/-- The table is one of the keys of the needle. -/
abbrev Skipping (m : Memory) (f : CaseFolding) (cs : CaseSensitivity) (needle : StringView)
    (skiptable : Nat → Nat) : Prop :=
  BoyerMoore.Skips (· % 256) (stringKeys m f.foldCase32 cs needle) skiptable

theorem KeysAt.le {h needle : StringView} {i : Nat} (hat : KeysAt m f cs h needle i) :
    i + needle.size ≤ h.size := by
  have hle := OccursAt.le hat
  rwa [length_stringKeys, length_stringKeys] at hle

theorem bmMatch_matchBack {h needle : StringView} (current : Nat) : ∀ (count skip : Nat),
    bmMatch m f cs h needle current count skip =
      BoyerMoore.matchBack (stringKeys m f.foldCase32 cs h) (stringKeys m f.foldCase32 cs needle)
        current count skip
  | 0, _ => rfl
  | count + 1, skip => by
    rw [bmMatch, BoyerMoore.matchBack, unitKey_elementAt, unitKey_elementAt, length_stringKeys]
    simp only [bmMatch_matchBack current count (skip + 1)]

theorem bmSkip_skipAt {h needle : StringView} (skiptable : Nat → Nat) (current : Nat) :
    bmSkip m f cs h needle skiptable current =
      BoyerMoore.skipAt (· % 256) (stringKeys m f.foldCase32 cs h)
        (stringKeys m f.foldCase32 cs needle) skiptable current := by
  simp only [bmSkip, BoyerMoore.skipAt, unitKey_elementAt, bmMatch_matchBack, length_stringKeys]

theorem bmLoop_searchLoop {h needle : StringView} (skiptable : Nat → Nat) :
    ∀ (rounds current : Nat), bmLoop m f cs h needle skiptable rounds current =
      BoyerMoore.searchLoop (· % 256) (stringKeys m f.foldCase32 cs h)
        (stringKeys m f.foldCase32 cs needle) skiptable rounds current
  | 0, _ => rfl
  | rounds + 1, current => by
    simp only [bmLoop, BoyerMoore.searchLoop, bmSkip_skipAt, length_stringKeys]
    by_cases hcurrent : current < h.size
    · rw [if_pos hcurrent, if_pos hcurrent]
      congr 1
      funext skip
      cases skip with
      | none => rfl
      | some skip => simp only [bmLoop_searchLoop skiptable rounds]
    · rw [if_neg hcurrent, if_neg hcurrent]

/-- The keys are searched. -/
theorem bmFind_search (h : StringView) (index : Nat) (needle : StringView)
    (skiptable : Nat → Nat) : bmFind m f cs h index needle skiptable =
      BoyerMoore.search (· % 256) (stringKeys m f.foldCase32 cs h)
        (stringKeys m f.foldCase32 cs needle) skiptable index := by
  rw [bmFind, BoyerMoore.search, bmLoop_searchLoop, length_stringKeys, length_stringKeys]

variable (m f cs) in
/-- The search that uses a table, from a place in the string. -/
theorem bmFind_first {h : StringView} (needle : StringView) (skiptable : Nat → Nat) {index : Nat}
    (hindex : index ≤ h.size) :
    ∃ r, bmFind m f cs h index needle skiptable = some r ∧
      (r = -1 ∨ ∃ j : Nat, r = j ∧ index ≤ j ∧ KeysAt m f cs h needle j) ∧
      (Skipping m f cs needle skiptable → FirstFrom (KeysAt m f cs h needle) index r) := by
  rw [bmFind_search]
  exact BoyerMoore.search_first (· % 256) _ _ skiptable (by rwa [length_stringKeys])

/-- Behind the first unit it does not matter where a text begins. -/
theorem unitKey_start {s : StringView} {start i : Nat} (h : start < i) :
    unitKey m f cs s start i = unitKey m f cs s 0 i := by
  cases cs with
  | sensitive => rfl
  | insensitive =>
    have hstart : ((start : Int) < i) := by omega
    have hzero : ((0 : Int) < i) := by omega
    simp only [unitKey, foldCaseAt, hstart, hzero]

theorem unitKey_isSome {s : StringView} {start i : Nat} (hle : start ≤ i) (h : i < s.size) :
    ∃ key, unitKey m f cs s start i = some key := by
  rcases Nat.eq_or_lt_of_le hle with rfl | hlt
  · have hu := View.getElem?_read s m.units h
    cases cs with
    | sensitive => exact ⟨_, by rw [unitKey, fetch_nat, hu, Option.map_some]⟩
    | insensitive =>
      refine ⟨f.foldCase32 (m.units (s.begin.getD 0 + start)) 0, ?_⟩
      rw [unitKey, foldCaseAt, fetch_nat, hu]
      simp
  · rw [unitKey_start hlt, unitKey_nat]
    exact stringKeys_getElem? m f cs h

/-- A needle of which the part that the table is built of does not begin within a pair. -/
def Unsplit (m : Memory) (f : CaseFolding) (cs : CaseSensitivity) (needle : StringView) : Prop :=
  let first := needle.size - min needle.size 255
  unitKey m f cs needle first first = unitKey m f cs needle 0 first

variable (m f cs) in
theorem bmInitSkiptable_spec (needle : StringView) :
    ∃ skiptable, bmInitSkiptable m f cs needle = some skiptable ∧
      (Unsplit m f cs needle → Skipping m f cs needle skiptable) := by
  obtain ⟨first, hfirst⟩ : ∃ first, first = needle.size - min needle.size 255 := ⟨_, rfl⟩
  obtain ⟨keys, hkeys⟩ := collect_isSome (f := fun i => unitKey m f cs needle first i) (i := first)
    (n := min needle.size 255) fun j hj => unitKey_isSome (by omega) (by omega)
  refine ⟨_, by rw [bmInitSkiptable, ← hfirst, hkeys]; rfl, fun hunsplit => ?_⟩
  rw [Unsplit, ← hfirst] at hunsplit
  obtain ⟨hlen, hget⟩ := collect_eq_some.mp hkeys
  have hdrop : keys = (stringKeys m f.foldCase32 cs needle).drop
      ((stringKeys m f.foldCase32 cs needle).length - min needle.size 255) := by
    rw [length_stringKeys, ← hfirst]
    apply List.ext_getElem?
    intro j
    rw [List.getElem?_drop, ← unitKey_nat]
    by_cases hj : j < keys.length
    · rw [List.getElem?_eq_getElem hj, ← hget j hj]
      cases j with
      | zero => exact hunsplit
      | succ j => exact unitKey_start (by omega)
    · rw [List.getElem?_eq_none (by omega), unitKey_nat,
        List.getElem?_eq_none (by rw [length_stringKeys]; omega)]
  rw [hdrop]
  exact BoyerMoore.skips_of_last (· % 256) (by rw [length_stringKeys]; omega)

theorem unsplit_sensitive (needle : StringView) : Unsplit m f .sensitive needle := rfl

end

end Libpdk.Lang

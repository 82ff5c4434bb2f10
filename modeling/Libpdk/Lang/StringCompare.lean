import Libpdk.Codecs.Character
import Libpdk.Core.FirstDifference
import Mathlib.Data.List.GetD
import Mathlib.Data.List.Find

/-!
# Comparing strings

A `StringView` is a range of UTF-16 units in memory, a `Latin1String` one of bytes; each may be
null. Which of the loops compares them depends on the build: on the vector instructions there
are, on the optimisation for size and on the sign of `char`.
-/
namespace Libpdk.Lang

section

open Codecs.Character

/-- What the preprocessor and the target say of a build. -/
structure Build where
  sse2 : Bool
  avx2 : Bool
  x86_64 : Bool
  optimizeSize : Bool
  signedChar : Bool
  deriving DecidableEq

structure Memory where
  units : Nat → UInt16
  bytes : Nat → UInt8

/-- A range of memory; addresses count units, or bytes. -/
structure View where
  begin : Option Nat
  size : Nat
  null : begin = none → size = 0

namespace View

def read {α : Type} (v : View) (memory : Nat → α) : List α :=
  (List.range v.size).map fun i => memory (v.begin.getD 0 + i)

end View

/-- mirrors lang/StringView.h:170-212 -/
abbrev StringView := View

/-- mirrors lang/String.h:82-116 -/
abbrev Latin1String := View

inductive CaseSensitivity
  | insensitive
  | sensitive
  deriving DecidableEq

/-! ## Folding -/

/-- mirrors kernel/StringUtils.cpp:36-53 -/
def latin1Lowercased (c : UInt8) : UInt8 :=
  if (0x41 ≤ c ∧ c ≤ 0x5a) ∨ (0xc0 ≤ c ∧ c ≤ 0xde ∧ c ≠ 0xd7) then c + 0x20 else c

/-- What the table of properties says of the bytes.
mirrors lang/UnicodeTables.cpp -/
def foldLatin1 (c : UInt8) : Nat := if c = 0xb5 then 0x3bc else (latin1Lowercased c).toNat

/-- `convert_case_helper<CasefoldTraits>`, of which only the places are known that bytes lead to,
those where they are extended with their sign among them.
mirrors lang/Character.cpp:227-240 -/
structure CaseFolding where
  fold : Nat → Nat
  latin1 : ∀ c : UInt8, fold c.toNat = foldLatin1 c
  halfwidth : ∀ c, 0xff80 ≤ c → c ≤ 0xffff → fold c = c

namespace CaseFolding

/-- mirrors lang/Character.cpp:255-263 -/
def foldCase32 (f : CaseFolding) (c last : UInt16) : Nat :=
  if isLowSurrogate c.toNat && isHighSurrogate last.toNat then f.fold (surrogateToUcs4 last c)
  else f.fold c.toNat

/-- mirrors lang/Character.cpp:265-268 -/
def foldCase16 (f : CaseFolding) (c : UInt16) : UInt16 := UInt16.ofNat (f.fold c.toNat)

end CaseFolding

/-- `static_cast<char16_t>(c)` for a `char` -/
def charToChar16 (b : Build) (c : UInt8) : UInt16 :=
  if b.signedChar ∧ 0x80 ≤ c then 0xff00 + c.toUInt16 else c.toUInt16

/-- mirrors lang/String.cpp:178-192 -/
def stricmpLoop (f : CaseFolding) : UInt16 → UInt16 → Str → Str → Int
  | lhsLast, rhsLast, c :: lhs, d :: rhs =>
    let diff := (f.foldCase32 c lhsLast : Int) - f.foldCase32 d rhsLast
    if diff ≠ 0 then diff else stricmpLoop f c d lhs rhs
  | _, _, [], [] => 0
  | _, _, [], _ :: _ => -1
  | _, _, _ :: _, [] => 1

/-- mirrors lang/String.cpp:160-193 -/
def unicodeStricmp (m : Memory) (f : CaseFolding) (lhs rhs : StringView) : Int :=
  if lhs.begin = rhs.begin then (lhs.size : Int) - rhs.size
  else if lhs.begin = none then rhs.size
  else if rhs.begin = none then -lhs.size
  else stricmpLoop f 0 0 (lhs.read m.units) (rhs.read m.units)

/-- mirrors lang/String.cpp:208-222 -/
def stricmpLatin1Loop (b : Build) (f : CaseFolding) : Str → Bytes → Int
  | c :: lhs, d :: rhs =>
    let diff := ((f.foldCase16 c).toNat : Int) - (f.foldCase16 (charToChar16 b d)).toNat
    if diff ≠ 0 then diff else stricmpLatin1Loop b f lhs rhs
  | [], [] => 0
  | [], _ :: _ => -1
  | _ :: _, [] => 1

/-- mirrors lang/String.cpp:196-223 -/
def unicodeStricmpLatin1 (b : Build) (m : Memory) (f : CaseFolding) (lhs : StringView)
    (rhs : Latin1String) : Int :=
  if lhs.begin = none then rhs.size
  else if rhs.begin = none then -lhs.size
  else stricmpLatin1Loop b f (lhs.read m.units) (rhs.read m.bytes)

/-! ## Comparing with case -/

/-- The difference at the first place at which the units differ.
mirrors lang/String.cpp:111-146 -/
def tailLoop : Str → Str → Int
  | c :: lhs, d :: rhs => if c ≠ d then (c.toNat : Int) - d.toNat else tailLoop lhs rhs
  | _, _ => 0

/-- The difference at the first lane that is not set, if there is one. -/
def mismatch (lhs rhs seen : Str) : Option Int :=
  (List.zip lhs seen).findIdx? (fun (c, d) => c != d) |>.map fun i =>
    ((lhs.getD i 0).toNat : Int) - (rhs.getD i 0).toNat

/-- Blocks of eight units.
mirrors lang/String.cpp:242-260 -/
def blocks8 : Nat → Str → Str → Int
  | 0, lhs, rhs => tailLoop lhs rhs
  | n + 1, lhs, rhs =>
    match mismatch (lhs.take 8) (rhs.take 8) (rhs.take 8) with
    | some diff => diff
    | none => blocks8 n (lhs.drop 8) (rhs.drop 8)

/-- Two units at a time.
mirrors lang/String.cpp:282-297 -/
def pairLoop : Str → Str → Int
  | c :: c' :: lhs, d :: d' :: rhs =>
    if c ≠ d ∨ c' ≠ d' then
      if c ≠ d then (c.toNat : Int) - d.toNat else (c'.toNat : Int) - d'.toNat
    else pairLoop lhs rhs
  | [c], [d] => (c.toNat : Int) - d.toNat
  | _, _ => 0

/-- mirrors lang/String.cpp:265-307 -/
def alignedLoop (lhsBegin rhsBegin : Nat) (lhs rhs : Str) : Int :=
  if lhsBegin % 2 = rhsBegin % 2 then
    if lhsBegin % 2 = 1 then
      match lhs, rhs with
      | c :: lhs, d :: rhs => if c ≠ d then (c.toNat : Int) - d.toNat else pairLoop lhs rhs
      | _, _ => 0
    else pairLoop lhs rhs
  else tailLoop lhs rhs

/-- mirrors lang/String.cpp:226-310 -/
def unicodeStrncmp (b : Build) (m : Memory) (lhs rhs : StringView) (length : Nat) : Int :=
  let l := (lhs.read m.units).take length
  let r := (rhs.read m.units).take length
  if b.optimizeSize then tailLoop l r
  else if b.sse2 then blocks8 (length / 8) l r
  else if length = 0 then 0
  else alignedLoop (lhs.begin.getD 0) (rhs.begin.getD 0) l r

/-- The bytes of a block that its units are compared with. Without AVX2 both halves are the second
one.
mirrors lang/String.cpp:325-341 -/
def unpack (b : Build) (chunk : Bytes) : Str :=
  if b.avx2 then latin1 chunk else latin1 (chunk.drop 8) ++ latin1 (chunk.drop 8)

/-- mirrors lang/String.cpp:348-383 -/
def latin1Tail (b : Build) (lhs : Str) (rhs : Bytes) : Int :=
  if b.x86_64 ∧ 8 ≤ lhs.length then
    match mismatch (lhs.take 8) (latin1 (rhs.take 8)) (latin1 (rhs.take 8)) with
    | some diff => diff
    | none => tailLoop (lhs.drop 8) (latin1 (rhs.drop 8))
  else tailLoop lhs (latin1 rhs)

/-- Blocks of sixteen units.
mirrors lang/String.cpp:322-347 -/
def blocks16 (b : Build) : Nat → Str → Bytes → Int
  | 0, lhs, rhs => latin1Tail b lhs rhs
  | n + 1, lhs, rhs =>
    match mismatch (lhs.take 16) (latin1 (rhs.take 16)) (unpack b (rhs.take 16)) with
    | some diff => diff
    | none => blocks16 b n (lhs.drop 16) (rhs.drop 16)

/-- mirrors lang/String.cpp:312-385 -/
def unicodeStrncmpLatin1 (b : Build) (m : Memory) (lhs : StringView) (rhs : Latin1String)
    (length : Nat) : Int :=
  let l := (lhs.read m.units).take length
  let r := (rhs.read m.bytes).take length
  if b.sse2 then blocks16 b (length / 16) l r else tailLoop l (latin1 r)

/-- mirrors lang/String.cpp:387-393 -/
def lencmp (lhs rhs : Nat) : Int := if lhs = rhs then 0 else if lhs > rhs then 1 else -1

/-- mirrors lang/String.cpp:396-404 -/
def unicodeStrcmp (b : Build) (m : Memory) (lhs rhs : StringView) : Int :=
  if lhs.begin = rhs.begin ∧ lhs.size = rhs.size then 0
  else
    let result := unicodeStrncmp b m lhs rhs (min lhs.size rhs.size)
    if result ≠ 0 then result else lencmp lhs.size rhs.size

/-- mirrors lang/String.cpp:406-411 -/
def unicodeStrcmpLatin1 (b : Build) (m : Memory) (lhs : StringView) (rhs : Latin1String) : Int :=
  let result := unicodeStrncmpLatin1 b m lhs rhs (min lhs.size rhs.size)
  if result ≠ 0 then result else lencmp lhs.size rhs.size

/-! ## Bytes with bytes -/

/-- `std::strncmp`, which goes up to the first zero. -/
def strncmpLoop : Bytes → Bytes → Int
  | c :: lhs, d :: rhs =>
    if c ≠ d then (c.toNat : Int) - d.toNat else if c = 0 then 0 else strncmpLoop lhs rhs
  | _, _ => 0

/-- mirrors kernel/StringUtils.cpp:219-227 -/
def strnicmpLoop : Bytes → Bytes → Int
  | c :: lhs, d :: rhs =>
    let result := ((latin1Lowercased c).toNat : Int) - (latin1Lowercased d).toNat
    if result ≠ 0 then result
    else if latin1Lowercased c = 0 then 0 else strnicmpLoop lhs rhs
  | _, _ => 0

/-- What is returned where one of the pointers is null.
mirrors kernel/StringUtils.h:59-63, kernel/StringUtils.cpp:210-218 -/
def guarded (loop : Bytes → Bytes → Int) (m : Memory) (lhs rhs : Latin1String) (length : Nat) :
    Int :=
  if lhs.begin ≠ none ∧ rhs.begin ≠ none then
    loop ((lhs.read m.bytes).take length) ((rhs.read m.bytes).take length)
  else if lhs.begin ≠ none then 1
  else if rhs.begin ≠ none then -1
  else 0

/-- mirrors kernel/StringUtils.h:59-63 -/
def strncmp : Memory → Latin1String → Latin1String → Nat → Int := guarded strncmpLoop

/-- mirrors kernel/StringUtils.cpp:210-228 -/
def strnicmp : Memory → Latin1String → Latin1String → Nat → Int := guarded strnicmpLoop

/-! ## The four comparisons -/

/-- mirrors lang/String.cpp:413-419 -/
def compareStrings (b : Build) (m : Memory) (f : CaseFolding) (lhs rhs : StringView) :
    CaseSensitivity → Int
  | .sensitive => unicodeStrcmp b m lhs rhs
  | .insensitive => unicodeStricmp m f lhs rhs

/-- mirrors lang/String.cpp:422-428 -/
def compareWithLatin1 (b : Build) (m : Memory) (f : CaseFolding) (lhs : StringView)
    (rhs : Latin1String) : CaseSensitivity → Int
  | .sensitive => unicodeStrcmpLatin1 b m lhs rhs
  | .insensitive => unicodeStricmpLatin1 b m f lhs rhs

/-- mirrors lang/String.cpp:430-433 -/
def compareLatin1With (b : Build) (m : Memory) (f : CaseFolding) (lhs : Latin1String)
    (rhs : StringView) (cs : CaseSensitivity) : Int :=
  -compareWithLatin1 b m f rhs lhs cs

/-- mirrors lang/String.cpp:435-448 -/
def compareLatin1 (m : Memory) (lhs rhs : Latin1String) (cs : CaseSensitivity) : Int :=
  if lhs.size = 0 then lencmp 0 rhs.size
  else
    let length := min lhs.size rhs.size
    let result := match cs with
      | .sensitive => strncmp m lhs rhs length
      | .insensitive => strnicmp m lhs rhs length
    if result ≠ 0 then result else lencmp lhs.size rhs.size

/-- `String == Latin1String`
mirrors lang/String.cpp:1652-1658 -/
def equalsLatin1 (b : Build) (m : Memory) (f : CaseFolding) (lhs : StringView)
    (rhs : Latin1String) : Bool :=
  lhs.size == rhs.size && compareWithLatin1 b m f lhs rhs .sensitive == 0

/-- `String == String`
mirrors lang/String.cpp:1644-1650 -/
def equals (b : Build) (m : Memory) (f : CaseFolding) (lhs rhs : StringView) : Bool :=
  lhs.size == rhs.size && compareStrings b m f lhs rhs .sensitive == 0

end

/-!
## The loops of the comparisons

But for one all loops that compare with case return the first difference, whatever the width of
their blocks (`unicodeStrncmp_eq`, `blocks16_avx2`). The one with SSE2 and not AVX2 takes the
second half of each sixteen bytes for both halves; what it returns is the difference at the
first place that it takes for one (`misread`, `blocks16_sse2`).
-/

/-- The numbers of the units. -/
abbrev numbers (l : Str) : List Nat := l.map UInt16.toNat

theorem sub_ne_zero_iff {c d : UInt16} : ((c.toNat : Int) - d.toNat) ≠ 0 ↔ c ≠ d := by
  rw [ne_eq, ne_eq, ← UInt16.toNat_inj]
  omega

theorem tailLoop_eq (l r : Str) :
    tailLoop l r = firstNonzero (differences (numbers l) (numbers r)) := by
  induction l generalizing r with
  | nil => rfl
  | cons c l ih =>
    cases r with
    | nil => rfl
    | cons d r =>
      show (if c ≠ d then (c.toNat : Int) - d.toNat else tailLoop l r) =
        if ((c.toNat : Int) - d.toNat) ≠ 0 then (c.toNat : Int) - d.toNat
          else firstNonzero (differences (numbers l) (numbers r))
      rw [ih]
      by_cases hcd : c ≠ d
      · rw [if_pos hcd, if_pos (sub_ne_zero_iff.mpr hcd)]
      · rw [if_neg hcd, if_neg (mt sub_ne_zero_iff.mp hcd)]

theorem mismatch_cons (c d : UInt16) (l r : Str) :
    mismatch (c :: l) (d :: r) (d :: r) =
      if c ≠ d then some ((c.toNat : Int) - d.toNat) else mismatch l r r := by
  by_cases hcd : c = d
  · simp [mismatch, hcd, List.findIdx?_cons, Function.comp_def]
  · simp [mismatch, hcd, List.findIdx?_cons]

/-- The lanes of a block that is read as it is. -/
theorem mismatch_eq (l r : Str) : mismatch l r r =
    if tailLoop l r ≠ 0 then some (tailLoop l r) else none := by
  induction l generalizing r with
  | nil => simp [mismatch, tailLoop]
  | cons c l ih =>
    cases r with
    | nil => simp [mismatch, tailLoop]
    | cons d r =>
      rw [mismatch_cons, ih]
      by_cases hcd : c = d
      · simp [tailLoop, hcd]
      · simp [tailLoop, hcd, sub_ne_zero_iff.mpr hcd]

theorem tailLoop_append {l r l' r' : Str} (h : l.length = r.length) :
    tailLoop (l ++ l') (r ++ r') =
      if tailLoop l r ≠ 0 then tailLoop l r else tailLoop l' r' := by
  simp only [tailLoop_eq, numbers, List.map_append]
  rw [differences_append (by simpa using h), firstNonzero_append]

/-- A block and the rest. -/
theorem tailLoop_block {l r : Str} (h : l.length = r.length) (k : Nat) :
    (match mismatch (l.take k) (r.take k) (r.take k) with
      | some diff => diff
      | none => tailLoop (l.drop k) (r.drop k)) = tailLoop l r := by
  have hlen : (l.take k).length = (r.take k).length := by
    rw [List.length_take, List.length_take, h]
  conv_rhs => rw [← List.take_append_drop k l, ← List.take_append_drop k r, tailLoop_append hlen]
  rw [mismatch_eq]
  split <;> rename_i hm
  · split at hm <;> simp_all
  · split at hm <;> simp_all

theorem blocks8_eq (n : Nat) : ∀ {l r : Str}, l.length = r.length →
    blocks8 n l r = tailLoop l r := by
  induction n with
  | zero => exact fun _ => rfl
  | succ n ih =>
    intro l r h
    rw [blocks8, ih (by rw [List.length_drop, List.length_drop, h])]
    exact tailLoop_block h 8

theorem pairLoop_eq : ∀ {l r : Str}, l.length = r.length → pairLoop l r = tailLoop l r
  | [], [], _ => rfl
  | [c], [d], _ => by
    by_cases hcd : c = d <;> simp [pairLoop, tailLoop, hcd]
  | c :: c' :: l, d :: d' :: r, h => by
    have hlen : l.length = r.length := by simpa using h
    rw [pairLoop, tailLoop, tailLoop, pairLoop_eq hlen]
    by_cases hcd : c = d <;> by_cases hcd' : c' = d' <;> simp [hcd, hcd']

theorem alignedLoop_eq (p q : Nat) {l r : Str} (h : l.length = r.length) :
    alignedLoop p q l r = tailLoop l r := by
  unfold alignedLoop
  by_cases hsame : p % 2 = q % 2
  · rw [if_pos hsame]
    by_cases hodd : p % 2 = 1
    · rw [if_pos hodd]
      cases l with
      | nil => rfl
      | cons c l =>
        cases r with
        | nil => cases h
        | cons d r =>
          have hlen : l.length = r.length := by simpa using h
          show (if c ≠ d then (c.toNat : Int) - d.toNat else pairLoop l r) = _
          rw [pairLoop_eq hlen]
          rfl
    · rw [if_neg hodd, pairLoop_eq h]
  · rw [if_neg hsame]

theorem View.length_read {α : Type} (v : View) (memory : Nat → α) :
    (v.read memory).length = v.size := by
  simp [View.read]

/-- On each build the units are compared up to the first that differ. -/
theorem unicodeStrncmp_eq (b : Build) (m : Memory) (lhs rhs : StringView) {length : Nat}
    (hl : length ≤ lhs.size) (hr : length ≤ rhs.size) :
    unicodeStrncmp b m lhs rhs length =
      tailLoop ((lhs.read m.units).take length) ((rhs.read m.units).take length) := by
  have hlen : ((lhs.read m.units).take length).length =
      ((rhs.read m.units).take length).length := by
    rw [List.length_take, List.length_take, View.length_read, View.length_read]
    omega
  rw [unicodeStrncmp]
  split
  · rfl
  · split
    · exact blocks8_eq _ hlen
    · split
      · rename_i hz
        rw [hz]
        rfl
      · exact alignedLoop_eq _ _ hlen

/-! ## Units with bytes -/

theorem latin1Tail_eq (b : Build) {l : Str} {r : Bytes} (h : l.length = r.length) :
    latin1Tail b l r = tailLoop l (latin1 r) := by
  rw [latin1Tail]
  split
  · have hlen : l.length = (latin1 r).length := by simpa [latin1] using h
    have htake : latin1 (r.take 8) = (latin1 r).take 8 := List.map_take
    have hdrop : latin1 (r.drop 8) = (latin1 r).drop 8 := List.map_drop
    rw [htake, hdrop]
    exact tailLoop_block hlen 8
  · rfl

theorem blocks16_avx2 {b : Build} (hb : b.avx2 = true) (n : Nat) : ∀ {l : Str} {r : Bytes},
    l.length = r.length → blocks16 b n l r = tailLoop l (latin1 r) := by
  induction n with
  | zero => exact fun h => latin1Tail_eq b h
  | succ n ih =>
    intro l r h
    have hlen : l.length = (latin1 r).length := by simpa [latin1] using h
    have htake : latin1 (r.take 16) = (latin1 r).take 16 := List.map_take
    have hdrop : latin1 (r.drop 16) = (latin1 r).drop 16 := List.map_drop
    rw [blocks16, unpack, if_pos hb, ih (by rw [List.length_drop, List.length_drop, h]), htake,
      hdrop]
    exact tailLoop_block hlen 16

/-- Which byte the unit at `k` is compared with without AVX2, where `n` units are compared. -/
def mate (n k : Nat) : Nat := if k < n / 16 * 16 then k / 16 * 16 + 8 + k % 8 else k

/-- The first place of `n` that is taken for a difference. -/
def misread (n : Nat) (a b : Bytes) : Option Nat :=
  (List.range n).find? fun k => a.getD k 0 != b.getD (mate n k) 0

def differenceAt (l r : Str) : Option Nat → Int
  | none => 0
  | some k => ((l.getD k 0).toNat : Int) - (r.getD k 0).toNat

theorem findIdx?_zip : ∀ {l s : Str}, l.length = s.length →
    (List.zip l s).findIdx? (fun (c, d) => c != d) =
      (List.range l.length).find? fun k => l.getD k 0 != s.getD k 0
  | [], [], _ => rfl
  | c :: l, d :: s, h => by
    have hlen : l.length = s.length := by simpa using h
    rw [List.zip_cons_cons, List.findIdx?_cons, findIdx?_zip hlen, List.length_cons,
      List.range_succ_eq_map, List.find?_cons, List.find?_map]
    by_cases hcd : c = d
    · simp only [hcd, bne_self_eq_false, Bool.false_eq_true, if_false, List.getD_cons_zero]
      congr 1
    · have hne : (c != d) = true := by simpa using hcd
      simp [hne]

theorem mismatch_find {l r seen : Str} (h : l.length = seen.length) : mismatch l r seen =
    ((List.range l.length).find? fun k => l.getD k 0 != seen.getD k 0).map
      fun k => differenceAt l r (some k) := by
  rw [mismatch, findIdx?_zip h]
  rfl

theorem tailLoop_find {l r : Str} (h : l.length = r.length) : tailLoop l r =
    differenceAt l r ((List.range l.length).find? fun k => l.getD k 0 != r.getD k 0) := by
  have hm := mismatch_eq l r
  rw [mismatch_find h] at hm
  cases hf : (List.range l.length).find? fun k => l.getD k 0 != r.getD k 0 with
  | none =>
    rw [hf, Option.map_none] at hm
    by_contra hne
    have hnz : tailLoop l r ≠ 0 := hne
    rw [if_pos hnz] at hm
    cases hm
  | some k =>
    rw [hf, Option.map_some] at hm
    by_cases hz : tailLoop l r ≠ 0
    · rw [if_pos hz] at hm
      exact (Option.some.inj hm).symm
    · rw [if_neg hz] at hm
      cases hm

theorem getD_latin1 (a : Bytes) (k : Nat) :
    (latin1 a).getD k 0 = (a.getD k 0).toUInt16 := List.getD_map a 0 UInt8.toUInt16

theorem bne_latin1 (c d : UInt8) : (c.toUInt16 != d.toUInt16) = (c != d) := by
  have hiff : c.toUInt16 = d.toUInt16 ↔ c = d := by
    rw [← UInt16.toNat_inj, UInt8.toNat_toUInt16, UInt8.toNat_toUInt16, UInt8.toNat_inj]
  rw [Bool.eq_iff_iff]
  simp only [bne_iff_ne, ne_eq, hiff]

/-- What a unit of a whole block is compared with. -/
theorem getD_unpack {b : Build} (hb : b.avx2 = false) {r : Bytes} (hr : 16 ≤ r.length) {k : Nat}
    (hk : k < 16) : (unpack b (r.take 16)).getD k 0 = (r.getD (8 + k % 8) 0).toUInt16 := by
  have hhalf : ∀ j < 8, (latin1 ((r.take 16).drop 8)).getD j 0 = (r.getD (8 + j) 0).toUInt16 := by
    intro j hj
    rw [getD_latin1, List.getD_eq_getElem?_getD, List.getElem?_drop, List.getElem?_take,
      if_pos (by omega), ← List.getD_eq_getElem?_getD]
  have hlen : (latin1 ((r.take 16).drop 8)).length = 8 := by
    rw [latin1, List.length_map, List.length_drop, List.length_take]
    omega
  rw [unpack, if_neg (by simp [hb])]
  by_cases hlow : k < 8
  · rw [List.getD_append _ _ _ _ (by omega), hhalf k hlow, Nat.mod_eq_of_lt hlow]
  · rw [List.getD_append_right _ _ _ _ (by omega), hlen, hhalf (k - 8) (by omega)]
    congr 3
    omega

/-- A block that is whole comes first. -/
theorem misread_add (n : Nat) (a r : Bytes) : misread (16 + n) a r =
    ((List.range 16).find? fun k => a.getD k 0 != r.getD (8 + k % 8) 0).or
      ((misread n (a.drop 16) (r.drop 16)).map (16 + ·)) := by
  rw [misread, List.range_add, List.find?_append, List.find?_map, misread]
  congr 1
  · refine List.find?_congr fun k hk => ?_
    have hk := List.mem_range.mp hk
    have hmate : mate (16 + n) k = 8 + k % 8 := by
      simp only [mate]
      split <;> omega
    rw [hmate]
  · congr 1
    refine List.find?_congr fun k _ => ?_
    have hmate : mate (16 + n) (16 + k) = 16 + mate n k := by
      simp only [mate]
      split <;> split <;> omega
    simp only [Function.comp_apply, hmate, List.getD_eq_getElem?_getD, List.getElem?_drop]

theorem differenceAt_drop (l r : Str) (k : Nat) :
    differenceAt (l.drop 16) (r.drop 16) (some k) = differenceAt l r (some (16 + k)) := by
  simp only [differenceAt, List.getD_eq_getElem?_getD, List.getElem?_drop]

/-- What is returned without AVX2 is the difference at the place that is taken for one. -/
theorem blocks16_sse2 {b : Build} (hb : b.avx2 = false) (q : Nat) : ∀ {n : Nat} {a r : Bytes},
    a.length = n → r.length = n → n / 16 = q →
    blocks16 b q (latin1 a) r = differenceAt (latin1 a) (latin1 r) (misread n a r) := by
  induction q with
  | zero =>
    intro n a r ha hr hq
    have hlen : (latin1 a).length = (latin1 r).length := by simp [latin1, ha, hr]
    have hn : (latin1 a).length = n := by simp [latin1, ha]
    rw [blocks16, latin1Tail_eq b (by simp [latin1, ha, hr]), tailLoop_find hlen, misread, hn]
    congr 1
    refine List.find?_congr fun k _ => ?_
    rw [getD_latin1, getD_latin1, bne_latin1, mate, if_neg (by omega)]
  | succ q ih =>
    intro n a r ha hr hq
    obtain ⟨n, rfl⟩ : ∃ n', n = 16 + n' := ⟨n - 16, by omega⟩
    have hlen : ((latin1 a).take 16).length = (unpack b (r.take 16)).length := by
      rw [unpack, if_neg (by simp [hb])]
      simp only [latin1, List.length_take, List.length_map, List.length_append, List.length_drop]
      omega
    have hsixteen : ((latin1 a).take 16).length = 16 := by
      simp only [latin1, List.length_take, List.length_map]
      omega
    have hfind : ((List.range 16).find? fun k =>
        ((latin1 a).take 16).getD k 0 != (unpack b (r.take 16)).getD k 0) =
          (List.range 16).find? fun k => a.getD k 0 != r.getD (8 + k % 8) 0 := by
      refine List.find?_congr fun k hk => ?_
      have hk := List.mem_range.mp hk
      have htake : ((latin1 a).take 16).getD k 0 = (latin1 a).getD k 0 := by
        rw [List.getD_eq_getElem?_getD, List.getElem?_take, if_pos hk,
          ← List.getD_eq_getElem?_getD]
      rw [htake, getD_latin1, getD_unpack hb (by omega) hk, bne_latin1]
    rw [blocks16, mismatch_find hlen, hsixteen, hfind, misread_add]
    cases hf : (List.range 16).find? fun k => a.getD k 0 != r.getD (8 + k % 8) 0 with
    | some k =>
      have hk := List.mem_range.mp (List.mem_of_find?_eq_some hf)
      have htake : latin1 (r.take 16) = (latin1 r).take 16 := List.map_take
      simp only [Option.map_some, Option.some_or, differenceAt, htake,
        List.getD_eq_getElem?_getD, List.getElem?_take, if_pos hk]
    | none =>
      have hdrop : (latin1 a).drop 16 = latin1 (a.drop 16) := List.map_drop.symm
      have hrest := ih (n := n) (a := a.drop 16) (r := r.drop 16) (by simp [ha]) (by simp [hr])
        (by omega)
      simp only [Option.map_none, Option.none_or, hdrop, hrest]
      cases misread n (a.drop 16) (r.drop 16) with
      | none => rfl
      | some k =>
        have hdrop' : latin1 (r.drop 16) = (latin1 r).drop 16 := List.map_drop
        rw [← hdrop, hdrop', differenceAt_drop, Option.map_some]

end Libpdk.Lang

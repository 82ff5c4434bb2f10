import Libpdk.Io.DataStream
import Libpdk.Io.IoDeviceRefines

/-!
# What a data stream writes

`wire`: the bytes that a value is written as. They depend on the byte order of the
stream and not on that of the machine. Writing at the end of a file appends them; a
block whose length is no `int` is not written, and then nothing is any more.
-/
namespace Libpdk.Io

open ByteQueue Mem

/-! ## Numbers in memory -/

/-- The bytes of a number in a byte order. -/
def fixedBytes (bo : ByteOrder) (n v : Nat) : Bytes :=
  match bo with
  | .littleEndian => toLe n v
  | .bigEndian => (toLe n v).reverse

@[simp] theorem length_fixedBytes (bo : ByteOrder) (n v : Nat) :
    (fixedBytes bo n v).length = n := by
  cases bo <;> simp [fixedBytes]

theorem toLe_bswap (n v : Nat) : toLe n (bswap n v) = (toLe n v).reverse := by
  rw [bswap]
  exact toLe_ofLe (by simp)

theorem bswap_lt (n v : Nat) : bswap n v < 256 ^ n := by
  have := ofLe_lt (toLe n v).reverse
  rwa [List.length_reverse, length_toLe] at this

section Host

variable [Host]

/-- The swap that brings a number into the byte order of the stream. -/
def swapped (bo : ByteOrder) (n v : Nat) : Nat :=
  if Host.byteOrder = bo then v else bswap n v

theorem memory_swapped (bo : ByteOrder) (n v : Nat) :
    memory n (swapped bo n v) = fixedBytes bo n v := by
  rw [memory, swapped]
  cases Host.byteOrder <;> cases bo <;> simp [fixedBytes, toLe_bswap]

theorem swapped_ofMemory {n v : Nat} (bo : ByteOrder) (hv : v < 256 ^ n) :
    swapped bo n (ofMemory (fixedBytes bo n v)) = v := by
  have hback : ofLe (toLe n (ofLe (toLe n v).reverse)).reverse = v := by
    rw [toLe_ofLe (by simp), List.reverse_reverse, ofLe_toLe hv]
  rw [swapped, ofMemory]
  cases Host.byteOrder <;> cases bo <;> simp [fixedBytes, bswap, ofLe_toLe hv, hback]

theorem ofMemory_lt (bytes : Bytes) : ofMemory bytes < 256 ^ bytes.length := by
  rw [ofMemory]
  cases Host.byteOrder with
  | littleEndian => exact ofLe_lt bytes
  | bigEndian =>
    have := ofLe_lt bytes.reverse
    rwa [List.length_reverse] at this

theorem rawData_swapped (bo : ByteOrder) (str : Str) :
    rawData (if Host.byteOrder = bo then str else str.map bswapUnit) =
      str.flatMap fun unit => fixedBytes bo 2 unit.toNat := by
  have hunit (unit : UInt16) :
      memory 2 (if Host.byteOrder = bo then unit else bswapUnit unit).toNat =
      fixedBytes bo 2 unit.toNat := by
    rw [← memory_swapped, swapped]
    split
    · rfl
    · rw [bswapUnit, UInt16.toNat_ofNat_of_lt' (bswap_lt 2 _)]
  split
  · rename_i h
    simp only [rawData]
    congr 1
    funext unit
    rw [← hunit unit, if_pos h]
  · rename_i h
    simp only [rawData, List.flatMap_map]
    congr 1
    funext unit
    rw [← hunit unit, if_neg h]

theorem ofRawData_flatMap (bo : ByteOrder) : ∀ str : Str,
    (if Host.byteOrder = bo then ofRawData (str.flatMap fun unit => fixedBytes bo 2 unit.toNat)
      else (ofRawData (str.flatMap fun unit => fixedBytes bo 2 unit.toNat)).map bswapUnit) = str
  | [] => by simp [ofRawData]
  | unit :: str => by
    have ih := ofRawData_flatMap bo str
    have hunit := swapped_ofMemory bo (show unit.toNat < 256 ^ 2 from unit.toNat_lt)
    obtain ⟨a, b, hab⟩ := List.length_eq_two.mp (length_fixedBytes bo 2 unit.toNat)
    rw [hab, swapped] at hunit
    rw [List.flatMap_cons, hab, List.cons_append, List.cons_append, List.nil_append, ofRawData]
    split
    · rename_i h
      rw [if_pos h] at ih hunit
      rw [ih, hunit, UInt16.ofNat_toNat]
    · rename_i h
      rw [if_neg h] at ih hunit
      have hlt := ofMemory_lt [a, b]
      rw [show [a, b].length = 2 from rfl] at hlt
      rw [List.map_cons, ih, bswapUnit, UInt16.toNat_ofNat_of_lt' (by simpa using hlt), hunit,
        UInt16.ofNat_toNat]

end Host

/-! ## The bytes of a value -/

/-- The bytes of the elements, as far as they can be written. -/
def wireElements {α : Type} (wire : α → Bytes × Bool) : List α → Bytes × Bool
  | [] => ([], true)
  | x :: xs =>
    if (wire x).2 then ((wire x).1 ++ (wireElements wire xs).1, (wireElements wire xs).2)
    else ((wire x).1, false)

/-- A block that is too long is not written behind its length; with the length that is -1
as an `int` this is not even noticed. -/
def blockWire (bo : ByteOrder) (data : Bytes) : Bytes × Bool :=
  (fixedBytes bo 4 data.length ++ if data.length < 2147483648 then data else [],
    data.length < 2147483648 ∨ data.length = 4294967295)

def stringWire (bo : ByteOrder) : Option Str → Bytes
  | none => fixedBytes bo 4 4294967295
  | some str =>
    fixedBytes bo 4 (2 * str.length) ++ str.flatMap fun unit => fixedBytes bo 2 unit.toNat

def floatWire (bo : ByteOrder) (precision : FloatingPointPrecision) (f : Binary32) : Bytes :=
  match precision with
  | .doublePrecision => fixedBytes bo 8 f.widen.toBits
  | .singlePrecision => fixedBytes bo 4 f.toBits

def doubleWire (bo : ByteOrder) (precision : FloatingPointPrecision) (d : Binary64) : Bytes :=
  match precision with
  | .doublePrecision => fixedBytes bo 8 d.toBits
  | .singlePrecision => fixedBytes bo 4 d.narrow.toBits

namespace Ty

/-- The bytes that a value is written as, and whether the stream can go on. -/
def wire (bo : ByteOrder) (precision : FloatingPointPrecision) : (t : Ty) → t.Val → Bytes × Bool
  | pint8, v | puint8, v => ([UInt8.ofNat v.toNat], true)
  | pint16, v | puint16, v => (fixedBytes bo 2 v.toNat, true)
  | pint32, v | puint32, v => (fixedBytes bo 4 v.toNat, true)
  | pint64, v | puint64, v => (fixedBytes bo 8 v.toNat, true)
  | bool, v => ([UInt8.ofNat v.toNat], true)
  | float, v => (floatWire bo precision v, true)
  | double, v => (doubleWire bo precision v, true)
  | string, v => (stringWire bo v, true)
  | block, v => blockWire bo v
  | vector t, v | list t, v =>
    (fixedBytes bo 4 (v.length % 4294967296) ++ (wireElements (wire bo precision t) v).1,
      (wireElements (wire bo precision t) v).2)

/-- The values that a program can have: the length of a block is a `uint`, a string fits
into memory; and the doubles that are to be kept are those of the precision. -/
def Fits (precision : FloatingPointPrecision) : (t : Ty) → t.Val → Prop
  | double, v => precision = .singlePrecision → ∃ f : Binary32, f.widen = v
  | string, v => ∀ str, v = some str → str.length < 1073741824
  | block, v => v.length < 4294967296
  | vector t, v | list t, v => ∀ x ∈ v, Fits precision t x
  | _, _ => True

end Ty

namespace DataStream

variable {B D : Type} [ByteQueue B] [ByteFileDevice D] [Host]

/-- The settings of a stream. -/
structure Settings (s : DataStream B D) (bo : ByteOrder) (precision : FloatingPointPrecision) :
    Prop where
  byteorder : s.byteorder = bo
  noswap : s.noswap = decide (Host.byteOrder = bo)
  version : s.version = defaultCompiledVersion
  precision : s.floatingPointPrecision = precision

/-- The stream is at the end of the file, which is `data`, and can write. -/
structure AtEnd (s : DataStream B D) (bo : ByteOrder) (precision : FloatingPointPrecision)
    (data : Bytes) : Prop where
  settings : Settings s bo precision
  holds : ∃ readable, IoDevice.Holds s.device ⟨readable, true, data, data.length, none⟩

variable {bo : ByteOrder} {precision : FloatingPointPrecision} {s : DataStream B D} {data : Bytes}

/-- After a write: the bytes are appended, and the status says whether all was written. -/
structure Wrote (s : DataStream B D) (bo : ByteOrder) (precision : FloatingPointPrecision)
    (data : Bytes) (ok : Bool) : Prop where
  atEnd : AtEnd s bo precision data
  status : s.status = if ok then .ok else .writeFailed

theorem writeDevice_wrote (h : AtEnd s bo precision data) (hs : s.status = .ok) (bytes : Bytes) :
    Wrote (s.writeDevice bytes) bo precision (data ++ bytes) true := by
  obtain ⟨readable, hh⟩ := h.holds
  obtain ⟨h1, h2⟩ := IoDevice.write_holds hh bytes
  simp only [Cursor.write, not_true_eq_false, if_false] at h1 h2
  refine ⟨⟨⟨h.settings.byteorder, h.settings.noswap, h.settings.version, h.settings.precision⟩,
    readable, ?_⟩, ?_⟩
  · have hend : Cursor.overwrite data data.length bytes = data ++ bytes := by
      rw [Cursor.overwrite, List.take_length, List.drop_of_length_le (Nat.le_add_right _ _),
        List.append_nil]
    rw [hend, ← List.length_append] at h2
    exact h2
  · simp [writeDevice, h1, hs]

theorem writeFixed_wrote (h : AtEnd s bo precision data) (hs : s.status = .ok) (n v : Nat) :
    Wrote (writeFixed n s v) bo precision (data ++ fixedBytes bo n v) true := by
  have hswap : (if s.noswap then v else bswap n v) = swapped bo n v := by
    rw [h.settings.noswap, swapped]
    simp
  rw [writeFixed, if_neg (by simp [hs]), hswap, memory_swapped]
  exact writeDevice_wrote h hs _

theorem writeRawData_wrote (h : AtEnd s bo precision data) (hs : s.status = .ok) {bytes : Bytes}
    (hlt : bytes.length < 4294967296) :
    Wrote (s.writeRawData bytes) bo precision
      (data ++ if bytes.length < 2147483648 then bytes else [])
      (bytes.length < 2147483648 ∨ bytes.length = 4294967295) := by
  rw [writeRawData, if_neg (by simp [hs])]
  by_cases hint : bytes.length < 2147483648
  · have hlen : asInt bytes.length = bytes.length := if_pos hint
    rw [hlen]
    simp only
    rw [if_neg (by omega), if_pos hint]
    have hw := writeDevice_wrote h hs bytes
    refine ⟨hw.atEnd, hw.status.trans ?_⟩
    simp [hint]
  · have hlen : asInt bytes.length = (bytes.length : Int) - 4294967296 := if_neg hint
    rw [hlen]
    simp only
    rw [if_pos (by omega), if_neg hint, List.append_nil]
    refine ⟨⟨⟨h.settings.byteorder, h.settings.noswap, h.settings.version, h.settings.precision⟩,
      h.holds⟩, ?_⟩
    by_cases hend : bytes.length = 4294967295
    · simp [hend, hs]
    · have hne : (-1 : Int) ≠ bytes.length - 4294967296 := by omega
      simp [hint, hend, hne]

theorem writeBytes_wrote (h : AtEnd s bo precision data) (hs : s.status = .ok) (bytes : Bytes)
    (hlt : bytes.length < 4294967296) :
    Wrote (s.writeBytes bytes) bo precision (data ++ (blockWire bo bytes).1)
      (blockWire bo bytes).2 := by
  have hlen : (BitVec.ofNat 32 bytes.length).toNat = bytes.length := by
    rw [BitVec.toNat_ofNat]
    exact Nat.mod_eq_of_lt hlt
  have hw : Wrote (s.writeInt32 (BitVec.ofNat 32 bytes.length)) bo precision
      (data ++ fixedBytes bo 4 bytes.length) true := by
    rw [writeInt32, hlen]
    exact writeFixed_wrote h hs 4 _
  rw [writeBytes, if_neg (by simp [hs]), blockWire, ← List.append_assoc]
  simp only
  by_cases hempty : bytes.length = 0
  · rw [if_neg (by simp [hempty])]
    obtain rfl : bytes = [] := List.length_eq_zero_iff.mp hempty
    simpa using hw
  · rw [if_pos hempty]
    exact writeRawData_wrote hw.atEnd hw.status hlt

theorem writeString_wrote (h : AtEnd s bo precision data) (hs : s.status = .ok) (str : Option Str)
    (hfits : ∀ l, str = some l → l.length < 1073741824) :
    Wrote (s.writeString str) bo precision (data ++ stringWire bo str) true := by
  cases str with
  | none => exact writeFixed_wrote h hs 4 _
  | some str =>
    have hlt := hfits str rfl
    have hraw : (if (s.byteorder == .bigEndian) == (Host.byteOrder == .bigEndian) then
          s.writeBytes (rawData str)
        else s.writeBytes (rawData (str.map bswapUnit))) =
        s.writeBytes (str.flatMap fun unit => fixedBytes bo 2 unit.toNat) := by
      rw [h.settings.byteorder, ← rawData_swapped bo str]
      cases Host.byteOrder <;> cases bo <;> rfl
    have hlen : (str.flatMap fun unit => fixedBytes bo 2 unit.toNat).length = 2 * str.length := by
      simp [List.length_flatMap, Nat.mul_comm]
    have hw := writeBytes_wrote h hs (str.flatMap fun unit => fixedBytes bo 2 unit.toNat) (by omega)
    rw [blockWire, hlen, if_pos (by omega)] at hw
    rw [writeString, hraw, stringWire]
    refine ⟨hw.atEnd, hw.status.trans ?_⟩
    rw [if_pos (by simp; omega)]
    rfl

/-- A stream that failed writes nothing. -/
theorem write_failed : ∀ (t : Ty) {s : DataStream B D} (_ : s.status ≠ .ok) (v : t.Val),
    write t s v = s
  | .pint8, _, h, _ | .puint8, _, h, _ | .bool, _, h, _ => if_pos h
  | .pint16, _, h, _ | .puint16, _, h, _ | .pint32, _, h, _ | .puint32, _, h, _
  | .pint64, _, h, _ | .puint64, _, h, _ | .block, _, h, _ => if_pos h
  | .float, s, h, _ => by
    rw [write, writeFloat]
    cases s.floatingPointPrecision <;> exact if_pos h
  | .double, s, h, _ => by
    rw [write, writeDouble]
    cases s.floatingPointPrecision <;> exact if_pos h
  | .string, s, h, none => if_pos h
  | .string, s, h, some str => by
    rw [write, writeString]
    split <;> exact if_pos h
  | .vector t, s, h, v | .list t, s, h, v => by
    have hfold : ∀ c : List t.Val, c.foldl (write t) s = s := by
      intro c
      induction c with
      | nil => rfl
      | cons x c ih => rw [List.foldl_cons, write_failed t h, ih]
    rw [write, writeContainer, writeInt32, show writeFixed 4 s _ = s from if_pos h]
    exact hfold v

theorem writeElements_wrote {t : Ty}
    (hwrite : ∀ {s : DataStream B D} {data : Bytes} (v : t.Val), AtEnd s bo precision data →
      s.status = .ok → t.Fits precision v →
      Wrote (write t s v) bo precision (data ++ (t.wire bo precision v).1)
        (t.wire bo precision v).2) :
    ∀ (c : List t.Val) {s : DataStream B D} {data : Bytes}, AtEnd s bo precision data →
      s.status = .ok → (∀ x ∈ c, t.Fits precision x) →
      Wrote (c.foldl (write t) s) bo precision
        (data ++ (wireElements (t.wire bo precision) c).1)
        (wireElements (t.wire bo precision) c).2
  | [], s, data, h, hs, _ => by
    simp only [wireElements, List.append_nil]
    exact ⟨h, hs⟩
  | x :: c, s, data, h, hs, hfits => by
    have hw := hwrite x h hs (hfits x (by simp))
    rw [List.foldl_cons, wireElements]
    cases hok : (t.wire bo precision x).2 with
    | true =>
      rw [hok] at hw
      have ih := writeElements_wrote hwrite c hw.atEnd hw.status fun y hy =>
        hfits y (by simp [hy])
      rw [if_pos rfl, ← List.append_assoc]
      exact ih
    | false =>
      rw [hok] at hw
      have hfailed : (write t s x).status ≠ .ok := by
        rw [hw.status]
        simp
      have hfold : ∀ c : List t.Val, c.foldl (write t) (write t s x) = write t s x := by
        intro c
        induction c with
        | nil => rfl
        | cons y c ih => rw [List.foldl_cons, write_failed t hfailed, ih]
      rw [if_neg (by simp), hfold]
      exact hw

/-- Writing appends the bytes of the value. -/
theorem write_wrote : ∀ (t : Ty) {s : DataStream B D} {data : Bytes} (v : t.Val),
    AtEnd s bo precision data → s.status = .ok → t.Fits precision v →
    Wrote (write t s v) bo precision (data ++ (t.wire bo precision v).1) (t.wire bo precision v).2
  | .pint8, s, data, v, h, hs, _ | .puint8, s, data, v, h, hs, _
  | .bool, s, data, v, h, hs, _ => by
    have hw := writeDevice_wrote h hs [UInt8.ofNat v.toNat]
    rwa [← show write _ s v = _ from if_neg (by simp [hs])] at hw
  | .pint16, s, data, v, h, hs, _ | .puint16, s, data, v, h, hs, _ => writeFixed_wrote h hs 2 _
  | .pint32, s, data, v, h, hs, _ | .puint32, s, data, v, h, hs, _ => writeFixed_wrote h hs 4 _
  | .pint64, s, data, v, h, hs, _ | .puint64, s, data, v, h, hs, _ => writeFixed_wrote h hs 8 _
  | .float, s, data, v, h, hs, _ => by
    rw [write, writeFloat, h.settings.precision]
    cases precision with
    | singlePrecision => exact writeFixed_wrote h hs 4 _
    | doublePrecision => exact writeFixed_wrote h hs 8 _
  | .double, s, data, v, h, hs, _ => by
    rw [write, writeDouble, h.settings.precision]
    cases precision with
    | singlePrecision => exact writeFixed_wrote h hs 4 _
    | doublePrecision => exact writeFixed_wrote h hs 8 _
  | .string, s, data, v, h, hs, hfits => writeString_wrote h hs v hfits
  | .block, s, data, v, h, hs, hfits => writeBytes_wrote h hs v hfits
  | .vector t, s, data, v, h, hs, hfits | .list t, s, data, v, h, hs, hfits => by
    have hw : Wrote (s.writeInt32 (BitVec.ofNat 32 v.length)) bo precision
        (data ++ fixedBytes bo 4 (v.length % 4294967296)) true := by
      rw [writeInt32, BitVec.toNat_ofNat]
      exact writeFixed_wrote h hs 4 _
    rw [write, writeContainer, Ty.wire, ← List.append_assoc]
    exact writeElements_wrote (write_wrote t) v hw.atEnd hw.status hfits

end DataStream

end Libpdk.Io

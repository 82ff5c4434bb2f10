import Libpdk.Io.RandomAccessRead

/-!
# Buffers

`Buffer`: a random-access device over a byte array in memory. Its virtual functions read and write
at the position of the base; seeking beyond the end fills the gap through `write`. Sizes that the
code keeps in an `int` are `narrow`; `none` stands for `std::bad_alloc`, or a copy outside the
array.
-/
namespace Libpdk.Io

open PushQueue

/-- mirrors io/Buffer.cpp:46-47 -/
structure Buffer where
  bytes : Bytes

structure OpenMode where
  readOnly : Bool
  writeOnly : Bool
  append : Bool
  truncate : Bool
  text : Bool

namespace Buffer

variable {B : Type} [PushQueue B]

/-- Conversion to `int`. -/
def narrow (n : Int) : Int := n.bmod (2 ^ 32)

def size (s : RandomAccess B Buffer) : Nat := s.device.bytes.length

/-- mirrors io/Buffer.cpp:214-222 -/
def readData (s : RandomAccess B Buffer) (len : Nat) : Option Bytes × RandomAccess B Buffer :=
  let len : Int := min len (size s - s.pos)
  if len ≤ 0 then (some [], s) else (some ((s.device.bytes.drop s.pos).take len.toNat), s)

/-- `ByteArray::resize`
mirrors ds/ByteArray.cpp:551-590 -/
def resize (bytes : Bytes) (newSize : Int) : Option Bytes :=
  if newSize ≥ maxByteArraySize then none
  else some (bytes.take newSize.toNat ++ List.replicate (newSize.toNat - bytes.length) 0)

/-- mirrors io/Buffer.cpp:224-247 -/
def writeData (s : RandomAccess B Buffer) (data : Bytes) :
    Option (Option Nat × RandomAccess B Buffer) := do
  let extraBytes := narrow (s.pos + data.length - size s)
  let bytes ← if extraBytes > 0 then resize s.device.bytes (size s + extraBytes)
    else some s.device.bytes
  let len := narrow data.length
  if 0 ≤ len ∧ s.pos + len ≤ bytes.length then
    some (some data.length,
      { s with device := ⟨Cursor.overwrite bytes s.pos (data.take len.toNat)⟩ })
  else none

/-- `ByteArray(gapSize, 0)`
mirrors ds/ByteArray.cpp:90-101 -/
def filled (gapSize : Int) : Option Bytes :=
  if narrow gapSize ≤ 0 then some []
  else if narrow gapSize ≥ maxByteArraySize then none
  else some (List.replicate (narrow gapSize).toNat 0)

/-- The depth is that of the calls of `seek` within `seek`.
mirrors io/Buffer.cpp:185-204 -/
def seek : Nat → RandomAccess B Buffer → Int → Option (Bool × RandomAccess B Buffer)
  | 0, _, _ => none
  | depth + 1, s, pos =>
    if pos > size s ∧ s.writable then do
      let (atSize, s) ← seek depth s (size s)
      if atSize then
        let gapSize := pos - size s
        let (written, s) ← s.writeBy (seek depth) writeData (← filled gapSize)
        if written.map Int.ofNat ≠ some gapSize then some (false, s)
        else some (s.baseSeek pos)
      else some (false, s)
    else if pos > size s ∨ pos < 0 then some (false, s)
    else some (s.baseSeek pos)

instance : Virtual B Buffer where
  readData := readData
  writeData := writeData
  seek := seek 2
  getSize := size

/-- mirrors io/Buffer.cpp:68-73 -/
def peek (s : RandomAccess B Buffer) (maxSize : Nat) :
    Option (Option Bytes × RandomAccess B Buffer) :=
  if s.pos ≤ size s then some (some ((s.device.bytes.drop s.pos).take maxSize), s) else none

instance : VirtualPeek B Buffer where
  peek := peek

/-- A `Buffer` that has not been opened.
mirrors io/Buffer.cpp:95-106 -/
def closed (bytes : Bytes) (readBufferChunkSize : Nat) : RandomAccess B Buffer :=
  ⟨false, false, false, false, new readBufferChunkSize, 0, 0, readBufferChunkSize, ⟨bytes⟩⟩

/-- mirrors io/Buffer.cpp:150-168, io/IoDevice.cpp:537-551 -/
def opened (s : RandomAccess B Buffer) (flags : OpenMode) : Bool × RandomAccess B Buffer :=
  let writeOnly := flags.writeOnly || flags.append || flags.truncate
  if !flags.readOnly && !writeOnly then (false, s)
  else
    let device : Buffer := if flags.truncate then ⟨[]⟩ else s.device
    (true, { s with
      readable := flags.readOnly
      writable := writeOnly
      unbuffered := true
      text := flags.text
      pos := if flags.append then device.bytes.length else 0
      buffer := new s.readBufferChunkSize
      device := device })

/-! ## What the virtual functions do -/

theorem narrow_eq {n : Int} (h : -2147483648 ≤ n) (h' : n < 2147483648) : narrow n = n := by
  unfold narrow
  exact Int.bmod_eq_of_le (by omega) (by omega)

omit [PushQueue B] in
theorem readData_spec (s : RandomAccess B Buffer) (len : Nat) :
    readData s len = (some ((s.device.bytes.drop s.pos).take len), s) := by
  unfold readData size
  simp only
  split
  · rename_i hle
    have hnil : (s.device.bytes.drop s.pos).take len = [] := by
      rw [List.take_eq_nil_iff, List.drop_eq_nil_iff]
      omega
    rw [hnil]
  · rename_i hle
    congr 2
    rcases Nat.le_total len (s.device.bytes.length - s.pos) with h | h
    · congr 1
      omega
    · rw [List.take_of_length_le (i := len) (by rw [List.length_drop]; exact h),
        List.take_of_length_le (by rw [List.length_drop]; omega)]

theorem seek_inside {s : RandomAccess B Buffer} {pos : Int} (h0 : 0 ≤ pos) (hle : pos ≤ size s)
    (depth : Nat) : seek (depth + 1) s pos = some (s.baseSeek pos) := by
  have hnot : ¬ pos > size s := by omega
  rw [seek, if_neg (by omega), if_neg (by omega)]

instance : FileDevice B Buffer where
  file := Buffer.bytes
  Ready _ _ := True
  readData_eq s n hpos _ := ⟨s.device, (readData_spec s n).trans (Prod.ext (by simp only [hpos]) rfl), rfl, trivial⟩
  readData_zero s := ⟨s.device, congrArg Prod.snd (readData_spec s 0), rfl, fun _ _ => trivial⟩
  seek_within s pos hle := by
    refine ⟨s.device, ?_, rfl, trivial⟩
    have hpos : ¬ (pos : Int) < 0 := by omega
    rw [show Virtual.seek s (pos : Int) = seek 2 s pos from rfl,
      seek_inside (by omega) (by unfold size; omega), RandomAccess.baseSeek, if_neg hpos,
      Int.toNat_natCast]
  getSize_eq _ := rfl

omit [PushQueue B] in
theorem writeData_spec {s : RandomAccess B Buffer} {data : Bytes} (hpos : s.pos ≤ size s)
    (hsize : size s < maxByteArraySize) (hend : s.pos + data.length < maxByteArraySize) :
    writeData s data = some (some data.length,
      { s with device := ⟨Cursor.overwrite s.device.bytes s.pos data⟩ }) := by
  have hmax : maxByteArraySize = 2147483623 := rfl
  have hlen : narrow data.length = data.length := narrow_eq (by omega) (by omega)
  have hextra : narrow (s.pos + data.length - size s) = s.pos + data.length - size s :=
    narrow_eq (by omega) (by omega)
  have hle : (0 : Int) ≤ data.length := by omega
  unfold writeData
  rw [hextra, hlen]
  simp only [Int.toNat_natCast, List.take_length]
  by_cases hgrow : (s.pos + data.length - size s : Int) > 0
  · have hnew : (size s + (s.pos + data.length - size s) : Int) = (s.pos + data.length : Nat) := by
      omega
    have hfits : ¬ ((s.pos + data.length : Nat) : Int) ≥ maxByteArraySize := by omega
    have hall : s.device.bytes.take (s.pos + data.length) = s.device.bytes :=
      List.take_of_length_le (by unfold size at hgrow; omega)
    rw [if_pos hgrow, hnew, resize, if_neg hfits, Int.toNat_natCast, hall]
    simp only [Option.bind_eq_bind, Option.bind_some]
    have hroom : (s.pos : Int) + data.length ≤ (s.device.bytes ++
        List.replicate (s.pos + data.length - s.device.bytes.length) (0 : UInt8)).length := by
      rw [List.length_append, List.length_replicate]
      omega
    rw [if_pos ⟨hle, hroom⟩]
    unfold size at hpos hgrow
    have hover : Cursor.overwrite (s.device.bytes ++
        List.replicate (s.pos + data.length - s.device.bytes.length) 0) s.pos data =
        Cursor.overwrite s.device.bytes s.pos data := by
      unfold Cursor.overwrite
      rw [List.take_append_of_le_length hpos, List.drop_of_length_le (by
        rw [List.length_append, List.length_replicate]
        omega), List.drop_of_length_le (by omega)]
    rw [hover]
  · rw [if_neg hgrow]
    simp only [Option.bind_eq_bind, Option.bind_some]
    have hroom : (s.pos : Int) + data.length ≤ s.device.bytes.length := by
      unfold size at hgrow
      omega
    rw [if_pos ⟨hle, hroom⟩]

/-- A write of bytes where the base and the device are at one position. -/
theorem writeBy_spec {s : RandomAccess B Buffer} {data : Bytes} (hw : s.writable = true)
    (hdev : s.pos = s.devicePos) (hpos : s.pos ≤ size s) (hsize : size s < maxByteArraySize)
    (hend : s.pos + data.length < maxByteArraySize)
    (sk : RandomAccess B Buffer → Int → Option (Bool × RandomAccess B Buffer)) :
    ∃ b, s.writeBy sk writeData data = some (some data.length, { s with
      pos := s.pos + data.length
      devicePos := s.pos + data.length
      buffer := b
      device := ⟨Cursor.overwrite s.device.bytes s.pos data⟩ }) ∧
      content b = (content s.buffer).drop data.length := by
  unfold RandomAccess.writeBy RandomAccess.positionBy
  rw [if_neg (by simp [hw]), if_pos hdev, Option.bind_some]
  simp only [writeData_spec hpos hsize hend, Option.map_some]
  by_cases hsome : data.length > 0
  · rw [if_pos hsome, ← hdev]
    exact ⟨_, rfl, content_skip _ _⟩
  · have hzero : data.length = 0 := by omega
    rw [if_neg hsome, hzero, Nat.add_zero]
    refine ⟨s.buffer, ?_, rfl⟩
    simp only [hdev]

/-- A seek beyond the end fills the gap with zero bytes. -/
theorem seek_beyond {s : RandomAccess B Buffer} (hw : s.writable = true)
    (hle : s.pos + (content s.buffer).length ≤ size s) {pos : Nat} (hpos : size s < pos)
    (hmax : pos < maxByteArraySize) : ∃ b, seek 2 s pos = some (true, { s with
      pos := pos
      devicePos := pos
      buffer := b
      device := ⟨s.device.bytes ++ List.replicate (pos - size s) 0⟩ }) ∧ content b = [] := by
  have hmax' : maxByteArraySize = 2147483623 := rfl
  have hbeyond : (pos : Int) > size s ∧ s.writable = true := ⟨by omega, hw⟩
  have hsize0 : ¬ (size s : Int) < 0 := by omega
  have hgap : narrow ((pos : Int) - size s) = ((pos - size s : Nat) : Int) := by
    rw [narrow_eq (by omega) (by omega)]
    omega
  obtain ⟨t, ht⟩ : ∃ t, t = { s with devicePos := size s }.seekBuffer (size s) := ⟨_, rfl⟩
  have hsize : size t = size s := by
    rw [ht]
    rfl
  have hnil : content t.buffer = [] := by
    rw [ht, RandomAccess.content_seekBuffer]
    split
    · rfl
    · refine List.drop_of_length_le ?_
      show (content s.buffer).length ≤ size s - s.pos
      omega
  have hfill : filled ((pos : Int) - size t) = some (List.replicate (pos - size s) 0) := by
    unfold filled
    rw [hsize, hgap, if_neg (by omega), if_neg (by omega), Int.toNat_natCast]
  have htpos : t.pos = size s := by
    rw [ht]
    rfl
  obtain ⟨b, hwrite, hcontent⟩ := @writeBy_spec _ _ t (List.replicate (pos - size s) 0)
    (by rw [ht]; exact hw) (by rw [ht]; rfl) (by omega) (by omega)
    (by rw [htpos, List.length_replicate]; omega) (seek 1)
  have hbase : s.baseSeek (size s) = (true, t) := by
    rw [RandomAccess.baseSeek, if_neg hsize0, Int.toNat_natCast, ht]
  rw [seek, if_pos hbeyond, seek_inside (by omega) (by omega), hbase]
  have hover : Cursor.overwrite t.device.bytes t.pos (List.replicate (pos - size s) 0) =
      s.device.bytes ++ List.replicate (pos - size s) 0 := by
    have hdevice : t.device = s.device := by
      rw [ht]
      rfl
    rw [htpos, hdevice]
    unfold Cursor.overwrite size
    rw [List.take_length, List.drop_of_length_le (Nat.le_add_right _ _), List.append_nil]
  have hend : t.pos + (List.replicate (pos - size s) (0 : UInt8)).length = pos := by
    rw [htpos, List.length_replicate]
    omega
  have hwritten : some (Int.ofNat (List.replicate (pos - size s) (0 : UInt8)).length) =
      some ((pos : Int) - size t) := by
    rw [List.length_replicate, hsize, Int.ofNat_eq_natCast]
    congr 1
    omega
  rw [hnil, List.drop_nil] at hcontent
  rw [hover, hend] at hwrite
  have hpos0 : ¬ (pos : Int) < 0 := by omega
  simp only [Option.bind_eq_bind, Option.bind_some, if_true, hfill, hwrite, Option.map_some,
    hwritten, ne_eq, not_true_eq_false, if_false, RandomAccess.baseSeek, if_neg hpos0,
    Int.toNat_natCast]
  refine ⟨_, by rw [ht]; rfl, ?_⟩
  have hsame := RandomAccess.content_seekBuffer (D := Buffer)
    { t with pos := pos, devicePos := pos, buffer := b,
             device := ⟨s.device.bytes ++ List.replicate (pos - size s) 0⟩ } pos
  rw [if_neg (Nat.lt_irrefl _), Nat.sub_self, List.drop_zero] at hsame
  simp only [hcontent] at hsame
  rw [ht] at hsame
  exact hsame

/-- A gap of which no byte array can be made is not filled. -/
theorem seek_unallocated {s : RandomAccess B Buffer} (hw : s.writable = true) {pos : Int}
    (hpos : size s < pos) (hfill : filled (pos - size s) = none) : seek 2 s pos = none := by
  have hsize0 : ¬ (size s : Int) < 0 := by omega
  have hsize : size ({ s with devicePos := size s }.seekBuffer (size s)) = size s := rfl
  rw [seek, if_pos ⟨hpos, hw⟩, seek_inside (by omega) (by omega), RandomAccess.baseSeek,
    if_neg hsize0, Int.toNat_natCast]
  simp only [Option.bind_eq_bind, Option.bind_some, if_true, hsize, hfill, Option.bind_none]

end Buffer

end Libpdk.Io

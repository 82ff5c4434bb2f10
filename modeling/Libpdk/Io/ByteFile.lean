import Libpdk.Io.IoDevice

/-!
# A cursor over a byte file

The abstract device: a file and a position in it, and while a transaction is in
progress the position it began at. Nothing is buffered. `Op` are the calls that a
caller makes; they are performed on a cursor and on an `IoDevice` alike.
-/
namespace Libpdk.Io

section

open ByteQueue

inductive Op
  | read (maxLength : Int)
  | readArray (maxLength : Int)
  | peek (maxLength : Int)
  | peekArray (maxLength : Int)
  | getChar
  | readLine (maxLength : Int)
  | readLineArray (maxLength : Int)
  | readAll
  | skip (maxLength : Int)
  | write (data : Bytes)
  | seek (pos : Int)
  | startTransaction
  | commitTransaction
  | rollbackTransaction

inductive Reply
  | bytes (data : Option Bytes)
  | array (data : Bytes)
  | count (n : Option Nat)
  | flag (b : Bool)
  | nothing
  deriving DecidableEq

/-- An operation of a transaction. -/
def Op.transactional : Op → Bool
  | startTransaction | commitTransaction | rollbackTransaction => true
  | _ => false

structure Cursor where
  readable : Bool
  writable : Bool
  file : Bytes
  pos : Nat
  saved : Option Nat

namespace Cursor

def rest (c : Cursor) : Bytes := c.file.drop c.pos

def advance (c : Cursor) (n : Nat) : Cursor := { c with pos := c.pos + n }

/-- The cursor behind bytes that were read. -/
def past (c : Cursor) (data : Bytes) : Cursor := c.advance data.length

def read (c : Cursor) (maxLength : Int) : Option Bytes × Cursor :=
  if maxLength < 0 ∨ ¬ c.readable then (none, c)
  else (some (c.rest.take maxLength.toNat), c.past (c.rest.take maxLength.toNat))

/-- No more bytes than a `ByteArray` holds. -/
def readArray (c : Cursor) (maxLength : Int) : Bytes × Cursor :=
  let (data, c) := c.read (min maxLength (maxByteArraySize - 1))
  (data.getD [], c)

def peek (c : Cursor) (maxLength : Int) : Option Bytes := (c.read maxLength).1

def peekArray (c : Cursor) (maxLength : Int) : Bytes := (c.readArray maxLength).1

/-- A line has at most `maxLength - 1` bytes. -/
def readLine (c : Cursor) (maxLength : Int) : Option Bytes × Cursor :=
  let line := upTo IoDevice.newline (maxLength.toNat - 1) c.rest
  if maxLength < 2 ∨ ¬ c.readable ∨ line = [] then (none, c) else (some line, c.past line)

/-- Length zero stands for any length. -/
def readLineArray (c : Cursor) (maxLength : Int) : Bytes × Cursor :=
  let (data, c) :=
    c.readLine (if maxLength = 0 then maxByteArraySize - 1 else min maxLength (maxByteArraySize - 1))
  (data.getD [], c)

/-- Nothing is read where a `ByteArray` does not hold the rest. -/
def readAll (c : Cursor) : Bytes × Cursor :=
  if ¬ c.readable ∨ c.rest.length ≥ maxByteArraySize then ([], c) else (c.rest, c.past c.rest)

def skip (c : Cursor) (maxLength : Int) : Option Nat × Cursor :=
  if maxLength < 0 ∨ ¬ c.readable then (none, c)
  else
    let n := min maxLength.toNat c.rest.length
    (some n, c.advance n)

/-- The file with `data` written at a position in it. -/
def overwrite (file : Bytes) (pos : Nat) (data : Bytes) : Bytes :=
  file.take pos ++ data ++ file.drop (pos + data.length)

def write (c : Cursor) (data : Bytes) : Option Nat × Cursor :=
  if ¬ c.writable then (none, c)
  else (some data.length, { c with file := overwrite c.file c.pos data, pos := c.pos + data.length })

def seek (c : Cursor) (pos : Int) : Bool × Cursor :=
  if 0 ≤ pos ∧ pos ≤ c.file.length then (true, { c with pos := pos.toNat }) else (false, c)

def startTransaction (c : Cursor) : Cursor :=
  if c.saved.isSome then c else { c with saved := some c.pos }

def commitTransaction (c : Cursor) : Cursor := { c with saved := none }

def rollbackTransaction (c : Cursor) : Cursor :=
  match c.saved with
  | none => c
  | some pos => { c with pos := pos, saved := none }

def perform (c : Cursor) : Op → Reply × Cursor
  | .read n => ((c.read n).1 |> .bytes, (c.read n).2)
  | .readArray n => (.array (c.readArray n).1, (c.readArray n).2)
  | .peek n => (.bytes (c.peek n), c)
  | .peekArray n => (.array (c.peekArray n), c)
  | .getChar => (.bytes (c.read 1).1, (c.read 1).2)
  | .readLine n => (.bytes (c.readLine n).1, (c.readLine n).2)
  | .readLineArray n => (.array (c.readLineArray n).1, (c.readLineArray n).2)
  | .readAll => (.array c.readAll.1, c.readAll.2)
  | .skip n => (.count (c.skip n).1, (c.skip n).2)
  | .write data => (.count (c.write data).1, (c.write data).2)
  | .seek pos => (.flag (c.seek pos).1, (c.seek pos).2)
  | .startTransaction => (.nothing, c.startTransaction)
  | .commitTransaction => (.nothing, c.commitTransaction)
  | .rollbackTransaction => (.nothing, c.rollbackTransaction)

def run (c : Cursor) : List Op → List Reply × Cursor
  | [] => ([], c)
  | op :: ops =>
    let (reply, c) := c.perform op
    let (replies, c) := c.run ops
    (reply :: replies, c)

end Cursor

namespace IoDevice

variable {B D : Type} [ByteQueue B] [RawDevice D]

def perform (s : IoDevice B D) : Op → Option (Reply × IoDevice B D)
  | .read n => (s.read n).map fun (data, s) => (.bytes data, s)
  | .readArray n => (s.readArray n).map fun (data, s) => (.array data, s)
  | .peek n => (s.peekBytes n).map fun (data, s) => (.bytes data, s)
  | .peekArray n => (s.peekArray n).map fun (data, s) => (.array data, s)
  | .getChar => s.getChar.map fun (data, s) => (.bytes data, s)
  | .readLine n => (s.readLine n).map fun (data, s) => (.bytes data, s)
  | .readLineArray n => (s.readLineArray n).map fun (data, s) => (.array data, s)
  | .readAll => s.readAll.map fun (data, s) => (.array data, s)
  | .skip n => (s.skip n).map fun (n, s) => (.count n, s)
  | .write data => some (.count (s.write data).1, (s.write data).2)
  | .seek pos => some (.flag (s.seek pos).1, (s.seek pos).2)
  | .startTransaction => some (.nothing, s.startTransaction)
  | .commitTransaction => some (.nothing, s.commitTransaction)
  | .rollbackTransaction => some (.nothing, s.rollbackTransaction)

def run (s : IoDevice B D) : List Op → Option (List Reply × IoDevice B D)
  | [] => some ([], s)
  | op :: ops => do
    let (reply, s) ← s.perform op
    let (replies, s) ← s.run ops
    some (reply :: replies, s)

end IoDevice

end

/-!
## Reading from a random-access device

`ByteFileDevice`: a device that implements a byte file. `Holds s c`: the device `s`
is where the cursor `c` is, and its buffer holds bytes of the file from there on.
`readData_holds` is what `IoDevicePrivate::read` does to such a device, from what
one round of its loop does (`readRound_inv`).
-/

open ByteQueue

/-- A device that implements a byte file: `readData` returns as many bytes as there are,
`writeData` writes all, `seek` succeeds within the file. -/
class ByteFileDevice (D : Type) extends RawDevice D where
  file : D → Bytes
  offset : D → Nat
  sequential_eq : sequential = false
  readData_fst : ∀ d n, (readData d n).1 = some (((file d).drop (offset d)).take n)
  file_readData : ∀ d n, file (readData d n).2 = file d
  offset_readData : ∀ d n,
    offset (readData d n).2 = offset d + (((file d).drop (offset d)).take n).length
  writeData_fst : ∀ d data, (writeData d data).1 = some data.length
  file_writeData : ∀ d data, offset d ≤ (file d).length →
    file (writeData d data).2 = Cursor.overwrite (file d) (offset d) data
  offset_writeData : ∀ d data, offset (writeData d data).2 = offset d + data.length
  seek_within : ∀ d pos, pos ≤ (file d).length →
    ∃ d', seek d pos = some d' ∧ file d' = file d ∧ offset d' = pos
  seek_beyond : ∀ d pos, (file d).length < pos → seek d pos = none
  getSize_eq : ∀ d, getSize d = (file d).length

/-- A file in memory. -/
structure MemoryFile where
  bytes : Bytes
  offset : Nat

instance : ByteFileDevice MemoryFile where
  sequential := false
  readData d n := (some ((d.bytes.drop d.offset).take n),
    { d with offset := d.offset + ((d.bytes.drop d.offset).take n).length })
  writeData d data := (some data.length,
    ⟨Cursor.overwrite d.bytes d.offset data, d.offset + data.length⟩)
  seek d pos := if pos ≤ d.bytes.length then some { d with offset := pos } else none
  getSize d := d.bytes.length
  file d := d.bytes
  offset d := d.offset
  sequential_eq := rfl
  readData_fst _ _ := rfl
  file_readData _ _ := rfl
  offset_readData _ _ := rfl
  writeData_fst _ _ := rfl
  file_writeData _ _ _ := rfl
  offset_writeData _ _ := rfl
  seek_within d pos h := ⟨{ d with offset := pos }, if_pos h, rfl, rfl⟩
  seek_beyond _ _ h := if_neg (Nat.not_le.mpr h)
  getSize_eq _ := rfl

set_option linter.unusedSectionVars false

namespace IoDevice

variable {B D : Type} [ByteQueue B] [ByteFileDevice D]

open ByteFileDevice

@[simp] theorem isSequential_eq (s : IoDevice B D) : s.isSequential = false :=
  ByteFileDevice.sequential_eq

/-- The open mode, the chunk size and the transaction are those of `s`. -/
structure Same (s s' : IoDevice B D) : Prop where
  readable : s'.readable = s.readable
  writable : s'.writable = s.writable
  unbuffered : s'.unbuffered = s.unbuffered
  chunk : s'.readBufferChunkSize = s.readBufferChunkSize
  transactionPos : s'.transactionPos = s.transactionPos
  started : s'.transactionStarted = s.transactionStarted

theorem Same.refl (s : IoDevice B D) : Same s s := ⟨rfl, rfl, rfl, rfl, rfl, rfl⟩

theorem Same.trans {s s₁ s₂ : IoDevice B D} (h : Same s s₁) (h' : Same s₁ s₂) : Same s s₂ :=
  ⟨h'.1.trans h.1, h'.2.trans h.2, h'.3.trans h.3, h'.4.trans h.4, h'.5.trans h.5,
    h'.6.trans h.6⟩

/-- The device is over `file` and reads where it thinks it does; its buffer holds bytes of
the file from `from` on. -/
structure Over (s : IoDevice B D) (bytes : Bytes) (start : Nat) : Prop where
  file : file s.device = bytes
  device : offset s.device = s.devicePos
  device_le : s.devicePos ≤ bytes.length
  buffer : content s.buffer <+: bytes.drop start
  chunk : 0 < s.readBufferChunkSize ∧ s.readBufferChunkSize < maxByteArraySize

theorem Over.notify {s : IoDevice B D} {bytes : Bytes} {start : Nat} (h : Over s bytes start) :
    Over s.notify bytes start where
  file := (file_readData _ _).trans h.file
  device := by
    rw [IoDevice.notify, offset_readData]
    simpa using h.device
  device_le := h.device_le
  buffer := h.buffer
  chunk := h.chunk

theorem Over.notifyIf {s : IoDevice B D} {bytes : Bytes} {start : Nat} (h : Over s bytes start)
    (empty : Bool) : Over (s.notifyIf empty) bytes start := by
  cases empty with
  | true => exact h.notify
  | false => exact h

@[simp] theorem notifyIf_pos (s : IoDevice B D) (empty : Bool) :
    (s.notifyIf empty).pos = s.pos := by
  cases empty <;> rfl

@[simp] theorem notifyIf_buffer (s : IoDevice B D) (empty : Bool) :
    (s.notifyIf empty).buffer = s.buffer := by
  cases empty <;> rfl

theorem notifyIf_same (s : IoDevice B D) (empty : Bool) : Same s (s.notifyIf empty) := by
  cases empty <;> exact ⟨rfl, rfl, rfl, rfl, rfl, rfl⟩

theorem drop_isPrefix {l l' : Bytes} (h : l <+: l') (n : Nat) : l.drop n <+: l'.drop n := by
  obtain ⟨t, rfl⟩ := h
  rw [List.drop_append]
  exact List.prefix_append _ _

/-! ## Seeking -/

theorem seekBuffer_over {s : IoDevice B D} {bytes : Bytes} (h : Over s bytes s.pos) (newPos : Nat) :
    Over (s.seekBuffer newPos) bytes newPos := by
  refine ⟨h.file, h.device, h.device_le, ?_, h.chunk⟩
  rw [seekBuffer]
  split
  · simp
  · rename_i hin
    rw [not_or, not_lt, not_le, size_eq] at hin
    simp only
    rw [content_free _ _ (by omega)]
    have := drop_isPrefix h.buffer (newPos - s.pos)
    rwa [List.drop_drop, show s.pos + (newPos - s.pos) = newPos from by omega] at this

/-- Seeking to where the caller is keeps the buffer. -/
theorem content_seekBuffer_self (s : IoDevice B D) :
    content (s.seekBuffer s.pos).buffer = content s.buffer := by
  rw [seekBuffer]
  split
  · rename_i h
    have hnil : content s.buffer = [] := by
      simpa using h
    rw [content_clear, hnil]
  · simp only
    rw [content_free _ _ (by omega), Nat.sub_self, List.drop_zero]

theorem content_seekBuffer_nil {s : IoDevice B D} (h : content s.buffer = []) (newPos : Nat) :
    content (s.seekBuffer newPos).buffer = [] := by
  rw [seekBuffer]
  split
  · simp
  · rename_i hin
    rw [not_or, not_le, size_eq, h] at hin
    exact absurd hin.2 (by simp)

theorem seekBuffer_same (s : IoDevice B D) (newPos : Nat) : Same s (s.seekBuffer newPos) :=
  ⟨rfl, rfl, rfl, rfl, rfl, rfl⟩

theorem seek_within {s : IoDevice B D} {bytes : Bytes} (h : Over s bytes s.pos) {newPos : Nat}
    (hle : newPos ≤ bytes.length) :
    ∃ s', s.seek newPos = (true, s') ∧ s'.pos = newPos ∧ Same s s' ∧
      Over s' bytes newPos ∧ (content s.buffer = [] → content s'.buffer = []) := by
  obtain ⟨d, hd, hfile, hoffset⟩ := ByteFileDevice.seek_within s.device newPos (h.file ▸ hle)
  have hover : Over { s with device := d, devicePos := newPos } bytes s.pos :=
    ⟨hfile.trans h.file, hoffset, hle, h.buffer, h.chunk⟩
  refine ⟨seekBuffer { s with device := d, devicePos := newPos } newPos, ?_, rfl,
    ⟨rfl, rfl, rfl, rfl, rfl, rfl⟩, seekBuffer_over hover newPos, ?_⟩
  · rw [seek, isSequential_eq, if_neg (by simp), if_neg (by omega), Int.toNat_natCast, hd]
  · intro hnil
    exact content_seekBuffer_nil hnil newPos

theorem seek_beyond {s : IoDevice B D} {bytes : Bytes} {start : Nat} (h : Over s bytes start)
    {pos : Int} (hle : ¬ (0 ≤ pos ∧ pos ≤ bytes.length)) : s.seek pos = (false, s) := by
  rw [seek, isSequential_eq, if_neg (by simp)]
  split
  · rfl
  · rename_i hpos
    rw [ByteFileDevice.seek_beyond _ _ (by rw [h.file]; omega)]

/-- The device can be positioned, which keeps the buffer. -/
theorem position_over {s : IoDevice B D} {bytes : Bytes} {start : Nat} (h : Over s bytes start)
    (hle : s.pos ≤ bytes.length) :
    ∃ s', s.position = some s' ∧ s'.pos = s.pos ∧ s'.devicePos = s.pos ∧ Same s s' ∧
      content s'.buffer = content s.buffer ∧ Over s' bytes start := by
  rw [position, isSequential_eq, if_neg (by simp)]
  by_cases hp : s.pos = s.devicePos
  · rw [if_pos hp]
    exact ⟨s, rfl, rfl, hp.symm, Same.refl s, rfl, h⟩
  · rw [if_neg hp]
    obtain ⟨d, hd, hfile, hoffset⟩ := ByteFileDevice.seek_within s.device s.pos (h.file ▸ hle)
    have hc := content_seekBuffer_self { s with device := d, devicePos := s.pos }
    refine ⟨seekBuffer { s with device := d, devicePos := s.pos } s.pos, ?_, rfl, rfl,
      ⟨rfl, rfl, rfl, rfl, rfl, rfl⟩, hc,
      ⟨hfile.trans h.file, hoffset, hle, by rw [hc]; exact h.buffer, h.chunk⟩⟩
    rw [seek, isSequential_eq, if_neg (by simp), if_neg (by omega), Int.toNat_natCast, hd]

/-! ## One round of the loop -/

theorem append_isPrefix {a b l : Bytes} (ha : a <+: l) (hb : b <+: l.drop a.length) :
    a ++ b <+: l := by
  obtain ⟨t, rfl⟩ := ha
  rw [List.drop_left] at hb
  exact (List.prefix_append_right_inj a).mpr hb

/-- The reading has `data` of the `n` bytes wanted from `p` on; `keep` says that the bytes
read stay in the buffer. -/
structure ReadingInv (s : IoDevice B D) (bytes : Bytes) (p n : Nat) (keep : Bool)
    (r : Reading B D) : Prop where
  same : Same s r.io
  onFile : Over r.io bytes (if keep then p else r.io.pos)
  total : r.data.length + r.maxLength = n
  data : r.data <+: bytes.drop p
  pos : r.io.pos = p + r.data.length
  bufferPos : keep = true → r.bufferPos = r.data.length ∧
    r.bufferPos ≤ (content r.io.buffer).length
  eof : r.deviceAtEof = true → content r.io.buffer = bytes.drop (if keep then p else r.io.pos)

def unread (keep : Bool) (r : Reading B D) : Nat :=
  if keep then (content r.io.buffer).length - r.bufferPos else (content r.io.buffer).length

/-- What the buffer has for the reading is read. -/
def Exhausted (keep : Bool) (r : Reading B D) : Prop :=
  if keep then (content r.io.buffer).length = r.data.length else content r.io.buffer = []

variable {s : IoDevice B D} {bytes : Bytes} {p n : Nat}

theorem readBuffer_keep {r : Reading B D} (h : ReadingInv s bytes p n true r) :
    ReadingInv s bytes p n true (readBuffer true r) ∧
      (0 < (readBuffer true r).maxLength → Exhausted true (readBuffer true r)) ∧
      (readBuffer true r).maxLength = r.maxLength - min r.maxLength (unread true r) := by
  have hbuf : content r.io.buffer <+: bytes.drop p := h.onFile.buffer
  obtain ⟨hpos, hle⟩ := h.bufferPos rfl
  have hdata : r.data = (content r.io.buffer).take r.data.length := by
    have h1 := List.prefix_iff_eq_take.mp h.data
    have h2 := List.prefix_iff_eq_take.mp hbuf
    rw [h2, List.take_take, Nat.min_eq_left (by omega)]
    exact h1
  have hlen : (((content r.io.buffer).drop r.bufferPos).take r.maxLength).length =
      min r.maxLength (unread true r) := by
    simp [unread]
  have hpre : r.data ++ ((content r.io.buffer).drop r.bufferPos).take r.maxLength <+:
      content r.io.buffer := by
    apply append_isPrefix
    · rw [hdata]
      exact List.take_prefix _ _
    · rw [hpos]
      exact List.take_prefix _ _
  have hunread : unread true r = (content r.io.buffer).length - r.bufferPos := rfl
  have htotal := h.total
  refine ⟨⟨h.same.trans ⟨rfl, rfl, rfl, rfl, rfl, rfl⟩,
    ⟨h.onFile.file, h.onFile.device, h.onFile.device_le, hbuf, h.onFile.chunk⟩, ?_, ?_, ?_, ?_, h.eof⟩,
    ?_, ?_⟩
  · simp only [readBuffer, if_true, peek_eq, List.length_append, hlen]
    omega
  · simpa [readBuffer] using hpre.trans hbuf
  · simp only [readBuffer, if_true, peek_eq, List.length_append, isSequential_eq,
      Bool.false_eq_true, if_false, h.pos]
    omega
  · intro _
    simp only [readBuffer, if_true, peek_eq, List.length_append, hlen]
    omega
  · intro hm
    simp only [readBuffer, if_true, peek_eq, hlen] at hm
    simp only [Exhausted, readBuffer, if_true, peek_eq, List.length_append, hlen]
    omega
  · simp only [readBuffer, if_true, peek_eq, hlen]

theorem readBuffer_take {r : Reading B D} (h : ReadingInv s bytes p n false r) :
    ReadingInv s bytes p n false (readBuffer false r) ∧
      (0 < (readBuffer false r).maxLength → Exhausted false (readBuffer false r)) ∧
      (readBuffer false r).maxLength = r.maxLength - min r.maxLength (unread false r) := by
  have hbuf : content r.io.buffer <+: bytes.drop r.io.pos := h.onFile.buffer
  have hlen : ((content r.io.buffer).take r.maxLength).length =
      min r.maxLength (unread false r) := by
    simp [unread]
  have hunread : unread false r = (content r.io.buffer).length := rfl
  have hdrop : (content r.io.buffer).drop r.maxLength =
      (content r.io.buffer).drop (min r.maxLength (unread false r)) := by
    rcases Nat.le_total r.maxLength (unread false r) with hm | hm
    · rw [Nat.min_eq_left hm]
    · rw [Nat.min_eq_right hm, List.drop_of_length_le hm, hunread, List.drop_length]
  have htotal := h.total
  have hio : (readBuffer false r).io.pos = r.io.pos + min r.maxLength (unread false r) := by
    simp [readBuffer, unread]
  have hcontent : content (readBuffer false r).io.buffer =
      (content r.io.buffer).drop (min r.maxLength (unread false r)) := by
    rw [← hdrop]
    simp [readBuffer]
  have hpre : content (readBuffer false r).io.buffer <+:
      bytes.drop (readBuffer false r).io.pos := by
    rw [hcontent, hio, ← List.drop_drop]
    exact drop_isPrefix hbuf _
  refine ⟨⟨h.same.trans ⟨rfl, rfl, rfl, rfl, rfl, rfl⟩,
    ⟨h.onFile.file, h.onFile.device, h.onFile.device_le, hpre, h.onFile.chunk⟩, ?_, ?_, ?_,
    fun hk => absurd hk (by simp), ?_⟩, ?_, ?_⟩
  · simp only [readBuffer, Bool.false_eq_true, if_false, read_fst, List.length_append, hlen]
    omega
  · simp only [readBuffer, Bool.false_eq_true, if_false, read_fst]
    apply append_isPrefix h.data
    rw [List.drop_drop, ← h.pos]
    exact (List.take_prefix _ _).trans hbuf
  · rw [hio, h.pos]
    simp only [readBuffer, Bool.false_eq_true, if_false, read_fst, List.length_append, hlen]
    omega
  · intro he
    have hall := h.eof he
    simp only [Bool.false_eq_true, if_false] at hall ⊢
    rw [hcontent, hall, hio, List.drop_drop]
  · intro hm
    simp only [readBuffer, Bool.false_eq_true, if_false, read_fst, hlen] at hm
    rw [Exhausted, if_neg (by simp), hcontent]
    exact List.drop_of_length_le (by omega)
  · simp only [readBuffer, Bool.false_eq_true, if_false, read_fst, hlen]

/-- The reading is over: it has all it can get. -/
structure ReadingDone (s : IoDevice B D) (bytes : Bytes) (p n : Nat) (keep : Bool)
    (r : Reading B D) : Prop where
  same : Same s r.io
  onFile : Over r.io bytes (if keep then p else r.io.pos)
  data : r.data = (bytes.drop p).take n
  pos : r.io.pos = p + r.data.length

theorem ReadingInv.done {keep : Bool} {r : Reading B D} (h : ReadingInv s bytes p n keep r)
    (hall : r.maxLength = 0 ∨ (bytes.drop p).length ≤ r.data.length) :
    ReadingDone s bytes p n keep r := by
  refine ⟨h.same, h.onFile, ?_, h.pos⟩
  have hd := List.prefix_iff_eq_take.mp h.data
  have htotal := h.total
  rcases hall with hm | hall
  · rw [← htotal, hm, Nat.add_zero]
    exact hd
  · rw [hd, List.take_of_length_le hall, List.take_of_length_le]
    omega

/-- Where the buffer has no more, the bytes of the device are those that follow. -/
theorem exhausted_next {keep : Bool} {r : Reading B D} (h : ReadingInv s bytes p n keep r)
    (hx : Exhausted keep r) {next : Bytes} (hn : next <+: bytes.drop r.io.pos) :
    content r.io.buffer ++ next <+: bytes.drop (if keep then p else r.io.pos) := by
  have hbuf := h.onFile.buffer
  cases keep with
  | true =>
    simp only [Exhausted, if_true] at hx hbuf ⊢
    apply append_isPrefix hbuf
    rw [hx, List.drop_drop, ← h.pos]
    exact hn
  | false =>
    simp only [Exhausted, Bool.false_eq_true, if_false] at hx ⊢
    rw [hx]
    exact hn

/-- At the end of the file and with nothing more in the buffer, everything is read. -/
theorem exhausted_eof {keep : Bool} {r : Reading B D} (h : ReadingInv s bytes p n keep r)
    (hx : Exhausted keep r)
    (he : content r.io.buffer = bytes.drop (if keep then p else r.io.pos)) :
    (bytes.drop p).length ≤ r.data.length := by
  have hpos := h.pos
  cases keep with
  | true =>
    simp only [Exhausted, if_true] at hx he
    rw [← he, hx]
  | false =>
    simp only [Exhausted, Bool.false_eq_true, if_false] at hx he
    rw [hx] at he
    have hlen := congrArg List.length he
    simp only [List.length_nil, List.length_drop] at hlen ⊢
    omega

theorem readData_next {s : IoDevice B D} {start : Nat} (h : Over s bytes start)
    (hdev : s.devicePos = s.pos) (n : Nat) :
    ∃ next d', next = (bytes.drop s.pos).take n ∧ RawDevice.readData s.device n = (some next, d') ∧
      file d' = bytes ∧ offset d' = s.pos + next.length ∧ s.pos + next.length ≤ bytes.length := by
  refine ⟨_, _, rfl, Prod.ext ?_ rfl, (file_readData _ _).trans h.file, ?_, ?_⟩
  · rw [readData_fst, h.file, h.device, hdev]
  · rw [offset_readData, h.file, h.device, hdev]
  · have := h.device_le
    rw [List.length_take, List.length_drop]
    omega

theorem exhausted_length {keep : Bool} {r : Reading B D} (h : ReadingInv s bytes p n keep r)
    (hx : Exhausted keep r) {next : Bytes} (hn : next = bytes.drop r.io.pos) :
    (content r.io.buffer ++ next).length = (bytes.drop (if keep then p else r.io.pos)).length := by
  have hpos := h.pos
  have hd := h.data.length_le
  rw [List.length_append, hn]
  cases keep with
  | true =>
    simp only [Exhausted, if_true] at hx
    simp only [hx, if_true, List.length_drop] at hd ⊢
    omega
  | false =>
    simp only [Exhausted, Bool.false_eq_true, if_false] at hx
    simp [hx]

theorem exhausted_unread {keep : Bool} {r : Reading B D} (h : ReadingInv s bytes p n keep r)
    (hx : Exhausted keep r) {next : Bytes} {buffer : B}
    (hfill : content buffer = content r.io.buffer ++ next) (hn : 0 < next.length) {d : D}
    {devicePos : Nat} {eof : Bool} :
    0 < unread keep { r with
      io := { r.io with device := d, buffer := buffer, devicePos := devicePos }
      deviceAtEof := eof } := by
  cases keep with
  | true =>
    simp only [Exhausted, if_true] at hx
    simp only [unread, if_true, hfill, List.length_append, (h.bufferPos rfl).1, hx]
    omega
  | false =>
    simp only [unread, Bool.false_eq_true, if_false, hfill, List.length_append]
    omega

theorem readDirect_done {r : Reading B D} (h : ReadingInv s bytes p n false r)
    (hx : Exhausted false r) (hdev : r.io.devicePos = r.io.pos) :
    ∃ r', readDirect r = .done r' ∧ ReadingDone s bytes p n false r' := by
  obtain ⟨next, d, hnext, heq, hfile, hoff, hle⟩ := readData_next h.onFile hdev r.maxLength
  have hd := List.prefix_iff_eq_take.mp h.data
  simp only [Exhausted, Bool.false_eq_true, if_false] at hx
  rw [readDirect, heq]
  refine ⟨_, rfl, h.same.trans ⟨rfl, rfl, rfl, rfl, rfl, rfl⟩, ⟨hfile, ?_, ?_, ?_, h.onFile.chunk⟩,
    ?_, ?_⟩
  · simp [hoff, hdev]
  · simpa [hdev] using hle
  · simp [hx]
  · rw [← h.total, List.take_add, ← hd, hnext, h.pos, List.drop_drop]
  · simp [h.pos, Nat.add_assoc]

theorem readIntoBuffer_round {keep : Bool} {r : Reading B D} (h : ReadingInv s bytes p n keep r)
    (hx : Exhausted keep r) (hdev : r.io.devicePos = r.io.pos) (hm : 0 < r.maxLength) :
    (∃ r', readIntoBuffer r = .done r' ∧ ReadingDone s bytes p n keep r') ∨
      ∃ r', readIntoBuffer r = .again r' ∧ ReadingInv s bytes p n keep r' ∧ 0 < unread keep r' ∧
        r'.maxLength = r.maxLength := by
  generalize hk : (if !r.io.unbuffered || r.io.readBufferChunkSize < r.maxLength then
    r.io.readBufferChunkSize else r.maxLength) = k
  have hk0 : 0 < k ∧ k < maxByteArraySize := by
    rw [← hk]
    split
    · exact h.onFile.chunk
    · rename_i hdirect
      simp only [Bool.or_eq_true, Bool.not_eq_true', decide_eq_true_eq, not_or, not_lt] at hdirect
      exact ⟨hm, lt_of_le_of_lt hdirect.2 h.onFile.chunk.2⟩
  obtain ⟨next, d, hnext, heq, hfile, hoff, hle⟩ := readData_next h.onFile hdev k
  have hlen : next.length ≤ k := by
    rw [hnext, List.length_take]
    omega
  have hfill := content_fill r.io.buffer k next hk0.1 hk0.2 hlen
  have hover := exhausted_next h hx (hnext ▸ List.take_prefix k _)
  generalize hr' : ({ r with
      io := { r.io with
        device := d
        buffer := fill r.io.buffer k next
        devicePos := r.io.devicePos + next.length }
      deviceAtEof := decide (next.length ≠ k) } : Reading B D) = r'
  have hround : readIntoBuffer r = if next.length > 0 then .again r' else .done r' := by
    rw [readIntoBuffer, hk, heq, ← hr']
    simp
  have hinv : ReadingInv s bytes p n keep r' := by
    subst hr'
    refine ⟨h.same.trans ⟨rfl, rfl, rfl, rfl, rfl, rfl⟩, ⟨hfile, ?_, ?_, ?_, h.onFile.chunk⟩, h.total,
      h.data, h.pos, ?_, ?_⟩
    · simp [hoff, hdev]
    · simpa [hdev] using hle
    · rw [hfill]
      exact hover
    · intro hkeep
      obtain ⟨h1, h2⟩ := h.bufferPos hkeep
      refine ⟨h1, ?_⟩
      rw [hfill, List.length_append]
      exact Nat.le_add_right_of_le h2
    · intro he
      have hshort : next.length ≠ k := by simpa using he
      have hall : next = bytes.drop r.io.pos := by
        rw [hnext, List.take_of_length_le]
        rw [hnext, List.length_take] at hshort
        omega
      simp only
      rw [hfill]
      apply hover.eq_of_length
      exact exhausted_length h hx hall
  by_cases hn : 0 < next.length
  · rw [if_pos hn] at hround
    refine .inr ⟨r', hround, hinv, ?_, ?_⟩
    · subst hr'
      exact exhausted_unread h hx hfill hn
    · subst hr'
      rfl
  · rw [if_neg hn] at hround
    refine .inl ⟨r', hround, hinv.done (.inr ?_)⟩
    have hnil : next = [] := List.length_eq_zero_iff.mp (by omega)
    have hall : next = bytes.drop r.io.pos := by
      rw [hnil] at hnext ⊢
      rcases List.take_eq_nil_iff.mp hnext.symm with hk' | hd
      · omega
      · exact hd.symm
    have hlast := exhausted_length h hx hall
    rw [hnil, List.append_nil] at hlast
    have hend := exhausted_eof h hx (h.onFile.buffer.eq_of_length hlast)
    subst hr'
    exact hend

/-- One round either ends the reading or has put unread bytes into the buffer; where there
were unread bytes before, less is wanted now. -/
theorem readRound_inv {keep : Bool} {r : Reading B D} (h : ReadingInv s bytes p n keep r)
    (hp : p ≤ bytes.length) :
    (∃ r', readRound keep r = .done r' ∧ ReadingDone s bytes p n keep r') ∨
      ∃ r', readRound keep r = .again r' ∧ ReadingInv s bytes p n keep r' ∧ 0 < unread keep r' ∧
        r'.maxLength ≤ r.maxLength ∧ (0 < unread keep r → r'.maxLength < r.maxLength) := by
  obtain ⟨h₁, hx, hmax⟩ : ReadingInv s bytes p n keep (readBuffer keep r) ∧
      (0 < (readBuffer keep r).maxLength → Exhausted keep (readBuffer keep r)) ∧
      (readBuffer keep r).maxLength = r.maxLength - min r.maxLength (unread keep r) := by
    cases keep with
    | true => exact readBuffer_keep h
    | false => exact readBuffer_take h
  rw [readRound]
  generalize readBuffer keep r = r₁ at h₁ hx hmax
  simp only
  by_cases hm : 0 < r₁.maxLength
  · by_cases he : r₁.deviceAtEof = true
    · refine .inl ⟨r₁, by simp [he], h₁.done (.inr ?_)⟩
      exact exhausted_eof h₁ (hx hm) (h₁.eof he)
    · have hle : r₁.io.pos ≤ bytes.length := by
        have := h₁.data.length_le
        rw [List.length_drop] at this
        rw [h₁.pos]
        omega
      obtain ⟨io, hio, hpos, hdev, hsame, hcontent, hover⟩ := position_over h₁.onFile hle
      generalize hr₂ : ({ r₁ with io := io, madeBufferReadsOnly := false } : Reading B D) = r₂
      have h₂ : ReadingInv s bytes p n keep r₂ := by
        subst hr₂
        refine ⟨h₁.same.trans hsame, by simp only [hpos]; exact hover, h₁.total, h₁.data,
          hpos.trans h₁.pos, ?_, ?_⟩
        · intro hk
          simp only [hcontent]
          exact h₁.bufferPos hk
        · intro he'
          exact absurd he' (by simp [he])
      have hx₂ : Exhausted keep r₂ := by
        subst hr₂
        have := hx hm
        simpa only [Exhausted, hcontent] using this
      have hdev₂ : r₂.io.devicePos = r₂.io.pos := by
        subst hr₂
        exact hdev.trans hpos.symm
      have hm₂ : r₂.maxLength = r₁.maxLength := by
        subst hr₂
        rfl
      rw [if_pos (by simp [hm, he]), hio]
      simp only [hr₂]
      split
      · rename_i hdirect
        have hkeep : keep = false := by
          simp only [Bool.and_eq_true, Bool.not_eq_true'] at hdirect
          exact hdirect.2
        subst hkeep
        exact .inl (readDirect_done h₂ hx₂ hdev₂)
      · rcases readIntoBuffer_round h₂ hx₂ hdev₂ (by omega) with hd | ⟨r', hr', hinv, hun, hmax'⟩
        · exact .inl hd
        · exact .inr ⟨r', hr', hinv, hun, by omega, by omega⟩
  · refine .inl ⟨r₁, by simp [hm], h₁.done (.inl (by omega))⟩

/-- The loop ends within the rounds allowed, and has read what there is. -/
theorem readLoop_done {keep : Bool} (hp : p ≤ bytes.length) : ∀ (fuel : Nat) {r : Reading B D},
    ReadingInv s bytes p n keep r →
    (r.maxLength + 2 ≤ fuel ∨ (0 < unread keep r ∧ r.maxLength + 1 ≤ fuel)) →
    ∃ r', readLoop keep fuel r = some (.done r') ∧ ReadingDone s bytes p n keep r'
  | 0, r, _, hf => by omega
  | fuel + 1, r, h, hf => by
    rw [readLoop]
    rcases readRound_inv h hp with ⟨r', hr', hdone⟩ | ⟨r', hr', hinv, hun, hle, hlt⟩
    · exact ⟨r', by rw [hr'], hdone⟩
    · rw [hr']
      refine readLoop_done hp fuel hinv (.inr ⟨hun, ?_⟩)
      omega

end IoDevice

end Libpdk.Io

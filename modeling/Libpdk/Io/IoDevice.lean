import Libpdk.Core.ByteQueue

/-!
# The base of all devices

`IoDevice` on top of what a subclass implements (`RawDevice`: `readData`,
`writeData`, `seek`, `getSize`), with a read buffer, for devices opened without
Text. `m_pos` is where the caller reads, `m_devicePos` where the subclass reads.
A returned -1 is `none`; `none` of the whole function means that a loop did not
end within the rounds that it was given.
-/
namespace Libpdk.Io

open ByteQueue

/-- The virtual functions of a device. `seek` is the subclass's own part. -/
class RawDevice (D : Type) where
  sequential : Bool
  readData : D → Nat → Option Bytes × D
  writeData : D → Bytes → Option Nat × D
  seek : D → Nat → Option D
  getSize : D → Nat

/-- mirrors io/internal/IoDevicePrivate.h:249-268 -/
structure IoDevice (B D : Type) where
  readable : Bool
  writable : Bool
  unbuffered : Bool
  buffer : B
  pos : Nat
  devicePos : Nat
  readBufferChunkSize : Nat
  transactionPos : Nat
  transactionStarted : Bool
  device : D

namespace IoDevice

variable {B D : Type} [ByteQueue B] [RawDevice D]

/-- mirrors io/IoDevice.cpp:537-551 -/
def opened (readable writable unbuffered : Bool) (readBufferChunkSize : Nat) (device : D) :
    IoDevice B D :=
  ⟨readable, writable, unbuffered, new readBufferChunkSize, 0, 0, readBufferChunkSize, 0, false,
    device⟩

/-- mirrors io/IoDevice.cpp:573-580 -/
def getPosition (s : IoDevice B D) : Nat := s.pos

def isSequential (_ : IoDevice B D) : Bool := RawDevice.sequential D

/-- mirrors io/internal/IoDevicePrivate.h:216-220 -/
def isBufferEmpty (s : IoDevice B D) : Bool :=
  isEmpty s.buffer ||
    (s.transactionStarted && s.isSequential && s.transactionPos == size s.buffer)

/-! ## Positions -/

/-- mirrors io/IoDevice.cpp:198-210 -/
def seekBuffer (s : IoDevice B D) (newPos : Nat) : IoDevice B D :=
  { s with
    pos := newPos
    buffer := if newPos < s.pos ∨ size s.buffer ≤ newPos - s.pos then clear s.buffer
      else free s.buffer (newPos - s.pos) }

/-- mirrors io/IoDevice.cpp:587-613 -/
def seek (s : IoDevice B D) (pos : Int) : Bool × IoDevice B D :=
  if s.isSequential then (false, s)
  else if pos < 0 then (false, s)
  else match RawDevice.seek s.device pos.toNat with
    | none => (false, s)
    | some device =>
      (true, seekBuffer { s with device := device, devicePos := pos.toNat } pos.toNat)

/-- "Make sure the device is positioned correctly."
mirrors io/IoDevice.cpp:256, 830-832 and 1002-1004 -/
def position (s : IoDevice B D) : Option (IoDevice B D) :=
  if s.isSequential then some s
  else if s.pos = s.devicePos then some s
  else match s.seek s.pos with
    | (true, s) => some s
    | (false, _) => none

/-- `readData(data, 0)`, by which a device learns that its buffer is empty. -/
def notify (s : IoDevice B D) : IoDevice B D :=
  { s with device := (RawDevice.readData s.device 0).2 }

def notifyIf (s : IoDevice B D) (empty : Bool) : IoDevice B D := if empty then s.notify else s

/-! ## Reading -/

/-- The locals of `IoDevicePrivate::read`; `data` are the bytes read so far.
mirrors io/IoDevice.cpp:217-233 -/
structure Reading (B D : Type) where
  io : IoDevice B D
  data : Bytes
  maxLength : Nat
  bufferPos : Nat
  madeBufferReadsOnly : Bool
  deviceAtEof : Bool

inductive Round (B D : Type)
  | again (r : Reading B D)
  | done (r : Reading B D)
  | failed (io : IoDevice B D)

/-- "Try reading from the buffer."
mirrors io/IoDevice.cpp:235-251 -/
def readBuffer (keep : Bool) (r : Reading B D) : Reading B D :=
  let chunk := if keep then peek r.io.buffer r.maxLength r.bufferPos
    else (ByteQueue.read r.io.buffer r.maxLength).1
  { r with
    io := { r.io with
      buffer := if keep then r.io.buffer else (ByteQueue.read r.io.buffer r.maxLength).2
      pos := if r.io.isSequential then r.io.pos else r.io.pos + chunk.length }
    data := r.data ++ chunk
    maxLength := r.maxLength - chunk.length
    bufferPos := r.bufferPos + chunk.length }

/-- What a read attempt that gave -1 leads to. -/
def readError (r : Reading B D) : Round B D := if r.data = [] then .failed r.io else .done r

/-- "Read big chunk directly to output buffer"
mirrors io/IoDevice.cpp:260-275 -/
def readDirect (r : Reading B D) : Round B D :=
  match RawDevice.readData r.io.device r.maxLength with
  | (none, device) =>
    readError { r with io := { r.io with device := device }, deviceAtEof := true }
  | (some bytes, device) =>
    .done { r with
      io := { r.io with
        device := device
        pos := if r.io.isSequential then r.io.pos else r.io.pos + bytes.length
        devicePos := if r.io.isSequential then r.io.devicePos
          else r.io.devicePos + bytes.length }
      data := r.data ++ bytes
      maxLength := r.maxLength - bytes.length
      deviceAtEof := bytes.length ≠ r.maxLength }

/-- "Try to fill pdk::io::IoDevice buffer by single read"
mirrors io/IoDevice.cpp:277-295 -/
def readIntoBuffer (r : Reading B D) : Round B D :=
  let bytesToBuffer :=
    if !r.io.unbuffered || r.io.readBufferChunkSize < r.maxLength then r.io.readBufferChunkSize
    else r.maxLength
  match RawDevice.readData r.io.device bytesToBuffer with
  | (none, device) =>
    readError { r with
      io := { r.io with device := device, buffer := fill r.io.buffer bytesToBuffer [] }
      deviceAtEof := true }
  | (some bytes, device) =>
    let r := { r with
      io := { r.io with
        device := device
        buffer := fill r.io.buffer bytesToBuffer bytes
        devicePos := if r.io.isSequential then r.io.devicePos
          else r.io.devicePos + bytes.length }
      deviceAtEof := decide (bytes.length ≠ bytesToBuffer) }
    if bytes.length > 0 then .again r else .done r

/-- One round of the loop of `read`.
mirrors io/IoDevice.cpp:234-336 -/
def readRound (keep : Bool) (r : Reading B D) : Round B D :=
  let r := readBuffer keep r
  if r.maxLength > 0 && !r.deviceAtEof then
    match r.io.position with
    | none => readError r
    | some io =>
      let r := { r with io := io, madeBufferReadsOnly := false }
      if (r.io.unbuffered || r.io.readBufferChunkSize ≤ r.maxLength) && !keep then readDirect r
      else readIntoBuffer r
  else .done r

/-- The loop of `read`, with the number of rounds allowed. -/
def readLoop (keep : Bool) : Nat → Reading B D → Option (Round B D)
  | 0, _ => none
  | n + 1, r =>
    match readRound keep r with
    | .again r => readLoop keep n r
    | round => some round

/-- "Restore positions after reading"
mirrors io/IoDevice.cpp:338-354 -/
def readFinish (keep peeking : Bool) (savedPos : Nat) (r : Reading B D) : IoDevice B D :=
  let io :=
    if keep then
      if peeking then { r.io with pos := savedPos } else { r.io with transactionPos := r.bufferPos }
    else if peeking then r.io.seekBuffer savedPos else r.io
  io.notifyIf (r.madeBufferReadsOnly && io.isBufferEmpty)

def keepDataInBuffer (s : IoDevice B D) (peeking : Bool) : Bool :=
  if s.isSequential then peeking || s.transactionStarted else peeking && !s.unbuffered

/-- `IoDevicePrivate::read`
mirrors io/IoDevice.cpp:217-349 -/
def readData (s : IoDevice B D) (maxLength : Nat) (peeking : Bool) :
    Option (Option Bytes × IoDevice B D) :=
  let keep := s.keepDataInBuffer peeking
  let bufferPos := if s.isSequential && s.transactionStarted then s.transactionPos else 0
  match readLoop keep (maxLength + 2) ⟨s, [], maxLength, bufferPos, true, false⟩ with
  | none => none
  | some (.failed io) => some (none, io)
  | some (.done r) => some (some r.data, readFinish keep peeking s.pos r)
  | some (.again _) => none

/-- "Short-cut for getChar(), unless we need to keep the data in the buffer."
mirrors io/IoDevice.cpp:659-681 -/
def readChar (s : IoDevice B D) : Bytes × IoDevice B D :=
  let io := { s with
    buffer := free s.buffer 1
    pos := if s.isSequential then s.pos else s.pos + 1 }
  (peek s.buffer 1 0, io.notifyIf (isEmpty io.buffer))

/-- `IoDevice::read` into memory of the caller.
mirrors io/IoDevice.cpp:649-697 -/
def read (s : IoDevice B D) (maxLength : Int) : Option (Option Bytes × IoDevice B D) :=
  if maxLength = 1 ∧ ¬ (s.isSequential ∧ s.transactionStarted) ∧ ¬ isEmpty s.buffer then
    some (some s.readChar.1, s.readChar.2)
  else if maxLength < 0 ∨ ¬ s.readable then some (none, s)
  else s.readData maxLength.toNat false

/-- `IoDevice::read` into a `ByteArray`.
mirrors io/IoDevice.cpp:699-730 -/
def readArray (s : IoDevice B D) (maxLength : Int) : Option (Bytes × IoDevice B D) :=
  if maxLength = nextDataBlockSize s.buffer ∧ ¬ s.transactionStarted ∧ s.readable then
    let io := { s with
      buffer := (readBlock s.buffer).2
      pos := if s.isSequential then s.pos else s.pos + maxLength.toNat }
    some ((readBlock s.buffer).1, io.notifyIf (isEmpty io.buffer))
  else if maxLength < 0 then some ([], s)
  else (s.read (min maxLength (maxByteArraySize - 1))).map fun (bytes, s) => (bytes.getD [], s)

/-- mirrors io/IoDevice.cpp:1099-1104 -/
def getChar (s : IoDevice B D) : Option (Option Bytes × IoDevice B D) := s.read 1

/-- mirrors io/IoDevice.cpp:742-758 -/
def readAllLoop (s : IoDevice B D) (result : Bytes) (readChunkSize : Nat) :
    Nat → Option (Bytes × IoDevice B D)
  | 0 => none
  | n + 1 =>
    if result.length + readChunkSize ≥ maxByteArraySize then some (result, s)
    else (s.read readChunkSize).bind fun
      | (none, s) => some (result, s)
      | (some [], s) => some (result, s)
      | (some (c :: bytes), s) =>
        readAllLoop s (result ++ c :: bytes) s.readBufferChunkSize n

/-- mirrors io/IoDevice.cpp:732-775 -/
def readAll (s : IoDevice B D) : Option (Bytes × IoDevice B D) :=
  let readBytes := if s.isSequential then 0 else RawDevice.getSize s.device
  if readBytes = 0 then
    let inBuffer :=
      if s.isSequential then size s.buffer - s.transactionPos else size s.buffer
    s.readAllLoop [] (max s.readBufferChunkSize inBuffer) (maxByteArraySize + 1)
  else if (readBytes : Int) - s.pos ≥ maxByteArraySize then some ([], s)
  else (s.read ((readBytes : Int) - s.pos)).map fun (bytes, s) => (bytes.getD [], s)

/-! ## Peeking and skipping -/

/-- mirrors io/IoDevice.cpp:352-355 and 1106-1112 -/
def peekBytes (s : IoDevice B D) (maxLength : Int) : Option (Option Bytes × IoDevice B D) :=
  if maxLength < 0 ∨ ¬ s.readable then some (none, s)
  else s.readData maxLength.toNat true

/-- mirrors io/IoDevice.cpp:357-369 and 1114-1121 -/
def peekArray (s : IoDevice B D) (maxLength : Int) : Option (Bytes × IoDevice B D) :=
  if maxLength < 0 ∨ ¬ s.readable then some ([], s)
  else (s.readData (min maxLength (maxByteArraySize - 1)).toNat true).map fun (bytes, s) =>
    (bytes.getD [], s)

/-- The number of bytes skipped so far is added to what the next read returns.
mirrors io/IoDevice.cpp:371-395 -/
def skipByReadingLoop (s : IoDevice B D) (readSoFar maxLength : Nat) :
    Nat → Option (Option Nat × IoDevice B D)
  | 0 => none
  | n + 1 =>
    (s.readData (min maxLength 4096) false).bind fun
      | (none, s) => some (if readSoFar = 0 then none else some readSoFar, s)
      | (some bytes, s) =>
        if bytes.length ≠ min maxLength 4096 then some (some (readSoFar + bytes.length), s)
        else if maxLength - bytes.length > 0 then
          skipByReadingLoop s (readSoFar + bytes.length) (maxLength - bytes.length) n
        else some (some (readSoFar + bytes.length), s)

def skipByReading (s : IoDevice B D) (maxLength : Nat) : Option (Option Nat × IoDevice B D) :=
  s.skipByReadingLoop 0 maxLength (maxLength + 1)

/-- "First, skip over any data in the internal buffer."
mirrors io/IoDevice.cpp:1138-1157 -/
def skipInBuffer (s : IoDevice B D) (maxLength : Nat) : Nat × IoDevice B D :=
  if isEmpty s.buffer then (0, s)
  else
    let io := { s with
      buffer := (ByteQueue.skip s.buffer maxLength).2
      pos := if s.isSequential then s.pos else s.pos + (ByteQueue.skip s.buffer maxLength).1 }
    ((ByteQueue.skip s.buffer maxLength).1, io.notifyIf (isEmpty io.buffer))

/-- The end of `skip`: the rest is skipped by reading.
mirrors io/IoDevice.cpp:1178-1187 -/
def skipRest (s : IoDevice B D) (skippedSoFar maxLength : Nat) :
    Option (Option Nat × IoDevice B D) :=
  (s.skipByReading maxLength).map fun
    | (none, s) => (if skippedSoFar = 0 then none else some skippedSoFar, s)
    | (some skipped, s) => (some (skippedSoFar + skipped), s)

/-- mirrors io/IoDevice.cpp:1123-1188 -/
def skip (s : IoDevice B D) (maxLength : Int) : Option (Option Nat × IoDevice B D) :=
  if maxLength < 0 ∨ ¬ s.readable then some (none, s)
  else if s.isSequential ∧ s.transactionStarted then s.skipByReading maxLength.toNat
  else
    let maxLength := maxLength.toNat
    let wasEmpty := isEmpty s.buffer
    let (skippedSoFar, s) := s.skipInBuffer maxLength
    if !wasEmpty && skippedSoFar == maxLength then some (some skippedSoFar, s)
    else
      let maxLength := maxLength - skippedSoFar
      let bytesToSkip := min ((RawDevice.getSize s.device : Int) - s.pos) maxLength
      if !s.isSequential && bytesToSkip > 0 then
        match s.seek (s.pos + bytesToSkip) with
        | (false, s) => some (if skippedSoFar = 0 then none else some skippedSoFar, s)
        | (true, s) =>
          if bytesToSkip = maxLength then some (some (skippedSoFar + maxLength), s)
          else s.skipRest (skippedSoFar + bytesToSkip.toNat) (maxLength - bytesToSkip.toNat)
      else s.skipRest skippedSoFar maxLength

/-! ## Lines -/

def newline : UInt8 := byte '\n'

/-- The loop of `readLineData`: the bytes read and what the last read returned.
mirrors io/IoDevice.cpp:922-934 -/
def readLineLoop (s : IoDevice B D) (data : Bytes) :
    Nat → Option (Bytes × Option Bytes × IoDevice B D)
  | 0 => some (data, some [], s)
  | n + 1 =>
    (s.read 1).bind fun
      | (some [c], s) =>
        if c = newline then some (data ++ [c], some [c], s) else readLineLoop s (data ++ [c]) n
      | (last, s) => some (data, last, s)

/-- mirrors io/IoDevice.cpp:919-942 -/
def readLineData (s : IoDevice B D) (maxLength : Nat) : Option (Option Bytes × IoDevice B D) :=
  (s.readLineLoop [] maxLength).map fun (data, last, s) =>
    if data = [] then (if s.isSequential then last else none, s) else (some data, s)

/-- The part of a line that is in the buffer.
mirrors io/IoDevice.cpp:791-812 -/
def readLineBuffer (s : IoDevice B D) (maxLength : Nat) : Bytes × IoDevice B D :=
  if s.isSequential ∧ s.transactionStarted then
    if s.transactionPos < size s.buffer then
      let data := peek s.buffer (match indexOf s.buffer newline maxLength s.transactionPos with
        | some i => i - s.transactionPos + 1
        | none => maxLength) s.transactionPos
      let io := { s with transactionPos := s.transactionPos + data.length }
      (data, io.notifyIf (io.transactionPos == size io.buffer))
    else ([], s)
  else if isEmpty s.buffer then ([], s)
  else
    let (data, buffer) := ByteQueue.readLine s.buffer newline maxLength
    let io := { s with buffer := buffer }
    let io := io.notifyIf (isEmpty io.buffer)
    (data, { io with pos := if s.isSequential then io.pos else io.pos + data.length })

/-- mirrors io/IoDevice.cpp:777-875 -/
def readLine (s : IoDevice B D) (maxLength : Int) : Option (Option Bytes × IoDevice B D) :=
  if maxLength < 2 then some (none, s)
  else
    let maxLength := maxLength.toNat - 1
    let (data, s) := s.readLineBuffer maxLength
    if data.getLast? = some newline then some (some data, s)
    else match s.position with
      | none => some (none, s)
      | some s =>
        (s.readLineData (maxLength - data.length)).map fun
          | (none, s) => (if data = [] then none else some data, s)
          | (some bytes, s) => (some (data ++ bytes), s)

/-- mirrors io/IoDevice.cpp:897-907 -/
def readLineArrayLoop (s : IoDevice B D) (maxLength size : Nat) (result : Bytes) :
    Nat → Option (Bytes × IoDevice B D)
  | 0 => none
  | n + 1 =>
    let chunkSize := s.readBufferChunkSize
    let size := min maxLength (size + chunkSize)
    (s.readLine ((size : Int) - result.length)).bind fun
      | (none, s) => some (result, s)
      | (some bytes, s) =>
        if bytes.length = chunkSize ∧ (result ++ bytes).getLast? ≠ some newline then
          readLineArrayLoop s maxLength size (result ++ bytes) n
        else some (result ++ bytes, s)

/-- mirrors io/IoDevice.cpp:877-917 -/
def readLineArray (s : IoDevice B D) (maxLength : Int) : Option (Bytes × IoDevice B D) :=
  if maxLength < 0 then some ([], s)
  else if maxLength = 0 then
    s.readLineArrayLoop (maxByteArraySize - 1) 1 [] maxByteArraySize
  else (s.readLine (min maxLength (maxByteArraySize - 1))).map fun (bytes, s) =>
    (bytes.getD [], s)

/-! ## Writing and transactions -/

/-- mirrors io/IoDevice.cpp:995-1067 -/
def write (s : IoDevice B D) (data : Bytes) : Option Nat × IoDevice B D :=
  if ¬ s.writable then (none, s)
  else match s.position with
    | none => (none, s)
    | some s =>
      match RawDevice.writeData s.device data with
      | (none, device) => (none, { s with device := device })
      | (some written, device) =>
        let io := { s with device := device }
        if !s.isSequential && written > 0 then
          (some written, { io with
            pos := s.pos + written
            devicePos := s.devicePos + written
            buffer := (ByteQueue.skip s.buffer written).2 })
        else (some written, io)

/-- mirrors io/IoDevice.cpp:951-960 -/
def startTransaction (s : IoDevice B D) : IoDevice B D :=
  if s.transactionStarted then s
  else { s with transactionPos := s.pos, transactionStarted := true }

/-- mirrors io/IoDevice.cpp:962-974 -/
def commitTransaction (s : IoDevice B D) : IoDevice B D :=
  if ¬ s.transactionStarted then s
  else
    { s with
      buffer := if s.isSequential then free s.buffer s.transactionPos else s.buffer
      transactionStarted := false
      transactionPos := 0 }

/-- mirrors io/IoDevice.cpp:976-988 -/
def rollbackTransaction (s : IoDevice B D) : IoDevice B D :=
  if ¬ s.transactionStarted then s
  else
    { (if s.isSequential then s else s.seekBuffer s.transactionPos) with
      transactionStarted := false
      transactionPos := 0 }

end IoDevice

end Libpdk.Io

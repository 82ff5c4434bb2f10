import Libpdk.Core.ByteQueue
import Libpdk.Io.ByteFile

/-!
# Random-access devices

`IoDevice` for devices that are not sequential: opened with Text or without, with bytes pushed
back into the read buffer, and with virtual functions that may use the positions of the base. The
device is open and no transaction is in progress. A returned -1 is `none`; `none` of the whole
function means that an exception was thrown, or that a loop did not end within its rounds.
-/
namespace Libpdk.Io

open PushQueue

/-- mirrors io/internal/IoDevicePrivate.h:249-268 -/
structure RandomAccess (B D : Type) where
  readable : Bool
  writable : Bool
  unbuffered : Bool
  text : Bool
  buffer : B
  pos : Nat
  devicePos : Nat
  readBufferChunkSize : Nat
  device : D

/-- What a subclass overrides. -/
class Virtual (B D : Type) where
  readData : RandomAccess B D → Nat → Option Bytes × RandomAccess B D
  writeData : RandomAccess B D → Bytes → Option (Option Nat × RandomAccess B D)
  seek : RandomAccess B D → Int → Option (Bool × RandomAccess B D)
  getSize : RandomAccess B D → Nat

namespace RandomAccess

def newline : UInt8 := byte '\n'

def carriageReturn : UInt8 := byte '\r'

variable {B D : Type} [PushQueue B]

/-- mirrors io/IoDevice.cpp:537-551 -/
def opened (readable writable unbuffered text : Bool) (readBufferChunkSize : Nat) (device : D) :
    RandomAccess B D :=
  ⟨readable, writable, unbuffered, text, new readBufferChunkSize, 0, 0, readBufferChunkSize, device⟩

/-- mirrors io/IoDevice.cpp:573-580 -/
def getPosition (s : RandomAccess B D) : Nat := s.pos

/-! ## Positions -/

/-- mirrors io/IoDevice.cpp:198-210 -/
def seekBuffer (s : RandomAccess B D) (newPos : Nat) : RandomAccess B D :=
  { s with
    pos := newPos
    buffer := if newPos < s.pos ∨ size s.buffer ≤ newPos - s.pos then clear s.buffer
      else free s.buffer (newPos - s.pos) }

/-- `IoDevice::seek`, without what a subclass does before.
mirrors io/IoDevice.cpp:587-613 -/
def baseSeek (s : RandomAccess B D) (pos : Int) : Bool × RandomAccess B D :=
  if pos < 0 then (false, s)
  else (true, { s with devicePos := pos.toNat }.seekBuffer pos.toNat)

/-- "Make sure the device is positioned correctly."
mirrors io/IoDevice.cpp:256, 830-832 and 1002-1004 -/
def positionBy (seek : RandomAccess B D → Int → Option (Bool × RandomAccess B D))
    (s : RandomAccess B D) : Option (Bool × RandomAccess B D) :=
  if s.pos = s.devicePos then some (true, s) else seek s s.pos

/-- `write`, for the virtual functions that it calls.
mirrors io/IoDevice.cpp:995-1067 -/
def writeBy (seek : RandomAccess B D → Int → Option (Bool × RandomAccess B D))
    (writeData : RandomAccess B D → Bytes → Option (Option Nat × RandomAccess B D))
    (s : RandomAccess B D) (data : Bytes) : Option (Option Nat × RandomAccess B D) :=
  if ¬ s.writable then some (none, s)
  else (s.positionBy seek).bind fun
    | (false, s) => some (none, s)
    | (true, s) => (writeData s data).map fun
      | (none, s) => (none, s)
      | (some written, s) =>
        if written > 0 then
          (some written, { s with
            pos := s.pos + written
            devicePos := s.devicePos + written
            buffer := (skip s.buffer written).2 })
        else (some written, s)

variable [Virtual B D]

def position (s : RandomAccess B D) : Option (Bool × RandomAccess B D) :=
  s.positionBy Virtual.seek

def write (s : RandomAccess B D) (data : Bytes) : Option (Option Nat × RandomAccess B D) :=
  s.writeBy Virtual.seek Virtual.writeData data

/-- `readData(data, 0)`, by which a device learns that its buffer is empty. -/
def notify (s : RandomAccess B D) : RandomAccess B D := (Virtual.readData s 0).2

def notifyIf (s : RandomAccess B D) (empty : Bool) : RandomAccess B D :=
  if empty then s.notify else s

/-- mirrors io/IoDevice.cpp:615-625 and 634-641 -/
def atEnd (s : RandomAccess B D) : Bool :=
  isEmpty s.buffer && (Virtual.getSize s : Int) - s.pos ≤ 0

/-! ## Reading -/

/-- The locals of `IoDevicePrivate::read`; `data` are the bytes read so far, of which carriage
returns have been removed before `readPtr`.
mirrors io/IoDevice.cpp:217-233 -/
structure Reading (B D : Type) where
  io : RandomAccess B D
  data : Bytes
  readPtr : Nat
  maxLength : Nat
  bufferPos : Nat
  madeBufferReadsOnly : Bool
  deviceAtEof : Bool

/-- What a part of a round leads to: the next round, the next part, or -1. -/
inductive Round (B D : Type)
  | again (r : Reading B D)
  | next (r : Reading B D)
  | failed (io : RandomAccess B D)

/-- "Try reading from the buffer."
mirrors io/IoDevice.cpp:235-251 -/
def readBuffer (keep : Bool) (r : Reading B D) : Reading B D :=
  let chunk := if keep then PushQueue.peek r.io.buffer r.maxLength r.bufferPos
    else (PushQueue.read r.io.buffer r.maxLength).1
  { r with
    io := { r.io with
      buffer := if keep then r.io.buffer else (PushQueue.read r.io.buffer r.maxLength).2
      pos := r.io.pos + chunk.length }
    data := r.data ++ chunk
    maxLength := r.maxLength - chunk.length
    bufferPos := r.bufferPos + chunk.length }

/-- What a read attempt that gave -1 leads to. -/
def readError (r : Reading B D) : Round B D := if r.data = [] then .failed r.io else .next r

/-- "Read big chunk directly to output buffer"
mirrors io/IoDevice.cpp:258-275 -/
def readDirect (r : Reading B D) : Round B D :=
  match Virtual.readData r.io r.maxLength with
  | (none, io) => readError { r with io := io, deviceAtEof := true }
  | (some bytes, io) =>
    .next { r with
      io := { io with
        pos := io.pos + bytes.length
        devicePos := io.devicePos + bytes.length }
      data := r.data ++ bytes
      maxLength := r.maxLength - bytes.length
      deviceAtEof := bytes.length ≠ r.maxLength }

/-- "Try to fill pdk::io::IoDevice buffer by single read"
mirrors io/IoDevice.cpp:276-297 -/
def readIntoBuffer (r : Reading B D) : Round B D :=
  let bytesToBuffer :=
    if !r.io.unbuffered || r.io.readBufferChunkSize < r.maxLength then r.io.readBufferChunkSize
    else r.maxLength
  match Virtual.readData r.io bytesToBuffer with
  | (none, io) =>
    readError { r with
      io := { io with buffer := fill io.buffer bytesToBuffer [] }
      deviceAtEof := true }
  | (some bytes, io) =>
    let r := { r with
      io := { io with
        buffer := fill io.buffer bytesToBuffer bytes
        devicePos := io.devicePos + bytes.length }
      deviceAtEof := decide (bytes.length ≠ bytesToBuffer) }
    if bytes.length > 0 then .again r else .next r

/-- mirrors io/IoDevice.cpp:252-308 -/
def readDevice (keep : Bool) (r : Reading B D) : Option (Round B D) :=
  if r.maxLength > 0 && !r.deviceAtEof then
    r.io.position.map fun
      | (false, io) => readError { r with io := io }
      | (true, io) =>
        let r := { r with io := io, madeBufferReadsOnly := false }
        if (r.io.unbuffered || r.io.readBufferChunkSize ≤ r.maxLength) && !keep then readDirect r
        else readIntoBuffer r
  else some (.next r)

/-- With Text the carriage returns of what was read are removed, and more is read into the room
that they leave.
mirrors io/IoDevice.cpp:310-336 -/
def removeReturns (r : Reading B D) : Round B D :=
  if r.io.text && r.readPtr < r.data.length then
    let kept := (r.data.drop r.readPtr).filter (· ≠ carriageReturn)
    .again { r with
      data := r.data.take r.readPtr ++ kept
      maxLength := r.maxLength + ((r.data.length - r.readPtr) - kept.length)
      readPtr := r.readPtr + kept.length }
  else .next r

/-- One round of the loop of `read`.
mirrors io/IoDevice.cpp:234-336 -/
def readRound (keep : Bool) (r : Reading B D) : Option (Round B D) :=
  (readDevice keep (readBuffer keep r)).map fun
    | .next r => removeReturns r
    | round => round

/-- The loop of `read`, with the number of rounds allowed. -/
def readLoop (keep : Bool) : Nat → Reading B D → Option (Round B D)
  | 0, _ => none
  | n + 1, r => (readRound keep r).bind fun
    | .again r => readLoop keep n r
    | round => some round

/-- "Restore positions after reading"
mirrors io/IoDevice.cpp:338-354 -/
def readFinish (keep peeking : Bool) (savedPos : Nat) (r : Reading B D) : RandomAccess B D :=
  let io :=
    if keep then { r.io with pos := savedPos }
    else if peeking then r.io.seekBuffer savedPos else r.io
  io.notifyIf (r.madeBufferReadsOnly && isEmpty io.buffer)

/-- `IoDevicePrivate::read`. A round takes bytes from the device, or looks at bytes not looked at
before.
mirrors io/IoDevice.cpp:217-349 -/
def privateRead (s : RandomAccess B D) (maxLength : Nat) (peeking : Bool) :
    Option (Option Bytes × RandomAccess B D) :=
  let keep := peeking && !s.unbuffered
  (readLoop keep (2 * Virtual.getSize s + 1) ⟨s, [], 0, maxLength, 0, true, false⟩).bind fun
    | .failed io => some (none, io)
    | .next r => some (some r.data, readFinish keep peeking s.pos r)
    | .again _ => none

/-- "Short-cut for getChar()": the first byte of the buffer that is no carriage return to be
removed.
mirrors io/IoDevice.cpp:659-681 -/
def readChar (s : RandomAccess B D) : Nat → Option UInt8 × RandomAccess B D
  | 0 => (none, s)
  | n + 1 =>
    match PushQueue.peek s.buffer 1 0 with
    | [] => (none, s)
    | c :: _ =>
      let s := { s with buffer := free s.buffer 1, pos := s.pos + 1 }
      if c = carriageReturn ∧ s.text then s.readChar n
      else (some c, s.notifyIf (isEmpty s.buffer))

def readChecked (s : RandomAccess B D) (maxLength : Int) :
    Option (Option Bytes × RandomAccess B D) :=
  if maxLength < 0 ∨ ¬ s.readable then some (none, s)
  else s.privateRead maxLength.toNat false

/-- `IoDevice::read` into memory of the caller.
mirrors io/IoDevice.cpp:649-697 -/
def read (s : RandomAccess B D) (maxLength : Int) : Option (Option Bytes × RandomAccess B D) :=
  if maxLength = 1 then
    match s.readChar (size s.buffer) with
    | (some c, s) => some (some [c], s)
    | (none, s) => s.readChecked maxLength
  else s.readChecked maxLength

/-- At position 0 the position of the source becomes -1, here it stays.
mirrors io/IoDevice.cpp:1074-1093 -/
def ungetChar (s : RandomAccess B D) (c : UInt8) : RandomAccess B D :=
  if ¬ s.readable then s else { s with buffer := unget s.buffer c, pos := s.pos - 1 }

/-! ## Lines -/

/-- A carriage return before the newline at the end is removed.
mirrors io/IoDevice.cpp:818-824 and 862-868 -/
def endLine (text : Bool) (data : Bytes) : Bytes :=
  if text ∧ data.drop (data.length - 2) = [carriageReturn, newline] then
    data.take (data.length - 2) ++ [newline]
  else data

/-- The loop of `readLineData`.
mirrors io/IoDevice.cpp:922-934 -/
def readLineLoop (s : RandomAccess B D) (data : Bytes) : Nat → Option (Bytes × RandomAccess B D)
  | 0 => some (data, s)
  | n + 1 =>
    (s.read 1).bind fun
      | (some [c], s) =>
        if c = newline then some (data ++ [c], s) else readLineLoop s (data ++ [c]) n
      | (_, s) => some (data, s)

/-- mirrors io/IoDevice.cpp:919-942 -/
def readLineData (s : RandomAccess B D) (maxLength : Nat) :
    Option (Option Bytes × RandomAccess B D) :=
  (s.readLineLoop [] maxLength).map fun (data, s) => (if data = [] then none else some data, s)

/-- The part of a line that is in the buffer.
mirrors io/IoDevice.cpp:803-812 -/
def readLineBuffer (s : RandomAccess B D) (maxLength : Nat) : Bytes × RandomAccess B D :=
  if isEmpty s.buffer then ([], s)
  else
    let (data, buffer) := PushQueue.readLine s.buffer newline maxLength
    let s := { s with buffer := buffer }.notifyIf (isEmpty buffer)
    (data, { s with pos := s.pos + data.length })

/-- For devices that keep the `readLineData` of the base.
mirrors io/IoDevice.cpp:777-875 -/
def readLine (s : RandomAccess B D) (maxLength : Int) : Option (Option Bytes × RandomAccess B D) :=
  if maxLength < 2 then some (none, s)
  else
    let maxLength := maxLength.toNat - 1
    let (data, s) := s.readLineBuffer maxLength
    if data.getLast? = some newline then some (some (endLine s.text data), s)
    else s.position.bind fun
      | (false, s) => some (none, s)
      | (true, s) =>
        (s.readLineData (maxLength - data.length)).map fun
          | (none, s) => (if data = [] then none else some data, s)
          | (some bytes, s) => (some (endLine s.text (data ++ bytes)), s)

end RandomAccess

/-- `peek` is virtual as well, and made of the other virtual functions in the base. -/
class VirtualPeek (B D : Type) [PushQueue B] extends Virtual B D where
  peek : RandomAccess B D → Nat → Option (Option Bytes × RandomAccess B D)

/-- mirrors io/IoDevice.cpp:1106-1112 -/
def RandomAccess.peek {B D : Type} [PushQueue B] [VirtualPeek B D] (s : RandomAccess B D)
    (maxLength : Int) : Option (Option Bytes × RandomAccess B D) :=
  if maxLength < 0 ∨ ¬ s.readable then some (none, s)
  else VirtualPeek.peek s maxLength.toNat

/-- A device that overrides neither the positions nor `peek`. -/
instance {B D : Type} [PushQueue B] [RawDevice D] : Virtual B D where
  readData s n := ((RawDevice.readData s.device n).1,
    { s with device := (RawDevice.readData s.device n).2 })
  writeData s data := some ((RawDevice.writeData s.device data).1,
    { s with device := (RawDevice.writeData s.device data).2 })
  seek s pos :=
    if pos < 0 then some (false, s)
    else match RawDevice.seek s.device pos.toNat with
      | none => some (false, s)
      | some device => some ({ s with device := device }.baseSeek pos)
  getSize s := RawDevice.getSize s.device

instance {B D : Type} [PushQueue B] [RawDevice D] : VirtualPeek B D where
  peek s maxLength := s.privateRead maxLength true

end Libpdk.Io

import Libpdk.Core.FloatBits
import Libpdk.Core.Mem
import Libpdk.Io.IoDevice

/-!
# Data streams

`DataStream` on a device that is set: the stream operators of the scalar types,
`String`, the blocks of `readBytes` and `writeBytes`, `std::vector` and `std::list`,
raw data, and transactions. A number in memory is a list of bytes in the order of
the machine. Reading gives `none` where the device's loop does not end and where
memory would be written that was not allocated.
-/
namespace Libpdk.Io

section

open Mem (toLe ofLe)

inductive ByteOrder
  | bigEndian
  | littleEndian
  deriving DecidableEq

inductive Status
  | ok
  | readPastEnd
  | readCorruptData
  | writeFailed
  deriving DecidableEq

inductive FloatingPointPrecision
  | singlePrecision
  | doublePrecision
  deriving DecidableEq

/-- `SysInfo::ByteOrder` of the machine. -/
class Host where
  byteOrder : ByteOrder

section Memory

variable [Host]

/-- The `n` bytes of a number in memory. -/
def memory (n v : Nat) : Bytes :=
  match Host.byteOrder with
  | .littleEndian => toLe n v
  | .bigEndian => (toLe n v).reverse

def ofMemory (bytes : Bytes) : Nat :=
  match Host.byteOrder with
  | .littleEndian => ofLe bytes
  | .bigEndian => ofLe bytes.reverse

/-- mirrors global/Endian.h:65-101 -/
def bswap (n v : Nat) : Nat := ofLe (toLe n v).reverse

/-- The units of a string as they lie in memory. -/
def rawData (str : Str) : Bytes := str.flatMap fun unit => memory 2 unit.toNat

def ofRawData : Bytes → Str
  | a :: b :: bytes => UInt16.ofNat (ofMemory [a, b]) :: ofRawData bytes
  | _ => []

def bswapUnit (unit : UInt16) : UInt16 := UInt16.ofNat (bswap 2 unit.toNat)

end Memory

/-- The private part, where there is none, has these defaults: double precision and no
transaction.
mirrors io/DataStream.h:145-152 -/
structure DataStream (B D : Type) where
  device : IoDevice B D
  noswap : Bool
  byteorder : ByteOrder
  version : Nat
  status : Status
  floatingPointPrecision : FloatingPointPrecision
  transactionDepth : Nat

namespace DataStream

variable {B D : Type} [ByteQueue B] [RawDevice D] [Host]

/-- `Version::DefaultCompiledVersion` -/
def defaultCompiledVersion : Nat := 0

/-- mirrors io/DataStream.cpp:68-76 -/
def new (device : IoDevice B D) : DataStream B D :=
  ⟨device, Host.byteOrder = .bigEndian, .bigEndian, defaultCompiledVersion, .ok,
    .doublePrecision, 0⟩

/-- mirrors io/DataStream.cpp:167-175 -/
def setByteOrder (s : DataStream B D) (bo : ByteOrder) : DataStream B D :=
  { s with
    byteorder := bo
    noswap := match Host.byteOrder with
      | .bigEndian => bo = .bigEndian
      | .littleEndian => bo = .littleEndian }

/-- mirrors io/DataStream.cpp:142-148 -/
def setFloatingPointPrecision (s : DataStream B D) (precision : FloatingPointPrecision) :
    DataStream B D :=
  { s with floatingPointPrecision := precision }

def resetStatus (s : DataStream B D) : DataStream B D := { s with status := .ok }

/-- mirrors io/DataStream.cpp:160-165 -/
def setStatus (s : DataStream B D) (status : Status) : DataStream B D :=
  if s.status = .ok then { s with status := status } else s

/-! ## Transactions -/

/-- mirrors io/DataStream.cpp:177-187 -/
def startTransaction (s : DataStream B D) : DataStream B D :=
  let s := { s with transactionDepth := s.transactionDepth + 1 }
  if s.transactionDepth = 1 then resetStatus { s with device := s.device.startTransaction } else s

/-- mirrors io/DataStream.cpp:189-201 -/
def commitTransaction (s : DataStream B D) : Bool × DataStream B D :=
  if s.transactionDepth = 0 then (false, s)
  else
    let s := { s with transactionDepth := s.transactionDepth - 1 }
    if s.transactionDepth = 0 then
      if s.status = .readPastEnd then
        (false, { s with device := s.device.rollbackTransaction })
      else (s.status = .ok, { s with device := s.device.commitTransaction })
    else (s.status = .ok, s)

/-- mirrors io/DataStream.cpp:203-216 -/
def rollbackTransaction (s : DataStream B D) : DataStream B D :=
  let s := s.setStatus .readPastEnd
  if s.transactionDepth = 0 then s
  else
    let s := { s with transactionDepth := s.transactionDepth - 1 }
    if s.transactionDepth ≠ 0 then s
    else if s.status = .readPastEnd then { s with device := s.device.rollbackTransaction }
    else { s with device := s.device.commitTransaction }

/-- mirrors io/DataStream.cpp:218-227 -/
def abortTransaction (s : DataStream B D) : DataStream B D :=
  let s := { s with status := .readCorruptData }
  if s.transactionDepth = 0 then s
  else
    let s := { s with transactionDepth := s.transactionDepth - 1 }
    if s.transactionDepth ≠ 0 then s else { s with device := s.device.commitTransaction }

/-! ## Reading -/

/-- What a read function returned, -1 for an error. -/
def readResult (data : Option Bytes) : Int :=
  match data with
  | none => -1
  | some data => data.length

/-- mirrors io/DataStream.cpp:233-244 -/
def readBlock (s : DataStream B D) (len : Int) : Option (Option Bytes × DataStream B D) :=
  if s.status ≠ .ok ∧ s.device.transactionStarted then some (none, s)
  else (s.device.read len).map fun (data, device) =>
    let s := { s with device := device }
    (data, if readResult data ≠ len then s.setStatus .readPastEnd else s)

/-- A number of `n` bytes, zero where they are not there.
mirrors io/DataStream.cpp:257-283, 322-336 and 348-362 -/
def readFixed (n : Nat) (s : DataStream B D) : Option (Nat × DataStream B D) :=
  (s.readBlock n).map fun (data, s) =>
    if readResult data ≠ n then (0, s)
    else
      let i := ofMemory (data.getD [])
      (if s.noswap then i else bswap n i, s)

/-- mirrors io/DataStream.cpp:246-255 -/
def readInt8 (s : DataStream B D) : Option (BitVec 8 × DataStream B D) :=
  (s.readBlock 1).map fun (data, s) =>
    (match data with
      | some [c] => BitVec.ofNat 8 c.toNat
      | _ => 0, s)

def readInt16 (s : DataStream B D) : Option (BitVec 16 × DataStream B D) :=
  (readFixed 2 s).map fun (i, s) => (BitVec.ofNat 16 i, s)

def readInt32 (s : DataStream B D) : Option (BitVec 32 × DataStream B D) :=
  (readFixed 4 s).map fun (i, s) => (BitVec.ofNat 32 i, s)

/-- mirrors io/DataStream.cpp:285-303 -/
def readInt64 (s : DataStream B D) : Option (BitVec 64 × DataStream B D) :=
  if s.version < 6 then
    s.readInt32.bind fun (i2, s) => s.readInt32.map fun (i1, s) =>
      (i1.setWidth 64 <<< 32 + i2.setWidth 64, s)
  else (readFixed 8 s).map fun (i, s) => (BitVec.ofNat 64 i, s)

/-- mirrors io/DataStream.cpp:305-311 -/
def readBool (s : DataStream B D) : Option (Bool × DataStream B D) :=
  s.readInt8.map fun (v, s) => (v != 0, s)

/-- In double precision the operator of `double` is called.
mirrors io/DataStream.cpp:313-337 -/
def readFloat (s : DataStream B D) : Option (Binary32 × DataStream B D) :=
  match s.floatingPointPrecision with
  | .doublePrecision => (readFixed 8 s).map fun (d, s) => ((Binary64.ofBits d).narrow, s)
  | .singlePrecision => (readFixed 4 s).map fun (f, s) => (Binary32.ofBits f, s)

/-- In single precision the operator of `float` is called.
mirrors io/DataStream.cpp:339-363 -/
def readDouble (s : DataStream B D) : Option (Binary64 × DataStream B D) :=
  match s.floatingPointPrecision with
  | .singlePrecision => (readFixed 4 s).map fun (f, s) => ((Binary32.ofBits f).widen, s)
  | .doublePrecision => (readFixed 8 s).map fun (d, s) => (Binary64.ofBits d, s)

/-- Blocks and strings are read in steps. -/
def step : Nat := 1024 * 1024

/-- The loop of `readBytes`. The size of the memory that is allocated is a `uint`.
mirrors io/DataStream.cpp:385-398 -/
def readBytesLoop (len : Nat) (s : DataStream B D) (data : Bytes) :
    Nat → Option (Option Bytes × DataStream B D)
  | 0 => none
  | rounds + 1 =>
    let blockSize := min step (len - data.length)
    if data.length + blockSize + 1 ≥ 4294967296 then none
    else (s.readBlock blockSize).bind fun (block, s) =>
      if readResult block ≠ blockSize then some (none, s)
      else
        let data := data ++ block.getD []
        if data.length < len then readBytesLoop len s data rounds else some (some data, s)

/-- The block, empty where it was not read.
mirrors io/DataStream.cpp:371-404 -/
def readBytes (s : DataStream B D) : Option (Bytes × DataStream B D) :=
  s.readInt32.bind fun (len, s) =>
    if len = 0 then some ([], s)
    else (readBytesLoop len.toNat s [] (len.toNat + 1)).map fun (data, s) => (data.getD [], s)

/-- mirrors io/DataStream.cpp:406-410 -/
def readRawData (s : DataStream B D) (len : Int) : Option (Option Bytes × DataStream B D) :=
  s.readBlock len

/-- The loop that reads the units of a string; `data` is what was read of them.
mirrors lang/String.cpp:4145-4155 -/
def readStringLoop (len : Nat) (s : DataStream B D) (data : Bytes) (allocated : Nat) :
    Nat → Option (Option Bytes × DataStream B D)
  | 0 => none
  | rounds + 1 =>
    if allocated < len then
      let blockSize := min step (len - allocated)
      (s.readRawData (blockSize * 2 : Nat)).bind fun (block, s) =>
        if readResult block ≠ (blockSize * 2 : Nat) then
          some (none, s.setStatus .readPastEnd)
        else readStringLoop len s (data ++ block.getD []) (allocated + blockSize) rounds
    else some (some data, s)

/-- A null string is `none`.
mirrors lang/String.cpp:4130-4169 -/
def readString (s : DataStream B D) : Option (Option Str × DataStream B D) :=
  s.readInt32.bind fun (bytes, s) =>
    if bytes.toNat = 4294967295 then some (none, s)
    else if bytes.toNat > 0 then
      if bytes.toNat % 2 = 1 then some (none, s.setStatus .readCorruptData)
      else
        let len := bytes.toNat / 2
        (readStringLoop len s [] 0 (len + 1)).map fun
          | (none, s) => (none, s)
          | (some data, s) =>
            (some (if (s.byteorder == .bigEndian) != (Host.byteOrder == .bigEndian) then
                (ofRawData data).map bswapUnit
              else ofRawData data), s)
    else some (some [], s)

/-- mirrors io/DataStream.cpp:554-565 -/
def skipRawData (s : DataStream B D) (len : Int) : Option (Int × DataStream B D) :=
  if s.status ≠ .ok ∧ s.device.transactionStarted then some (-1, s)
  else (s.device.skip len).map fun (skipped, device) =>
    let s := { s with device := device }
    let skipResult : Int := match skipped with
      | none => -1
      | some n => n
    (skipResult, if skipResult ≠ len then s.setStatus .readPastEnd else s)

/-- The loop over the elements of a container, with those that were read.
mirrors io/DataStream.h:193-201 -/
def readElements {α : Type} (read : DataStream B D → Option (α × DataStream B D)) :
    Nat → DataStream B D → List α → Option (List α × DataStream B D)
  | 0, s, c => some (c, s)
  | n + 1, s, c =>
    (read s).bind fun (t, s) =>
      if s.status ≠ .ok then some ([], s) else readElements read n s (c ++ [t])

/-- A container, read with its own status, as `StreamStateSaver` does it.
mirrors io/DataStream.h:160-225 -/
def readContainer {α : Type} (read : DataStream B D → Option (α × DataStream B D))
    (s : DataStream B D) : Option (List α × DataStream B D) :=
  let oldStatus := s.status
  let s := if ¬ s.device.transactionStarted then s.resetStatus else s
  s.readInt32.bind fun (n, s) => (readElements read n.toNat s []).map fun (c, s) =>
    (c, if oldStatus ≠ .ok then { s with status := oldStatus } else s)

/-! ## Writing -/

/-- What is written to the device has to arrive as a whole.
mirrors io/DataStream.cpp:431-433 -/
def writeDevice (s : DataStream B D) (data : Bytes) : DataStream B D :=
  let (written, device) := s.device.write data
  { s with
    device := device
    status := if written = some data.length then s.status else .writeFailed }

/-- mirrors io/DataStream.cpp:416-423 -/
def writeInt8 (s : DataStream B D) (i : BitVec 8) : DataStream B D :=
  if s.status ≠ .ok then s else s.writeDevice [UInt8.ofNat i.toNat]

/-- mirrors io/DataStream.cpp:425-459, 477-496 and 504-521 -/
def writeFixed (n : Nat) (s : DataStream B D) (i : Nat) : DataStream B D :=
  if s.status ≠ .ok then s
  else s.writeDevice (memory n (if s.noswap then i else bswap n i))

def writeInt16 (s : DataStream B D) (i : BitVec 16) : DataStream B D := writeFixed 2 s i.toNat

def writeInt32 (s : DataStream B D) (i : BitVec 32) : DataStream B D := writeFixed 4 s i.toNat

def writeInt64 (s : DataStream B D) (i : BitVec 64) : DataStream B D := writeFixed 8 s i.toNat

/-- mirrors io/DataStream.cpp:461-468 -/
def writeBool (s : DataStream B D) (i : Bool) : DataStream B D :=
  if s.status ≠ .ok then s else s.writeDevice [UInt8.ofNat i.toNat]

/-- In double precision the operator of `double` is called. -/
def writeFloat (s : DataStream B D) (f : Binary32) : DataStream B D :=
  match s.floatingPointPrecision with
  | .doublePrecision => writeFixed 8 s f.widen.toBits
  | .singlePrecision => writeFixed 4 s f.toBits

/-- In single precision the operator of `float` is called. -/
def writeDouble (s : DataStream B D) (d : Binary64) : DataStream B D :=
  match s.floatingPointPrecision with
  | .singlePrecision => writeFixed 4 s d.narrow.toBits
  | .doublePrecision => writeFixed 8 s d.toBits

/-- A `uint` as an `int`. -/
def asInt (n : Nat) : Int := if n < 2147483648 then n else (n : Int) - 4294967296

/-- The length is an `int`; the device does not write a negative number of bytes.
mirrors io/DataStream.cpp:544-552 -/
def writeRawData (s : DataStream B D) (data : Bytes) : DataStream B D :=
  if s.status ≠ .ok then s
  else
    let len := asInt data.length
    if len < 0 then { s with status := if -1 ≠ len then .writeFailed else s.status }
    else s.writeDevice data

/-- mirrors io/DataStream.cpp:535-542 -/
def writeBytes (s : DataStream B D) (data : Bytes) : DataStream B D :=
  if s.status ≠ .ok then s
  else
    let s := s.writeInt32 (BitVec.ofNat 32 data.length)
    if data.length ≠ 0 then s.writeRawData data else s

/-- mirrors lang/String.cpp:4109-4128 -/
def writeString (s : DataStream B D) (str : Option Str) : DataStream B D :=
  match str with
  | none => s.writeInt32 (BitVec.ofNat 32 4294967295)
  | some str =>
    if (s.byteorder == .bigEndian) == (Host.byteOrder == .bigEndian) then s.writeBytes (rawData str)
    else s.writeBytes (rawData (str.map bswapUnit))

/-- mirrors io/DataStream.h:248-256 -/
def writeContainer {α : Type} (write : DataStream B D → α → DataStream B D) (s : DataStream B D)
    (c : List α) : DataStream B D :=
  c.foldl write (s.writeInt32 (BitVec.ofNat 32 c.length))

end DataStream

/-! ## The types with stream operators -/

inductive Ty
  | pint8
  | puint8
  | pint16
  | puint16
  | pint32
  | puint32
  | pint64
  | puint64
  | bool
  | float
  | double
  | string
  | block
  | vector (t : Ty)
  | list (t : Ty)

/-- The values of a type; a signed and an unsigned number are known by their bits. -/
@[reducible] def Ty.Val : Ty → Type
  | pint8 | puint8 => BitVec 8
  | pint16 | puint16 => BitVec 16
  | pint32 | puint32 => BitVec 32
  | pint64 | puint64 => BitVec 64
  | bool => Bool
  | float => Binary32
  | double => Binary64
  | string => Option Str
  | block => Bytes
  | vector t | list t => List t.Val

namespace DataStream

variable {B D : Type} [ByteQueue B] [RawDevice D] [Host]

def read : (t : Ty) → DataStream B D → Option (t.Val × DataStream B D)
  | .pint8, s | .puint8, s => s.readInt8
  | .pint16, s | .puint16, s => s.readInt16
  | .pint32, s | .puint32, s => s.readInt32
  | .pint64, s | .puint64, s => s.readInt64
  | .bool, s => s.readBool
  | .float, s => s.readFloat
  | .double, s => s.readDouble
  | .string, s => s.readString
  | .block, s => s.readBytes
  | .vector t, s | .list t, s => s.readContainer (read t)

def write : (t : Ty) → DataStream B D → t.Val → DataStream B D
  | .pint8, s, v | .puint8, s, v => s.writeInt8 v
  | .pint16, s, v | .puint16, s, v => s.writeInt16 v
  | .pint32, s, v | .puint32, s, v => s.writeInt32 v
  | .pint64, s, v | .puint64, s, v => s.writeInt64 v
  | .bool, s, v => s.writeBool v
  | .float, s, v => s.writeFloat v
  | .double, s, v => s.writeDouble v
  | .string, s, v => s.writeString v
  | .block, s, v => s.writeBytes v
  | .vector t, s, v | .list t, s, v => s.writeContainer (write t) v

end DataStream

end

/-!
## What reading keeps

The functions that read are made of `readBlock` and `setStatus`: a property of the
stream that the two keep is kept by all of them. A status that is not Ok stays, also
through the containers, which are read with a status of their own.
-/
namespace DataStream

variable {B D : Type}

/-- A function that reads keeps a property of the stream. -/
def Keeps (P : DataStream B D → Prop) {α : Type}
    (f : DataStream B D → Option (α × DataStream B D)) : Prop :=
  ∀ s v s', f s = some (v, s') → P s → P s'

section Keeps

variable {P : DataStream B D → Prop} {α β : Type}
  {f : DataStream B D → Option (α × DataStream B D)}

theorem Keeps.bind {g : α × DataStream B D → Option (β × DataStream B D)} (hf : Keeps P f)
    (hg : ∀ v, Keeps P fun s => g (v, s)) : Keeps P fun s => (f s).bind g := by
  intro s v s' he hs
  obtain ⟨⟨v₁, s₁⟩, hs₁, he⟩ := Option.bind_eq_some_iff.mp he
  exact hg v₁ s₁ v s' he (hf s v₁ s₁ hs₁ hs)

theorem Keeps.map {g : α × DataStream B D → β × DataStream B D} (hf : Keeps P f)
    (hg : ∀ v s, P s → P (g (v, s)).2) : Keeps P fun s => (f s).map g := by
  intro s v s' he hs
  obtain ⟨⟨v₁, s₁⟩, hs₁, he⟩ := Option.map_eq_some_iff.mp he
  rw [show s' = (g (v₁, s₁)).2 by rw [he]]
  exact hg v₁ s₁ (hf s v₁ s₁ hs₁ hs)

theorem Keeps.of_some {v : α} {s₁ : DataStream B D} (h : P s₁) {v' : α} {s' : DataStream B D}
    (he : some (v, s₁) = some (v', s')) : P s' := by
  rw [Option.some_inj, Prod.mk.injEq] at he
  rw [← he.2]
  exact h

end Keeps

variable [ByteQueue B] [RawDevice D] [Host]

set_option linter.unusedSectionVars false

/-- A property that reading a block and setting the status keep. -/
structure Stable (P : DataStream B D → Prop) : Prop where
  readBlock : ∀ n, Keeps P fun s => s.readBlock n
  setStatus : ∀ s status, P s → P (s.setStatus status)

variable {P : DataStream B D → Prop}

namespace Stable

theorem readFixed (h : Stable P) (n : Nat) : Keeps P fun s => readFixed n s := by
  refine (h.readBlock n).map ?_
  intro v s hs
  simp only
  split <;> exact hs

theorem readInt8 (h : Stable P) : Keeps P fun s => s.readInt8 :=
  (h.readBlock 1).map fun _ _ hs => hs

theorem readInt32 (h : Stable P) : Keeps P fun s => s.readInt32 :=
  (h.readFixed 4).map fun _ _ hs => hs

theorem readInt64 (h : Stable P) : Keeps P fun s => s.readInt64 := by
  intro s v s' he hs
  simp only [DataStream.readInt64] at he
  split at he
  · refine h.readInt32.bind (fun i2 => ?_) s v s' he hs
    intro s v s' he hs
    exact (h.readInt32.map fun _ _ hs => hs) s v s' he hs
  · exact ((h.readFixed 8).map fun _ _ hs => hs) s v s' he hs

theorem readFloat (h : Stable P) : Keeps P fun s => s.readFloat := by
  intro s v s' he hs
  simp only [DataStream.readFloat] at he
  split at he
  · exact ((h.readFixed 8).map fun _ _ hs => hs) s v s' he hs
  · exact ((h.readFixed 4).map fun _ _ hs => hs) s v s' he hs

theorem readDouble (h : Stable P) : Keeps P fun s => s.readDouble := by
  intro s v s' he hs
  simp only [DataStream.readDouble] at he
  split at he
  · exact ((h.readFixed 4).map fun _ _ hs => hs) s v s' he hs
  · exact ((h.readFixed 8).map fun _ _ hs => hs) s v s' he hs

theorem readBytesLoop (h : Stable P) (len : Nat) : ∀ (rounds : Nat) (acc : Bytes),
    Keeps P fun s => readBytesLoop len s acc rounds
  | 0, _ => fun _ _ _ he _ => absurd he (by simp [DataStream.readBytesLoop])
  | rounds + 1, acc => by
    intro s v s' he hs
    simp only [DataStream.readBytesLoop] at he
    split at he
    · exact absurd he (by simp)
    · refine (h.readBlock _).bind (fun block => ?_) s v s' he hs
      intro s v s' he hs
      simp only at he
      split at he
      · exact Keeps.of_some hs he
      · split at he
        · exact h.readBytesLoop len rounds _ s v s' he hs
        · exact Keeps.of_some hs he

theorem readBytes (h : Stable P) : Keeps P fun s => s.readBytes := by
  refine h.readInt32.bind fun len => ?_
  intro s v s' he hs
  simp only at he
  split at he
  · exact Keeps.of_some hs he
  · exact ((h.readBytesLoop len.toNat (len.toNat + 1) []).map fun _ _ hs => hs) s v s' he hs

theorem readStringLoop (h : Stable P) (len : Nat) :
    ∀ (rounds : Nat) (acc : Bytes) (allocated : Nat),
    Keeps P fun s => readStringLoop len s acc allocated rounds
  | 0, _, _ => fun _ _ _ he _ => absurd he (by simp [DataStream.readStringLoop])
  | rounds + 1, acc, allocated => by
    intro s v s' he hs
    simp only [DataStream.readStringLoop] at he
    split at he
    · refine (h.readBlock _).bind (fun block => ?_) s v s' he hs
      intro s v s' he hs
      simp only at he
      split at he
      · exact Keeps.of_some (h.setStatus s _ hs) he
      · exact h.readStringLoop len rounds _ _ s v s' he hs
    · exact Keeps.of_some hs he

theorem readString (h : Stable P) : Keeps P fun s => s.readString := by
  refine h.readInt32.bind fun bytes => ?_
  intro s v s' he hs
  simp only at he
  split at he
  · exact Keeps.of_some hs he
  · split at he
    · split at he
      · exact Keeps.of_some (h.setStatus s _ hs) he
      · refine ((h.readStringLoop (bytes.toNat / 2) _ [] 0).map ?_) s v s' he hs
        intro data s hs
        cases data <;> exact hs
    · exact Keeps.of_some hs he

end Stable

/-! ## The status -/

theorem status_stable {status : Status} (hne : status ≠ .ok) :
    Stable fun s : DataStream B D => s.status = status where
  readBlock n := by
    intro s block s' he hs
    have hs' : s.status ≠ .ok := hs ▸ hne
    simp only [readBlock] at he
    split at he
    · exact Keeps.of_some (P := fun s => s.status = status) hs he
    · obtain ⟨⟨data, device⟩, -, he⟩ := Option.map_eq_some_iff.mp he
      rw [Prod.mk.injEq] at he
      rw [← he.2]
      split
      · rw [setStatus, if_neg hs']
        exact hs
      · exact hs
  setStatus s _ hs := by
    rw [setStatus, if_neg (hs ▸ hne)]
    exact hs

theorem read_status {status : Status} (hne : status ≠ .ok) :
    ∀ t : Ty, Keeps (fun s : DataStream B D => s.status = status) fun s => read t s
  | .pint8 | .puint8 => (status_stable hne).readInt8
  | .pint16 | .puint16 => ((status_stable hne).readFixed 2).map fun _ _ hs => hs
  | .pint32 | .puint32 => (status_stable hne).readInt32
  | .pint64 | .puint64 => (status_stable hne).readInt64
  | .bool => (status_stable hne).readInt8.map fun _ _ hs => hs
  | .float => (status_stable hne).readFloat
  | .double => (status_stable hne).readDouble
  | .string => (status_stable hne).readString
  | .block => (status_stable hne).readBytes
  | .vector t | .list t => by
    intro s v s' he hs
    have hs' : s.status ≠ .ok := hs ▸ hne
    simp only [read, readContainer] at he
    obtain ⟨⟨n, s₁⟩, -, he⟩ := Option.bind_eq_some_iff.mp he
    obtain ⟨⟨c, s₂⟩, -, he⟩ := Option.map_eq_some_iff.mp he
    simp only [hs', not_false_eq_true, if_true, Prod.mk.injEq, ne_eq] at he
    rw [← he.2]
    exact hs

/-- A status other than Ok stays. -/
theorem read_failed (t : Ty) : Keeps (fun s : DataStream B D => s.status ≠ .ok) fun s => read t s := by
  intro s v s' he hs
  have hsame : s'.status = s.status := read_status hs t s v s' he rfl
  rw [hsame]
  exact hs

end DataStream

end Libpdk.Io

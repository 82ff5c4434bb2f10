import Libpdk.Core.ByteQueue

/-!
# Ring buffers

A list of blocks: bytes are taken from the first one, whose first `m_head` bytes are
gone, and put into the last one, of which `m_tail` bytes are in use. Of a block the
memory that it owns is modelled as well, since `reserve` asks for its capacity.
-/
namespace Libpdk.Ds

/-- A `ByteArray` of its own: `alloc` is the memory it has, the terminator included;
a shared null or an empty array has none. -/
structure Block where
  bytes : Bytes
  alloc : Nat

namespace Block

def size (b : Block) : Nat := b.bytes.length

/-- `ByteArray(size, pdk::Uninitialized)`
mirrors ds/ByteArray.cpp:103-109 -/
def ofSize (size : Nat) : Block := ⟨List.replicate size 0, size + 1⟩

/-- mirrors ds/ByteArray.h:590-593 -/
def capacity (b : Block) : Nat := b.alloc - 1

def headerSize : Nat := 24

/-- The elements of a block that may grow: its size in bytes goes up to the next power
of two, or half of the way there.
mirrors utils/MemoryHelper.cpp:44-66 -/
def growing (elementCount : Nat) : Nat :=
  let bytes := elementCount + headerSize
  let moreBytes := 2 ^ (Nat.log2 bytes + 1)
  (if 2147483648 ≤ moreBytes then bytes + (moreBytes - bytes) / 2 else moreBytes) - headerSize

/-- mirrors ds/ByteArray.cpp:551-590 -/
def resize (b : Block) (size : Nat) : Block where
  bytes := b.bytes.take size ++ List.replicate (size - b.size) 0
  alloc :=
    if size = 0 then 0
    else if b.alloc = 0 then size + 1
    else if size + 1 > b.alloc ∨ (size < b.size ∧ size + 1 < b.alloc / 2) then growing (size + 1)
    else b.alloc

def empty : Block := ⟨[], 0⟩

/-- The block with `data` at `pos`. -/
def store (b : Block) (pos : Nat) (data : Bytes) : Block :=
  { b with bytes := b.bytes.take pos ++ data ++ b.bytes.drop (pos + data.length) }

end Block

/-- mirrors ds/internal/RingBufferPrivate.h:139-144 -/
structure RingBuffer where
  buffers : List Block
  head : Nat
  tail : Nat
  tailBuffer : Nat
  basicBlockSize : Nat
  bufferSize : Nat

namespace RingBuffer

/-- mirrors ds/internal/RingBufferPrivate.h:34-41 -/
def new (growth : Nat) : RingBuffer := ⟨[], 0, 0, 0, growth, 0⟩

/-- The length of a block that is in use. -/
def blockLength (s : RingBuffer) (i : Nat) (b : Block) : Nat :=
  if i = s.tailBuffer then s.tail else b.size

def front (s : RingBuffer) : Block := s.buffers.headD .empty

/-- mirrors ds/internal/RingBufferPrivate.h:52-55 -/
def nextDataBlockSize (s : RingBuffer) : Nat :=
  (if s.tailBuffer = 0 then s.tail else s.front.size) - s.head

def setFront (s : RingBuffer) (f : Block → Block) : RingBuffer :=
  { s with buffers := match s.buffers with
    | [] => []
    | b :: bs => f b :: bs }

def setBack (s : RingBuffer) (f : Block → Block) : RingBuffer :=
  { s with buffers := match s.buffers.getLast? with
    | none => []
    | some b => s.buffers.dropLast ++ [f b] }

/-- mirrors ds/RingBuffer.cpp:185-198 -/
def clear (s : RingBuffer) : RingBuffer :=
  match s.buffers with
  | [] => s
  | _ :: _ =>
    { s with buffers := [.empty], head := 0, tail := 0, tailBuffer := 0, bufferSize := 0 }

/-- All bytes are gone: a single block is kept around if it does not exceed the basic
block size.
mirrors ds/RingBuffer.cpp:67-74 and 162-169 -/
def release (s : RingBuffer) : RingBuffer :=
  if s.front.size ≤ s.basicBlockSize then { s with bufferSize := 0, head := 0, tail := 0 }
  else s.clear

/-- The loop of `free`; a round takes the first block away.
mirrors ds/RingBuffer.cpp:59-89 -/
def freeLoop : Nat → RingBuffer → Nat → RingBuffer
  | 0, s, _ => s
  | rounds + 1, s, bytes =>
    if bytes = 0 then s
    else
      let blockSize := s.front.size - s.head
      if s.tailBuffer = 0 ∨ blockSize > bytes then
        if s.bufferSize ≤ bytes then s.release
        else { s with head := s.head + bytes, bufferSize := s.bufferSize - bytes }
      else
        freeLoop rounds { s with
          bufferSize := s.bufferSize - blockSize
          buffers := s.buffers.tail
          tailBuffer := s.tailBuffer - 1
          head := 0 } (bytes - blockSize)

def free (s : RingBuffer) (bytes : Nat) : RingBuffer := freeLoop s.buffers.length s bytes

/-- A new last block.
mirrors ds/RingBuffer.cpp:108-113 -/
def pushBlock (s : RingBuffer) (bytes : Nat) : RingBuffer :=
  let s := s.setBack (·.resize s.tail)
  { s with
    buffers := s.buffers ++ [.ofSize (max s.basicBlockSize bytes)]
    tailBuffer := s.tailBuffer + 1
    tail := 0 }

/-- The last block has room for `bytes` more.
mirrors ds/RingBuffer.cpp:96-117 -/
def makeRoom (s : RingBuffer) (bytes : Nat) : RingBuffer :=
  if s.bufferSize = 0 then
    if s.buffers = [] then { s with buffers := [.ofSize (max s.basicBlockSize bytes)] }
    else s.setFront (·.resize (max s.basicBlockSize bytes))
  else
    let newSize := bytes + s.tail
    let back := s.buffers.getLastD .empty
    if s.basicBlockSize = 0 ∨ (newSize > back.capacity ∧
        (s.tail ≥ s.basicBlockSize ∨ newSize ≥ maxByteArraySize)) then s.pushBlock bytes
    else if newSize > back.size then s.setBack (·.resize (max s.basicBlockSize newSize))
    else s

/-- `none`: there is no memory to write to.
mirrors ds/RingBuffer.cpp:91-122 -/
def reserve (s : RingBuffer) (bytes : Nat) : Option RingBuffer :=
  if bytes = 0 ∨ bytes ≥ maxByteArraySize then none
  else
    let s := s.makeRoom bytes
    some { s with bufferSize := s.bufferSize + bytes, tail := s.tail + bytes }

/-- `data` is written to the last `bytes` bytes, which were reserved. -/
def writeReserved (s : RingBuffer) (bytes : Nat) (data : Bytes) : RingBuffer :=
  s.setBack (·.store (s.tail - bytes) data)

/-- The loop of `chop`; a round takes the last block away.
mirrors ds/RingBuffer.cpp:154-183 -/
def chopLoop : Nat → RingBuffer → Nat → RingBuffer
  | 0, s, _ => s
  | rounds + 1, s, bytes =>
    if bytes = 0 then s
    else if s.tailBuffer = 0 ∨ s.tail > bytes then
      if s.bufferSize ≤ bytes then s.release
      else { s with tail := s.tail - bytes, bufferSize := s.bufferSize - bytes }
    else
      chopLoop rounds { s with
        bufferSize := s.bufferSize - s.tail
        buffers := s.buffers.dropLast
        tailBuffer := s.tailBuffer - 1
        tail := (s.buffers.dropLast.getLastD .empty).size } (bytes - s.tail)

def chop (s : RingBuffer) (bytes : Nat) : RingBuffer := chopLoop s.buffers.length s bytes

/-- The loop of `indexOf`; `index` is where the block begins, as seen from `pos`.
mirrors ds/RingBuffer.cpp:205-225 -/
def indexOfLoop (s : RingBuffer) (c : UInt8) (maxLength pos : Nat) :
    List Block → Nat → Int → Option Nat
  | [], _, _ => none
  | b :: bs, i, index =>
    let nextBlockIndex : Int := min (index + s.blockLength i b) maxLength
    if nextBlockIndex > 0 then
      let searched := ((b.bytes.drop (-index).toNat).take (nextBlockIndex - max index 0).toNat)
      match searched.idxOf? c with
      | some found => some (found + index.toNat + pos)
      | none =>
        if nextBlockIndex = maxLength then none
        else indexOfLoop s c maxLength pos bs (i + 1) nextBlockIndex
    else indexOfLoop s c maxLength pos bs (i + 1) nextBlockIndex

/-- mirrors ds/RingBuffer.cpp:200-226 -/
def indexOf (s : RingBuffer) (c : UInt8) (maxLength pos : Nat) : Option Nat :=
  if maxLength = 0 then none
  else s.indexOfLoop c maxLength pos s.buffers 0 (-(pos + s.head))

/-- The loop of `read`, with what is left to read.
mirrors ds/RingBuffer.cpp:232-241 -/
def readLoop : Nat → RingBuffer → Nat → Bytes × RingBuffer
  | 0, s, _ => ([], s)
  | rounds + 1, s, bytesToRead =>
    if bytesToRead = 0 then ([], s)
    else
      let fromThisBlock := min bytesToRead s.nextDataBlockSize
      let data := (s.front.bytes.drop s.head).take fromThisBlock
      let (rest, s) := readLoop rounds (s.free fromThisBlock) (bytesToRead - fromThisBlock)
      (data ++ rest, s)

/-- mirrors ds/RingBuffer.cpp:228-243 -/
def read (s : RingBuffer) (maxLength : Nat) : Bytes × RingBuffer :=
  readLoop (min s.bufferSize maxLength) s (min s.bufferSize maxLength)

/-- `read()`: the first block as a whole.
mirrors ds/RingBuffer.cpp:245-263 -/
def readBlock (s : RingBuffer) : Bytes × RingBuffer :=
  if s.bufferSize = 0 then ([], s)
  else
    let data := (if s.tailBuffer = 0 then s.front.bytes.take s.tail else s.front.bytes).drop s.head
    (data, { s with
      buffers := s.buffers.tail
      tail := if s.tailBuffer = 0 then 0 else s.tail
      tailBuffer := s.tailBuffer - 1
      head := 0
      bufferSize := s.bufferSize - data.length })

/-- The loop of `peek`, with what is left to look at.
mirrors ds/RingBuffer.cpp:271-281 -/
def peekLoop (s : RingBuffer) : List Block → Nat → Nat → Nat → Bytes
  | [], _, _, _ => []
  | b :: bs, i, pos, left =>
    if left = 0 then []
    else if pos < s.blockLength i b then
      let n := min (s.blockLength i b - pos) left
      (b.bytes.drop pos).take n ++ peekLoop s bs (i + 1) 0 (left - n)
    else peekLoop s bs (i + 1) (pos - s.blockLength i b) left

/-- mirrors ds/RingBuffer.cpp:265-284 -/
def peek (s : RingBuffer) (maxLength pos : Nat) : Bytes :=
  s.peekLoop s.buffers 0 (pos + s.head) maxLength

end RingBuffer

end Libpdk.Ds

import Libpdk.Core.Collect
import Libpdk.Core.Mem

/-!
# The binary JSON format

A base (`LocalArray` or `LocalObject`) at address `p` of a block has a header of
three words: its size, its length and kind, and the offset of its table. The
table of an array holds a word for each value, that of an object the offset of
each entry; an entry is the word of its value followed by its key. A value word
has three bits of type, two flags and 27 bits that are the value itself or the
offset of its data.

The accessors here are the ones the library reads documents with. They read
memory with `peek` and `le`, so they fail where the code would read outside of
the block.
-/
namespace Libpdk.Json

section

section

open Libpdk.Mem

/-- What a JSON value is, however it is stored. Doubles are their 64 bits. -/
inductive Val where
  | null
  | bool (b : Bool)
  | double (bits : UInt64)
  | string (s : Str)
  | array (vs : List Val)
  | object (es : List (Str × Val))

/-! ## Machine integers -/

/-- Conversion to `int`. -/
def toInt32 (n : Int) : Int := n.bmod 0x100000000

/-- Conversion of an `int` to `uint`. -/
def toUInt32 (n : Int) : Nat := (n % 0x100000000).toNat

/-- mirrors utils/json/internal/JsonPrivate.h:113-116 -/
def alignedSize (size : Int) : Int := toInt32 (size + 3) / 4 * 4

/-- The double that is an integer below `2 ^ 53`: sign, exponent, fraction. -/
def doubleOfInt (n : Int) : UInt64 :=
  if n = 0 then 0
  else
    let e := Nat.log2 n.natAbs
    UInt64.ofNat ((if n < 0 then 2 ^ 63 else 0) + (1023 + e) * 2 ^ 52 +
      (n.natAbs - 2 ^ e) * 2 ^ (52 - e))

/-! ## The value word -/

/-- mirrors utils/json/JsonValue.h:56-65 -/
inductive Kind where
  | null
  | bool
  | double
  | string
  | array
  | object
  deriving DecidableEq, Repr

/-- `JsonValue::Type(m_type)`; the tags 6 and 7 are no type and are treated like
`Null` by every `switch`. -/
def wordKind (w : Nat) : Kind :=
  match w % 8 with
  | 1 => .bool
  | 2 => .double
  | 3 => .string
  | 4 => .array
  | 5 => .object
  | _ => .null

/-- `m_latinOrIntValue` -/
def latinOrIntValue (w : Nat) : Bool := w / 8 % 2 == 1

/-- `m_latinKey` -/
def latinKey (w : Nat) : Bool := w / 16 % 2 == 1

/-- `m_value` -/
def wordValue (w : Nat) : Nat := w / 32

/-- `m_intValue`, the same bits with a sign. -/
def intValue (w : Nat) : Int := (wordValue w : Int).bmod 0x8000000

/-! ## Strings -/

/-- `String::fromLatin1(m_latin1, m_length)` of the Latin-1 string at `q`. -/
def readLatin1 (m : Bytes) (q : Nat) : Option Str := do
  let n ← le 2 m q
  let bs ← peek m (q + 2) n
  some (latin1 bs)

/-- The code units in some bytes. -/
def units : Bytes → Str
  | lo :: hi :: rest => UInt16.ofNat (lo.toNat + 256 * hi.toNat) :: units rest
  | _ => []

/-- `String(unicode, size)` with a negative size: up to the first null unit. -/
def unitsUntilNull : Bytes → Option Str
  | lo :: hi :: rest =>
    if lo = 0 ∧ hi = 0 then some []
    else (unitsUntilNull rest).map (UInt16.ofNat (lo.toNat + 256 * hi.toNat) :: ·)
  | _ => none

/-- `String((Character *)m_utf16, m_length)` of the UTF-16 string at `q`; the
length is converted to `int`. -/
def readUtf16 (m : Bytes) (q : Nat) : Option Str := do
  let n ← le 4 m q
  if toInt32 n < 0 then unitsUntilNull (m.drop (q + 4))
  else (peek m (q + 4) (2 * n)).map units

/-- `LocalValue::toString` and `LocalEntry::getKey`. -/
def readString (m : Bytes) (latin : Bool) (q : Nat) : Option Str :=
  if latin then readLatin1 m q else readUtf16 m q

/-! ## The header of a base -/

/-- `m_size` -/
def baseSize (m : Bytes) (p : Nat) : Option Nat := le 4 m p

/-- `isObject()` -/
def isObject (m : Bytes) (p : Nat) : Option Bool := (le 4 m (p + 4)).map fun d => d % 2 == 1

/-- `m_length` -/
def baseLength (m : Bytes) (p : Nat) : Option Nat := (le 4 m (p + 4)).map (· / 2)

/-- `m_tableOffset` -/
def tableOffset (m : Bytes) (p : Nat) : Option Nat := le 4 m (p + 8)

/-- `getTable()[i]` -/
def tableAt (m : Bytes) (p i : Nat) : Option Nat := do
  let t ← tableOffset m p
  le 4 m (p + t + 4 * i)

/-- The value word of the `i`-th element: the table word itself, or the first
word of the entry. -/
def elementWord (m : Bytes) (obj : Bool) (p i : Nat) : Option Nat := do
  let w ← tableAt m p i
  if obj then le 4 m (p + w) else some w

/-- `entryAt(i)->getKey()` -/
def entryKey (m : Bytes) (p i : Nat) : Option Str := do
  let off ← tableAt m p i
  let w ← le 4 m (p + off)
  readString m (latinKey w) (p + off + 4)

/-! ## Reading a document -/

/-- The value of a word of the base at `p`; `sub` reads the containers. The
switch is that of `JsonValue(Data *, Base *, const LocalValue &)`.
mirrors utils/json/JsonValue.cpp:38-69 -/
def readValue (sub : Bool → Nat → Option Val) (m : Bytes) (p w : Nat) : Option Val :=
  match wordKind w with
  | .null => some .null
  | .bool => some (.bool (wordValue w != 0))
  | .double =>
    if latinOrIntValue w then some (.double (doubleOfInt (intValue w)))
    else (le 8 m (p + wordValue w)).map fun bits => .double (UInt64.ofNat bits)
  | .string => (readString m (latinOrIntValue w) (p + wordValue w)).map .string
  | .array => sub false (p + wordValue w)
  | .object => sub true (p + wordValue w)

def readElement (sub : Bool → Nat → Option Val) (m : Bytes) (p i : Nat) : Option Val := do
  let w ← elementWord m false p i
  readValue sub m p w

def readEntry (sub : Bool → Nat → Option Val) (m : Bytes) (p i : Nat) : Option (Str × Val) := do
  let key ← entryKey m p i
  let w ← elementWord m true p i
  let v ← readValue sub m p w
  some (key, v)

/-- All values of a base, read through `at` and `entryAt`, to any depth. The
fuel bounds the depth. -/
def readBase : Nat → Bytes → Bool → Nat → Option Val
  | 0, _, _, _ => none
  | n + 1, m, true, p => do
    let len ← baseLength m p
    let es ← collect (readEntry (readBase n m) m p) 0 len
    some (.object es)
  | n + 1, m, false, p => do
    let len ← baseLength m p
    let vs ← collect (readElement (readBase n m) m p) 0 len
    some (.array vs)

/-- The root of a document, behind the header of 8 bytes. -/
def root : Nat := 8

/-- Everything a document holds. -/
def readDocument (n : Nat) (m : Bytes) : Option Val := do
  let obj ← isObject m root
  readBase n m obj root

end

/-!
## The validator and the writer

`Data::valid` walks a document before it is used: `LocalObject::isValid`,
`LocalArray::isValid`, `LocalEntry::isValid`, `LocalValue::isValid`. It works on
the memory `m`, which may go on behind the buffer whose size it is given, so
that a read of the validator behind the buffer yields what happens to be there.
`none` is only a read outside of `m`, or too little fuel.

`Writer::objectToJson` and `Writer::arrayToJson` are the traversal that
`toJson` makes. What they write for a double and for a string are the
functions of `Text`.
-/

open Libpdk.Mem

/-- Whether a value's data is at its offset: the `switch` of
`LocalValue::isValid`. -/
def outOfLine (w : Nat) : Bool :=
  match wordKind w with
  | .double => !latinOrIntValue w
  | .string => true
  | .array => true
  | .object => true
  | _ => false

/-- mirrors utils/json/Json.cpp:278-307 -/
def getUsedStorage (m : Bytes) (p w : Nat) : Option Int :=
  match wordKind w with
  | .double => some (alignedSize (if latinOrIntValue w then 0 else 8))
  | .string =>
    if latinOrIntValue w then (le 2 m (p + wordValue w)).map fun (n : Nat) => alignedSize (2 + n)
    else (le 4 m (p + wordValue w)).map fun (n : Nat) =>
      alignedSize (toInt32 (4 + 2 * toInt32 n))
  | .array => (baseSize m (p + wordValue w)).map fun (n : Nat) => alignedSize (toInt32 n)
  | .object => (baseSize m (p + wordValue w)).map fun (n : Nat) => alignedSize (toInt32 n)
  | _ => some (alignedSize 0)

/-- mirrors utils/json/Json.cpp:309-349 -/
def valueIsValid (sub : Bool → Nat → Int → Option Bool) (m : Bytes) (p w : Nat) : Option Bool := do
  let offset := if outOfLine w then wordValue w else 0
  if offset = 0 then some true
  else
    let t ← tableOffset m p
    if t < offset + 4 then some false
    else
      let s ← getUsedStorage m p w
      if s = 0 then some true
      else if s < 0 ∨ toInt32 t - offset < s then some false
      else
        match wordKind w with
        | .array => sub false (p + offset) s
        | .object => sub true (p + offset) s
        | _ => some true

/-- `LocalEntry::isValid` of the entry at `q`.
mirrors utils/json/internal/JsonPrivate.h:638-648 and 201-206 -/
def entryIsValid (m : Bytes) (q : Nat) (maxSize : Int) : Option Bool :=
  if maxSize < 4 then some false
  else do
    let w ← le 4 m q
    if latinKey w then
      let n ← le 2 m (q + 4)
      some (decide (2 + (n : Int) ≤ maxSize - 4))
    else if maxSize - 4 - 4 < 0 then some false
    else
      let n ← le 4 m (q + 4)
      some (decide ((n : Int) ≤ (maxSize - 4 - 4) / 2))

/-- The loop of `LocalArray::isValid`, with `k` values to go. -/
def valuesAreValid (sub : Bool → Nat → Int → Option Bool) (m : Bytes) (p : Nat) :
    Nat → Nat → Option Bool
  | _, 0 => some true
  | i, k + 1 => do
    let w ← elementWord m false p i
    let ok ← valueIsValid sub m p w
    if ok then valuesAreValid sub m p (i + 1) k else some false

/-- The loop of `LocalObject::isValid`, with `k` entries to go. -/
def entriesAreValid (sub : Bool → Nat → Int → Option Bool) (m : Bytes) (p : Nat) :
    Nat → Nat → Str → Option Bool
  | _, 0, _ => some true
  | i, k + 1, lastKey => do
    let t ← tableOffset m p
    let off ← tableAt m p i
    if t ≤ off + 4 then some false
    else
      let ok ← entryIsValid m (p + off) (toInt32 (t - off))
      if !ok then some false
      else
        let key ← entryKey m p i
        if key < lastKey then some false
        else
          let w ← elementWord m true p i
          let ok ← valueIsValid sub m p w
          if ok then entriesAreValid sub m p (i + 1) k key else some false

/-- mirrors utils/json/Json.cpp:195-232 -/
def baseIsValid : Nat → Bytes → Bool → Nat → Int → Option Bool
  | 0, _, _, _, _ => none
  | n + 1, m, obj, p, maxSize => do
    let size ← baseSize m p
    if toUInt32 maxSize < size then some false
    else
      let t ← tableOffset m p
      let len ← baseLength m p
      if size < t + 4 * len then some false
      else if obj then entriesAreValid (baseIsValid n m) m p 0 len []
      else valuesAreValid (baseIsValid n m) m p 0 len

/-- mirrors utils/json/JsonDocument.h:81 -/
def binaryFormatTag : Nat := 0x736a6270

/-- `Data::valid` of a block of `alloc` bytes at the start of `m`.
mirrors utils/json/Json.cpp:99-113 -/
def valid (n : Nat) (m : Bytes) (alloc : Nat) : Option Bool := do
  let tag ← le 4 m 0
  let version ← le 4 m 4
  if tag ≠ binaryFormatTag ∨ version ≠ 1 then some false
  else
    let obj ← isObject m root
    baseIsValid n m obj root (toInt32 ((alloc : Int) - 8))

/-- How a double (`null` when it is not finite) and the inside of a string are
written. -/
structure Text where
  number : UInt64 → Bytes
  escapedString : Str → Bytes

/-- `ByteArray(4 * indent, ' ')` -/
def spaces (indent : Nat) : Bytes := List.replicate (4 * indent) (byte ' ')

/-- mirrors utils/json/JsonWriter.cpp:103-141 -/
def valueToJson (text : Text) (sub : Bool → Nat → Nat → Option Bytes) (m : Bytes) (p w indent : Nat)
    (compact : Bool) : Option Bytes :=
  match wordKind w with
  | .bool => some (if wordValue w ≠ 0 then lit "true" else lit "false")
  | .double =>
    if latinOrIntValue w then some (text.number (doubleOfInt (intValue w)))
    else (le 8 m (p + wordValue w)).map fun bits => text.number (UInt64.ofNat bits)
  | .string => do
    let s ← readString m (latinOrIntValue w) (p + wordValue w)
    some ([byte '"'] ++ text.escapedString s ++ [byte '"'])
  | .array => do
    let content ← sub false (p + wordValue w) (indent + if compact then 0 else 1)
    some (lit (if compact then "[" else "[\n") ++ content ++ spaces indent ++ [byte ']'])
  | .object => do
    let content ← sub true (p + wordValue w) (indent + if compact then 0 else 1)
    some (lit (if compact then "\x7b" else "\x7b\n") ++ content ++ spaces indent ++ [byte '}'])
  | .null => some (lit "null")

end

/-!
## Changing a document in place

`Data` is the block that arrays, objects and values share. `Base::reserveSpace`
makes room for data in front of the table and moves the table behind it,
`Base::removeItems` closes the gap of a removed table word and leaves its data
behind, `Data::clone` copies a base into a block of its own and
`Data::compact` copies what is still in use.

Sizes are naturals. Below `LocalValue::MaxSize`, which is `2 ^ 27 - 1`, the code's
`int` and `uint` arithmetic on them does not wrap. `fill` is what `malloc` leaves
in a new block. Every access to memory is checked: `none` is one outside of
the block.
-/

open Libpdk.Mem

/-- `LocalValue::MaxSize` -/
def maxSize : Nat := 0x7FFFFFF

/-- `aligned_size` of a size that does not wrap. -/
def align (n : Nat) : Nat := (n + 3) / 4 * 4

/-- A block; its length is `m_alloc`.
mirrors utils/json/internal/JsonPrivate.h:757-773 -/
structure Data where
  raw : Bytes
  compactionCounter : Nat
  deriving DecidableEq

/-- What `malloc(n)` returns. -/
def malloc (fill : Nat → UInt8) (n : Nat) : Bytes := (List.range n).map fill

/-- The header of a block. -/
def header : Bytes := toLe 4 binaryFormatTag ++ toLe 4 1

/-! ## The fields of a base -/

def setSize (m : Bytes) (p v : Nat) : Option Bytes := poke m p (toLe 4 v)

/-- The assignment to the bit field keeps `m_isObject`. -/
def setLength (m : Bytes) (p v : Nat) : Option Bytes := do
  let d ← le 4 m (p + 4)
  poke m (p + 4) (toLe 4 (2 * v + d % 2))

def setTableOffset (m : Bytes) (p v : Nat) : Option Bytes := poke m (p + 8) (toLe 4 v)

/-- `getTable()[i] = v` -/
def setTableAt (m : Bytes) (p i v : Nat) : Option Bytes := do
  let t ← tableOffset m p
  poke m (p + t + 4 * i) (toLe 4 v)

def memmove (m : Bytes) (dest src n : Nat) : Option Bytes := do
  let bs ← peek m src n
  poke m dest bs

/-! ## `Base` -/

/-- The `memmove` calls of `reserveSpace`. -/
def moveTable (m : Bytes) (p off len dataSize posInTable numItems : Nat) (replace : Bool) :
    Option Bytes :=
  if replace then memmove m (p + off + dataSize) (p + off) (4 * len)
  else do
    let m ← memmove m (p + off + 4 * (posInTable + numItems) + dataSize) (p + off + 4 * posInTable)
      (4 * (len - posInTable))
    memmove m (p + off + dataSize) (p + off) (4 * posInTable)

/-- The loop that stores the offset in the new table words. -/
def fillTable (m : Bytes) (p off pos : Nat) : Nat → Option Bytes
  | 0 => some m
  | k + 1 => do
    let m ← setTableAt m p pos off
    fillTable m p off (pos + 1) k

/-- The new size and length. -/
def growBase (m : Bytes) (p size len dataSize numItems : Nat) (replace : Bool) : Option Bytes := do
  let m ← setSize m p (size + dataSize)
  if replace then some m
  else
    let m ← setLength m p (len + numItems)
    setSize m p (size + dataSize + 4 * numItems)

/-- The offset of the reserved space, 0 when the document would become too large.
mirrors utils/json/Json.cpp:115-140 -/
def reserveSpace (m : Bytes) (p dataSize posInTable numItems : Nat) (replace : Bool) :
    Option (Nat × Bytes) := do
  let size ← baseSize m p
  if maxSize ≤ size + dataSize then some (0, m)
  else
    let off ← tableOffset m p
    let len ← baseLength m p
    let m ← moveTable m p off len dataSize posInTable numItems replace
    let m ← setTableOffset m p (off + dataSize)
    let m ← fillTable m p off posInTable numItems
    let m ← growBase m p size len dataSize numItems replace
    some (off, m)

/-- The table words behind the removed ones move down. -/
def closeTable (m : Bytes) (p t len pos numItems : Nat) : Option Bytes :=
  if pos + numItems < len then
    memmove m (p + t + 4 * pos) (p + t + 4 * (pos + numItems)) (4 * (len - pos - numItems))
  else some m

/-- mirrors utils/json/Json.cpp:142-149 -/
def removeItems (m : Bytes) (p pos numItems : Nat) : Option Bytes := do
  let len ← baseLength m p
  let t ← tableOffset m p
  let m ← closeTable m p t len pos numItems
  setLength m p (len - numItems)

/-! ## `Data` -/

/-- A new block with an empty base.
mirrors utils/json/internal/JsonPrivate.h:782-798 -/
def newData (fill : Nat → UInt8) (reserved : Nat) (obj : Bool) : Data where
  raw := header ++ toLe 4 12 ++ toLe 4 obj.toNat ++ toLe 4 12 ++ malloc fill (reserved + 4)
  compactionCounter := 0

/-- The size of the copy that `clone` makes. -/
def cloneSize (size reserve : Nat) : Nat :=
  if reserve = 0 then size else max (size + max reserve 128) (min (size * 2) maxSize)

/-- `Data::clone` of the base at `p`; `unique` is `m_ref.load() == 1`. The inner
`none` is a document that is too large. The counter of a copy is 0: the test
`base == header->getRoot()` is made with the header of the copy.
mirrors utils/json/internal/JsonPrivate.h:823-848 -/
def clone (fill : Nat → UInt8) (d : Data) (p : Nat) (unique : Bool) (reserve : Nat) :
    Option (Option Data) := do
  let baseSize ← baseSize d.raw p
  let size := 8 + baseSize
  if p = root ∧ unique ∧ size + reserve ≤ d.raw.length then some (some d)
  else if reserve ≠ 0 ∧ maxSize < cloneSize size reserve then some none
  else
    let bytes ← peek d.raw p baseSize
    some (some ⟨header ++ bytes ++ malloc fill (cloneSize size reserve - size), 0⟩)

/-- `LocalEntry::getSize` of the entry at `q`.
mirrors utils/json/internal/JsonPrivate.h:602-611 -/
def entrySize (m : Bytes) (q : Nat) : Option Nat := do
  let w ← le 4 m q
  if latinKey w then (le 2 m (q + 4)).map fun n => align (4 + 2 + n)
  else (le 4 m (q + 4)).map fun n => align (4 + 4 + 2 * n)

/-- `getUsedStorage` of a word, as a size. -/
def usedStorage (m : Bytes) (p w : Nat) : Option Nat := (getUsedStorage m p w).map Int.toNat

/-- What `compact` reserves for an element. -/
def elementStorage (m : Bytes) (obj : Bool) (p i : Nat) : Option Nat := do
  let x ← tableAt m p i
  if obj then
    let s ← entrySize m (p + x)
    let w ← le 4 m (p + x)
    let n ← usedStorage m p w
    some (s + n)
  else usedStorage m p x

/-- `value.m_value = v` -/
def withValue (w v : Nat) : Nat := w % 32 + 32 * (v % 2 ^ 27)

/-- One turn of the loop of `compact` over an array: from the base in `m` to the
one in `new`, with `offset` as the next free place. -/
def compactValue (m : Bytes) (p : Nat) (new : Bytes) (offset i : Nat) : Option (Bytes × Nat) := do
  let w ← tableAt m p i
  let dataSize ← usedStorage m p w
  if dataSize = 0 then
    let new ← setTableAt new p i w
    some (new, offset)
  else
    let bytes ← peek m (p + wordValue w) dataSize
    let new ← poke new (p + offset) bytes
    let new ← setTableAt new p i (withValue w offset)
    some (new, offset + dataSize)

/-- One turn of the loop of `compact` over an object. -/
def compactEntry (m : Bytes) (p : Nat) (new : Bytes) (offset i : Nat) : Option (Bytes × Nat) := do
  let off ← tableAt m p i
  let new ← setTableAt new p i offset
  let s ← entrySize m (p + off)
  let entry ← peek m (p + off) s
  let new ← poke new (p + offset) entry
  let w ← le 4 m (p + off)
  let dataSize ← usedStorage m p w
  if dataSize = 0 then some (new, offset + s)
  else
    let bytes ← peek m (p + wordValue w) dataSize
    let new ← poke new (p + (offset + s)) bytes
    let new ← poke new (p + offset) (toLe 4 (withValue w (offset + s)))
    some (new, offset + s + dataSize)

def compactElement (m : Bytes) (obj : Bool) (p : Nat) (new : Bytes) (offset i : Nat) :
    Option (Bytes × Nat) :=
  if obj then compactEntry m p new offset i else compactValue m p new offset i

/-- The loop of `compact`, from element `i`, with `k` to go. -/
def compactLoop (m : Bytes) (obj : Bool) (p : Nat) : Nat → Nat → Bytes → Nat → Option (Bytes × Nat)
  | _, 0, new, offset => some (new, offset)
  | i, k + 1, new, offset => do
    let (new, offset) ← compactElement m obj p new offset i
    compactLoop m obj p (i + 1) k new offset

/-- The header and the base that `compact` fills. -/
def compactBase (fill : Nat → UInt8) (obj : Bool) (reserve len : Nat) : Bytes :=
  header ++ toLe 4 (12 + reserve + 4 * len) ++ toLe 4 (2 * len + obj.toNat) ++
    toLe 4 (reserve + 12) ++ malloc fill (reserve + 4 * len)

/-- mirrors utils/json/Json.cpp:27-97 -/
def compact (fill : Nat → UInt8) (d : Data) : Option Data :=
  if d.compactionCounter = 0 then some d
  else do
    let obj ← isObject d.raw root
    let len ← baseLength d.raw root
    let sizes ← collect (elementStorage d.raw obj root) 0 len
    let (new, _) ← compactLoop d.raw obj root 0 len (compactBase fill obj sizes.sum len) 12
    some ⟨new, 0⟩

end Libpdk.Json

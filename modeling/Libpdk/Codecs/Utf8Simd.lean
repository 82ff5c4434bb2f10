import Libpdk.Codecs.Utf8

/-!
# UTF-8 with vector instructions

The conversions without a state once more, now with the places that they read: a pointer is a
position in the input, and a read at or behind its end fails. What is stored in front of `dst` is
a list; what a whole register stores behind it is written again later.
-/
namespace Libpdk.Codecs.Utf8.Reading

open Character Unicode

/-- What `__SSE2__` and `__AVX2__` say. -/
inductive Vectors
  | fallback
  | sse2
  | avx2
  deriving DecidableEq

/-- The pointers of a conversion. -/
structure Cursor (β : Type) where
  dst : List β
  nextAscii : Nat
  src : Nat

/-! ## Registers -/

/-- `_mm_loadu_si128` -/
def loadu {α : Type} (input : List α) (src n : Nat) : Option (List α) :=
  if src + n ≤ input.length then some ((input.drop src).take n) else none

/-- `_mm_movemask_epi8`, and of AVX2 `_mm256_movemask_epi8`: a bit for each byte. -/
def movemask (lanes : List Bool) : BitVec 32 := (BitVec.ofBoolListLE lanes).setWidth 32

/-- mirrors kernel/Algorithms.h:252-266 -/
def countTrailingZeroBits (value : BitVec 16) : Nat := value.ctz.toNat

/-- mirrors text/codecs/UtfCodec.cpp:42-50 -/
def bitScanReverse (v : BitVec 32) : Nat := v.clz.toNat ^^^ 31

/-- `_mm_cmpgt_epi8` with zero -/
def cmpgt (packed : Bytes) : List Bool := packed.map positive

/-- The bytes of the register that the signs are taken of: with AVX2 the characters are units. -/
def extended : Vectors → Bytes → Bytes
  | .avx2, data => data.flatMap fun b => [b, 0]
  | _, data => data

def bitSpacing : Vectors → Nat
  | .avx2 => 2
  | _ => 1

/-- `_mm_unpacklo_epi8` and `_mm_unpackhi_epi8` with zero, or `_mm256_cvtepu8_epi16` -/
def widened : Vectors → Bytes → Str
  | .avx2, data => data.map UInt8.toUInt16
  | _, data => (data.take 8).map UInt8.toUInt16 ++ (data.drop 8).map UInt8.toUInt16

/-! ## Sixteen characters at a time -/

/-- mirrors text/codecs/UtfCodec.cpp:54-95 -/
def encodeBlocks (input : Str) : Nat → Cursor UInt8 → Option (Bool × Cursor UInt8)
  | 0, _ => none
  | rounds + 1, c =>
    if c.src + 16 ≤ input.length then do
      let data1 ← loadu input c.src 8
      let data2 ← loadu input (c.src + 8) 8
      let packed := (data1 ++ data2).map packus
      let n := (~~~ movemask (cmpgt packed)).setWidth 16
      if n ≠ 0 then
        let front := countTrailingZeroBits n
        some (false, ⟨c.dst ++ packed.take front, c.src + bitScanReverse (n.setWidth 32) + 1,
          c.src + front⟩)
      else encodeBlocks input rounds { c with dst := c.dst ++ packed, src := c.src + 16 }
    else some (decide (c.src = input.length), c)

/-- "copy the front part that is still ASCII" -/
def copyFront (input : Bytes) (spacing : Nat) :
    Nat → BitVec 32 → Cursor UInt16 → Option (BitVec 32 × Cursor UInt16)
  | 0, _, _ => none
  | rounds + 1, n, c =>
    if n &&& 1 = 0 then do
      let b ← input[c.src]?
      copyFront input spacing rounds (n >>> spacing)
        { c with dst := c.dst ++ [b.toUInt16], src := c.src + 1 }
    else some (n, c)

/-- mirrors text/codecs/UtfCodec.cpp:97-139 -/
def decodeBlocks (v : Vectors) (input : Bytes) :
    Nat → Cursor UInt16 → Option (Bool × Cursor UInt16)
  | 0, _ => none
  | rounds + 1, c =>
    if c.src + 16 ≤ input.length then do
      let data ← loadu input c.src 16
      let n := movemask ((extended v data).map fun b => decide (0x80 ≤ b.toNat))
      if n = 0 then
        decodeBlocks v input rounds { c with dst := c.dst ++ widened v data, src := c.src + 16 }
      else do
        let (n, c) ← copyFront input (bitSpacing v) 17 n c
        some (false, { c with nextAscii := c.src + bitScanReverse n / bitSpacing v + 1 })
    else some (decide (c.src = input.length), c)

/-- mirrors text/codecs/UtfCodec.cpp:54-95 and 141-144 -/
def simdEncodeAscii (v : Vectors) (input : Str) (c : Cursor UInt8) :
    Option (Bool × Cursor UInt8) :=
  match v with
  | .fallback => some (false, c)
  | _ => encodeBlocks input (input.length + 1) c

/-- mirrors text/codecs/UtfCodec.cpp:97-139 and 146-149 -/
def simdDecodeAscii (v : Vectors) (input : Bytes) (c : Cursor UInt16) :
    Option (Bool × Cursor UInt16) :=
  match v with
  | .fallback => some (false, c)
  | _ => decodeBlocks v input (input.length + 1) c

/-! ## One character -/

/-- What is appended, and the pointer behind what was read. -/
inductive Result (β : Type)
  | error
  | endOfString
  | done (out : List β) (src : Nat)

/-- What is appended where an error is replaced. -/
def Result.replaced {β : Type} (replacement : β) (src : Nat) : Result β → List β × Nat
  | done out src => (out, src)
  | _ => ([replacement], src)

/-- "U+10000 to U+10FFFF - four bytes"
mirrors text/codecs/internal/UtfCodecPrivate.h:129-152 -/
def toUtf8Pair (input : Str) (u : UInt16) (src : Nat) : Option (Result UInt8) :=
  if input.length - src = 0 then some .endOfString
  else do
    let low ← input[src]?
    if !isHighSurrogate u.toNat then some .error
    else if !isLowSurrogate low.toNat then some .error
    else
      let ucs4 := surrogateToUcs4 u low
      let uc := ucs4 % 65536
      some (.done [UInt8.ofNat (0xf0 ||| ((ucs4 >>> 18) % 256 &&& 0xf)),
        continuation (ucs4 >>> 12), continuation (uc >>> 6), continuation uc] (src + 1))

/-- mirrors text/codecs/internal/UtfCodecPrivate.h:107-161 -/
def toUtf8 (input : Str) (u : UInt16) (src : Nat) : Option (Result UInt8) :=
  let uc := u.toNat
  if uc < 0x80 then some (.done [UInt8.ofNat uc] src)
  else if uc < 0x0800 then
    some (.done [UInt8.ofNat (0xc0 ||| (uc >>> 6) % 256), continuation uc] src)
  else if !isSurrogate uc then
    some (.done [UInt8.ofNat (0xe0 ||| (uc >>> 12) % 256), continuation (uc >>> 6),
      continuation uc] src)
  else toUtf8Pair input u src

/-- The code point with the bits of `n` continuation characters, or an error.
mirrors text/codecs/internal/UtfCodecPrivate.h:220-245 -/
def continuations (input : Bytes) : Nat → Nat → Nat → Option (Option Nat)
  | 0, uc, _ => some (some uc)
  | n + 1, uc, src => do
    let b ← input[src]?
    if !isContinuationByte b then some none
    else continuations input n (uc <<< 6 ||| (b.toNat &&& 0x3f)) (src + 1)

/-- "it's possible that we have an error instead of just unfinished bytes"
mirrors text/codecs/internal/UtfCodecPrivate.h:208-218 -/
def unfinished (input : Bytes) : Nat → Nat → Option (Result UInt16)
  | 0, _ => some .endOfString
  | n + 1, src =>
    if input.length - src > 0 then do
      let b ← input[src]?
      if !isContinuationByte b then some .error else unfinished input n (src + 1)
    else some .endOfString

/-- "we've decoded something; safety-check it"
mirrors text/codecs/internal/UtfCodecPrivate.h:247-268 -/
def checked (minUc uc src : Nat) : Result UInt16 :=
  if uc < minUc then .error
  else if isSurrogate uc || uc > lastValidCodePoint then .error
  else if !requiresSurrogates uc then .done [UInt16.ofNat uc] src
  else .done [getHighSurrogate uc, getLowSurrogate uc] src

/-- mirrors text/codecs/internal/UtfCodecPrivate.h:207-268 -/
def fromLead (input : Bytes) (charsNeeded minUc uc src : Nat) : Option (Result UInt16) :=
  if input.length - src < charsNeeded - 1 then unfinished input 2 src
  else do
    let decoded ← continuations input (charsNeeded - 1) uc src
    match decoded with
    | none => some .error
    | some uc => some (checked minUc uc (src + (charsNeeded - 1)))

/-- mirrors text/codecs/internal/UtfCodecPrivate.h:170-205 -/
def fromUtf8 (input : Bytes) (b : UInt8) (src : Nat) : Option (Result UInt16) :=
  if b.toNat < 0x80 then some (.done [b.toUInt16] src)
  else if b.toNat ≤ 0xc1 then some .error
  else if b.toNat < 0xe0 then fromLead input 2 0x80 (b.toNat &&& 0x1f) src
  else if b.toNat < 0xf0 then fromLead input 3 0x800 (b.toNat &&& 0x0f) src
  else if b.toNat < 0xf5 then fromLead input 4 0x10000 (b.toNat &&& 0x07) src
  else some .error

/-! ## The conversions -/

/-- `do … while (src < nextAscii)`, where an error is replaced. -/
def charactersUntil {α β : Type} (input : List α) (convert : α → Nat → Option (Result β))
    (replacement : β) : Nat → Cursor β → Option (Cursor β)
  | 0, _ => none
  | rounds + 1, c => do
    let x ← input[c.src]?
    let res ← convert x (c.src + 1)
    let (out, src) := res.replaced replacement (c.src + 1)
    if src < c.nextAscii then
      charactersUntil input convert replacement rounds
        { c with dst := c.dst ++ out, src := src }
    else some { c with dst := c.dst ++ out, src := src }

/-- mirrors text/codecs/UtfCodec.cpp:165-172 -/
def encodeUntil (input : Str) : Nat → Cursor UInt8 → Option (Cursor UInt8) :=
  charactersUntil input (toUtf8 input) (byte '?')

/-- mirrors text/codecs/UtfCodec.cpp:305-312 -/
def decodeUntil (input : Bytes) : Nat → Cursor UInt16 → Option (Cursor UInt16) :=
  charactersUntil input (fromUtf8 input) replacement

def convertFromUnicodeLoop (v : Vectors) (input : Str) : Nat → Cursor UInt8 → Option Bytes
  | 0, _ => none
  | rounds + 1, c =>
    if c.src ≠ input.length then do
      let (done, c) ← simdEncodeAscii v input { c with nextAscii := input.length }
      if done then some c.dst
      else do
        let c ← encodeUntil input (input.length + 1) c
        convertFromUnicodeLoop v input rounds c
    else some c.dst

/-- mirrors text/codecs/UtfCodec.cpp:152-177 -/
def convertFromUnicode (v : Vectors) (input : Str) : Option Bytes :=
  convertFromUnicodeLoop v input (input.length + 1) ⟨[], input.length, 0⟩

def convertToUnicodeLoop (v : Vectors) (input : Bytes) : Nat → Cursor UInt16 → Option Str
  | 0, _ => none
  | rounds + 1, c =>
    if c.src < input.length then do
      let (done, c) ← simdDecodeAscii v input { c with nextAscii := input.length }
      if done then some c.dst
      else do
        let c ← decodeUntil input (input.length + 1) c
        convertToUnicodeLoop v input rounds c
    else some c.dst

/-- "check if we failed to decode the UTF-8 BOM; if so, skip it" -/
def skipBom (input : Bytes) (src : Nat) : Option Nat :=
  if src = 0 ∧ 3 ≤ input.length - src then do
    let b0 ← input[src]?
    let b1 ← input[src + 1]?
    let b2 ← input[src + 2]?
    some (if [b0, b1, b2] = utf8bom then src + 3 else src)
  else some src

/-- mirrors text/codecs/UtfCodec.cpp:283-317 -/
def convertToUnicode (v : Vectors) (input : Bytes) : Option Str := do
  let (done, c) ← simdDecodeAscii v input ⟨[], input.length, 0⟩
  if done then some c.dst
  else do
    let src ← skipBom input c.src
    convertToUnicodeLoop v input (input.length + 1) { c with src := src }

end Libpdk.Codecs.Utf8.Reading

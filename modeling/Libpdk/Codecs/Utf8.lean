import Libpdk.Codecs.Character

/-!
# UTF-8

`Utf8Functions` and the four conversions of `Utf8`, without a state and with one. A
pointer into the source is the list of what is left there; of `nextAscii` only its
place is kept, as the number of elements behind it. The loops have a number of rounds
that is the length of their source.
-/
namespace Libpdk.Codecs

/-- Whether the ASCII loops for sixteen characters at a time are compiled in. -/
class Build where
  simd : Bool

/-- `TextCodec::ConverterState`; `stateData` is the part of `m_stateData` that the codec uses.
mirrors text/codecs/TextCodec.h:62-84 -/
structure ConverterState (Data : Type) where
  ignoreHeader : Bool
  convertInvalidToNull : Bool
  remainingChars : Nat
  invalidChars : Nat
  stateData : Data
  deriving DecidableEq

namespace Utf8

open Character Unicode

/-! ## One character -/

inductive Encoded
  | error
  | endOfString
  | done (bytes : Bytes) (src : Str)

def continuation (n : Nat) : UInt8 := UInt8.ofNat (0x80 ||| (n % 256 &&& 0x3f))

/-- "U+10000 to U+10FFFF - four bytes"
mirrors text/codecs/internal/UtfCodecPrivate.h:129-152 -/
def toUtf8Pair (u : UInt16) : Str → Encoded
  | [] => .endOfString
  | low :: src =>
    if !isHighSurrogate u.toNat then .error
    else if !isLowSurrogate low.toNat then .error
    else
      let ucs4 := surrogateToUcs4 u low
      let uc := ucs4 % 65536
      .done [UInt8.ofNat (0xf0 ||| ((ucs4 >>> 18) % 256 &&& 0xf)), continuation (ucs4 >>> 12),
        continuation (uc >>> 6), continuation uc] src

/-- mirrors text/codecs/internal/UtfCodecPrivate.h:107-161 -/
def toUtf8 (u : UInt16) (src : Str) : Encoded :=
  let uc := u.toNat
  if uc < 0x80 then .done [UInt8.ofNat uc] src
  else if uc < 0x0800 then .done [UInt8.ofNat (0xc0 ||| (uc >>> 6) % 256), continuation uc] src
  else if !isSurrogate uc then
    .done [UInt8.ofNat (0xe0 ||| (uc >>> 12) % 256), continuation (uc >>> 6), continuation uc] src
  else toUtf8Pair u src

/-- mirrors text/codecs/internal/UtfCodecPrivate.h:163-166 -/
def isContinuationByte (b : UInt8) : Bool := b.toNat &&& 0xc0 == 0x80

inductive Decoded
  | error
  | endOfString
  | done (units : Str) (charsNeeded : Nat)

/-- The code point with the bits of `n` continuation characters.
mirrors text/codecs/internal/UtfCodecPrivate.h:220-245 -/
def continuations : Nat → Nat → Bytes → Option Nat
  | 0, uc, _ => some uc
  | _ + 1, _, [] => none
  | n + 1, uc, b :: src =>
    if !isContinuationByte b then none
    else continuations n (uc <<< 6 ||| (b.toNat &&& 0x3f)) src

/-- mirrors text/codecs/internal/UtfCodecPrivate.h:207-268 -/
def fromLead (charsNeeded minUc uc : Nat) (src : Bytes) : Decoded :=
  if src.length < charsNeeded - 1 then
    if (src.take 2).any (!isContinuationByte ·) then .error else .endOfString
  else match continuations (charsNeeded - 1) uc src with
    | none => .error
    | some uc =>
      if uc < minUc then .error
      else if isSurrogate uc || uc > lastValidCodePoint then .error
      else if !requiresSurrogates uc then .done [UInt16.ofNat uc] charsNeeded
      else .done [getHighSurrogate uc, getLowSurrogate uc] charsNeeded

/-- mirrors text/codecs/internal/UtfCodecPrivate.h:170-205 -/
def fromUtf8 (b : UInt8) (src : Bytes) : Decoded :=
  if b.toNat < 0x80 then .done [b.toUInt16] 1
  else if b.toNat ≤ 0xc1 then .error
  else if b.toNat < 0xe0 then fromLead 2 0x80 (b.toNat &&& 0x1f) src
  else if b.toNat < 0xf0 then fromLead 3 0x800 (b.toNat &&& 0x0f) src
  else if b.toNat < 0xf5 then fromLead 4 0x10000 (b.toNat &&& 0x07) src
  else .error

/-! ## Sixteen characters at a time -/

structure Scan (α β : Type) where
  out : List β
  src : List α
  nextAscii : Nat
  done : Bool

section Scan

variable {α β : Type}

/-- Blocks that are ASCII are copied, and of the first one that is not what is before the first
character that is not; `nextAscii` is behind the last one. -/
def scanAscii (plain : α → Bool) (copy : α → β) (nextAscii : Nat) : Nat → List α → Scan α β
  | 0, src => ⟨[], src, nextAscii, src.isEmpty⟩
  | rounds + 1, src =>
    if src.length < 16 then ⟨[], src, nextAscii, src.isEmpty⟩
    else
      let block := src.take 16
      if block.all plain then
        let scan := scanAscii plain copy nextAscii rounds (src.drop 16)
        { scan with out := block.map copy ++ scan.out }
      else
        let front := block.takeWhile plain
        ⟨front.map copy, src.drop front.length,
          src.length - 16 + (block.reverse.takeWhile plain).length, false⟩

end Scan

/-- `_mm_packus_epi16` on one unit. -/
def packus (u : UInt16) : UInt8 :=
  if u.toNat ≥ 0x8000 then 0 else if u.toNat > 0xff then 0xff else u.toUInt8

/-- A byte that is greater than zero as a signed number. -/
def positive (b : UInt8) : Bool := decide (0 < b.toNat ∧ b.toNat < 0x80)

section Simd

variable [Build]

/-- mirrors text/codecs/UtfCodec.cpp:55-95 and 141-144 -/
def simdEncodeAscii (nextAscii : Nat) (src : Str) : Scan UInt16 UInt8 :=
  if Build.simd then scanAscii (fun u => positive (packus u)) packus nextAscii src.length src
  else ⟨[], src, nextAscii, false⟩

/-- mirrors text/codecs/UtfCodec.cpp:97-139 and 146-149 -/
def simdDecodeAscii (nextAscii : Nat) (src : Bytes) : Scan UInt8 UInt16 :=
  if Build.simd then
    scanAscii (fun b => decide (b.toNat < 0x80)) UInt8.toUInt16 nextAscii src.length src
  else ⟨[], src, nextAscii, false⟩

/-! ## Conversions without a state -/

/-- One round of the inner loop; an error becomes a question mark. -/
def encodeNext (uc : UInt16) (src : Str) : Bytes × Str :=
  match toUtf8 uc src with
  | .done bytes src => (bytes, src)
  | _ => ([byte '?'], src)

/-- `do … while (src < nextAscii)` -/
def encodeUntil (nextAscii : Nat) : Nat → Str → Bytes × Str
  | 0, src => ([], src)
  | _ + 1, [] => ([], [])
  | rounds + 1, uc :: src =>
    let (bytes, src) := encodeNext uc src
    if src.length > nextAscii then
      let (rest, src) := encodeUntil nextAscii rounds src
      (bytes ++ rest, src)
    else (bytes, src)

def convertFromUnicodeLoop : Nat → Str → Bytes
  | 0, _ => []
  | rounds + 1, src =>
    if src = [] then []
    else
      let scan := simdEncodeAscii 0 src
      if scan.done then scan.out
      else
        let (bytes, src) := encodeUntil scan.nextAscii scan.src.length scan.src
        scan.out ++ bytes ++ convertFromUnicodeLoop rounds src

/-- mirrors text/codecs/UtfCodec.cpp:152-177 -/
def convertFromUnicode (uc : Str) : Bytes := convertFromUnicodeLoop uc.length uc

/-- One round of the inner loop; an error becomes a replacement character. -/
def decodeNext (b : UInt8) (src : Bytes) : Str × Bytes :=
  match fromUtf8 b src with
  | .done units charsNeeded => (units, src.drop (charsNeeded - 1))
  | _ => ([replacement], src)

/-- `do … while (src < nextAscii)` -/
def decodeUntil (nextAscii : Nat) : Nat → Bytes → Str × Bytes
  | 0, src => ([], src)
  | _ + 1, [] => ([], [])
  | rounds + 1, b :: src =>
    let (units, src) := decodeNext b src
    if src.length > nextAscii then
      let (rest, src) := decodeUntil nextAscii rounds src
      (units ++ rest, src)
    else (units, src)

def convertToUnicodeLoop : Nat → Bytes → Str
  | 0, _ => []
  | rounds + 1, src =>
    if src = [] then []
    else
      let scan := simdDecodeAscii 0 src
      if scan.done then scan.out
      else
        let (units, src) := decodeUntil scan.nextAscii scan.src.length scan.src
        scan.out ++ units ++ convertToUnicodeLoop rounds src

def utf8bom : Bytes := [0xef, 0xbb, 0xbf]

/-- "check if we failed to decode the UTF-8 BOM; if so, skip it"
mirrors text/codecs/UtfCodec.cpp:283-317 -/
def convertToUnicode (chars : Bytes) : Str :=
  let scan := simdDecodeAscii 0 chars
  if scan.done then scan.out
  else
    let src := if scan.src.length = chars.length ∧ utf8bom.isPrefixOf scan.src then scan.src.drop 3
      else scan.src
    scan.out ++ convertToUnicodeLoop src.length src

/-! ## Conversions with a state -/

/-- The locals of the loop; no pending surrogate is -1 in the source. -/
structure Encoding where
  surrogateHigh : Option UInt16
  src : Str
  nextAscii : Nat
  out : Bytes
  invalid : Nat

/-- The next unit is the pending one or one of the source. There is none where all of the source
is ASCII.
mirrors text/codecs/UtfCodec.cpp:206-218 -/
def nextUnit (e : Encoding) : Option UInt16 × Encoding :=
  match e.surrogateHigh with
  | some uc => (some uc, { e with surrogateHigh := none })
  | none =>
    let scan := if e.src.length ≤ e.nextAscii then simdEncodeAscii e.nextAscii e.src
      else ⟨[], e.src, e.nextAscii, false⟩
    let e := { e with out := e.out ++ scan.out, nextAscii := scan.nextAscii }
    if scan.done then (none, { e with src := scan.src })
    else (scan.src.head?, { e with src := scan.src.tail })

/-- mirrors text/codecs/UtfCodec.cpp:204-231 -/
def encodeLoop (replacement : UInt8) : Nat → Encoding → Encoding
  | 0, e => e
  | rounds + 1, e =>
    if e.src = [] then e
    else match nextUnit e with
      | (none, e) => e
      | (some uc, e) =>
        match toUtf8 uc e.src with
        | .done bytes src =>
          encodeLoop replacement rounds { e with out := e.out ++ bytes, src := src }
        | .error =>
          encodeLoop replacement rounds
            { e with out := e.out ++ [replacement], invalid := e.invalid + 1 }
        | .endOfString => { e with surrogateHigh := some uc }

/-- What was written, the size of the array it was written to, and the state.
mirrors text/codecs/UtfCodec.cpp:179-246 -/
def convertFromUnicodeState (uc : Str) (state : ConverterState UInt16) :
    Bytes × Nat × ConverterState UInt16 :=
  let replacement := if state.convertInvalidToNull then 0 else byte '?'
  let rlen := 3 * uc.length + if !state.ignoreHeader then 3 else 0
  let surrogateHigh := if state.remainingChars ≠ 0 then some state.stateData else none
  let e := encodeLoop replacement (uc.length + 1)
    ⟨surrogateHigh, uc, uc.length, if !state.ignoreHeader then utf8bom else [], 0⟩
  (e.out, rlen,
    { state with
      invalidChars := state.invalidChars + e.invalid
      ignoreHeader := true
      remainingChars := if e.surrogateHigh.isSome then 1 else 0
      stateData := e.surrogateHigh.getD state.stateData })

structure Decoding where
  dst : Str
  src : Bytes
  nextAscii : Nat
  headerdone : Bool
  invalid : Nat

/-- What was decoded, without the byte order mark if it is one.
mirrors text/codecs/UtfCodec.cpp:367-372 and 394-401 -/
def eatBom (dst : Str) : Str := if dst.getLast? = some byteOrderMark then dst.dropLast else dst

/-- The flag tells that the loop ended within a character, whose bytes are unread; `start` is the
length of the source at the start of the loop.
mirrors text/codecs/UtfCodec.cpp:382-407 -/
def decodeLoop (replacement : UInt16) (start : Nat) : Nat → Decoding → Decoding × Bool
  | 0, d => (d, false)
  | rounds + 1, d =>
    if d.src = [] then (d, false)
    else
      let scan := if d.src.length ≤ d.nextAscii then simdDecodeAscii d.nextAscii d.src
        else ⟨[], d.src, d.nextAscii, false⟩
      let d := { d with dst := d.dst ++ scan.out, src := scan.src, nextAscii := scan.nextAscii }
      if scan.done then (d, false)
      else match d.src with
        | [] => (d, false)
        | ch :: src =>
          match fromUtf8 ch src with
          | .endOfString => (d, true)
          | .error =>
            decodeLoop replacement start rounds
              { d with dst := d.dst ++ [replacement], src := src, invalid := d.invalid + 1 }
          | .done units charsNeeded =>
            let src := src.drop (charsNeeded - 1)
            let dst := d.dst ++ units
            decodeLoop replacement start rounds
              { d with
                dst := if !d.headerdone && start == src.length + 3 then eatBom dst else dst
                src := src
                headerdone := true }

/-- "handle incoming state first": `none` where the bytes are still too few.
mirrors text/codecs/UtfCodec.cpp:341-380 -/
def decodeRemaining (replacement : UInt16) (chars : Bytes) (state : ConverterState Bytes) :
    Option Decoding :=
  let headerdone := state.ignoreHeader
  let count := state.remainingChars
  match state.stateData.take count ++ chars.take (4 - count) with
  | [] => some ⟨[], chars, chars.length, headerdone, 0⟩
  | b :: begin' =>
    match fromUtf8 b begin' with
    | .error => some ⟨[replacement], chars, chars.length, headerdone, 1⟩
    | .endOfString =>
      if chars = [] then some ⟨[replacement], chars, chars.length, headerdone, 1⟩ else none
    | .done units charsNeeded =>
      let src := chars.drop (charsNeeded - count)
      some ⟨if !headerdone then eatBom units else units, src, src.length, true, 0⟩

/-- mirrors text/codecs/UtfCodec.cpp:319-433 -/
def convertToUnicodeState (chars : Bytes) (state : ConverterState Bytes) :
    Str × ConverterState Bytes :=
  let replacement := if state.convertInvalidToNull then 0 else replacement
  let start := if state.remainingChars ≠ 0 then decodeRemaining replacement chars state
    else some ⟨[], chars, chars.length, state.ignoreHeader, 0⟩
  match start with
  | none =>
    let data := state.stateData.take state.remainingChars ++ chars.take (4 - state.remainingChars)
    ([], { state with
      remainingChars := data.length
      stateData := data ++ state.stateData.drop data.length })
  | some d =>
    let (d, endOfString) := decodeLoop replacement d.src.length d.src.length d
    (d.dst, { state with
      invalidChars := state.invalidChars + d.invalid
      ignoreHeader := state.ignoreHeader || d.headerdone
      remainingChars := if endOfString then d.src.length else 0
      stateData := if endOfString then d.src ++ state.stateData.drop d.src.length
        else state.stateData })

end Simd

end Utf8

end Libpdk.Codecs

import Libpdk.Io.Buffer
import Libpdk.Codecs.Utf8
import Libpdk.Utils.LocaleData

/-!
# Text streams

`TextStream`, as far as it reads: from a string, or from a random-access device through a codec. A
stream on a device has read bytes and decoded them into its read buffer, of which it has consumed
the first characters; `readBufferStartDevicePos`, the saved state of the converter and its offset
say where the read buffer began. `none` stands for an exception of the device, for a loop that did
not end within its rounds, and for an offset that would be negative.
-/
namespace Libpdk.Io

open Codecs (ConverterState)
open Buffer (narrow)
open Utils (UnicodeTables)

/-- The codecs of the library, none of which keeps `m_data` in a state.
mirrors text/codecs/TextCodec.h:50-141 -/
class TextCodec (C : Type) (Data : outParam Type) where
  toUnicode : C → Bytes → ConverterState Data → Str × ConverterState Data
  codecForMib : Nat → Option C
  getCodecForLocale : C
  /-- The state data of a new state. -/
  zeroData : Data

namespace TextCodec

variable {C Data : Type} [TextCodec C Data]

/-- mirrors text/codecs/TextCodec.h:64-71 -/
def newState (C : Type) [TextCodec C Data] : ConverterState Data :=
  ⟨false, false, 0, 0, zeroData C⟩

/-- The number of characters that remain stays that of `dest`.
mirrors io/TextStream.cpp:128-139 -/
def copyConverterState (dest src : ConverterState Data) : ConverterState Data :=
  { src with remainingChars := dest.remainingChars }

/-- mirrors text/codecs/TextCodec.cpp:666-699 -/
def codecForUtfText (ba : Bytes) (defaultCodec : C) : Option C :=
  if ba.take 4 = [0, 0, 0xfe, 0xff] then codecForMib 1018
  else if ba.take 4 = [0xff, 0xfe, 0, 0] then codecForMib 1019
  else if ba.take 2 = [0xfe, 0xff] then codecForMib 1013
  else if ba.take 2 = [0xff, 0xfe] then codecForMib 1014
  else if ba.take 3 = [0xef, 0xbb, 0xbf] then codecForMib 106
  else some defaultCodec

end TextCodec

/-- A codec that keeps nothing in a state. -/
inductive Latin1Codec
  | latin1

/-- mirrors text/codecs/LatinCodec.cpp:28-34 -/
instance : TextCodec Latin1Codec Unit where
  toUnicode _ chars state := (latin1 chars, state)
  codecForMib mib := if mib = 4 then some .latin1 else none
  getCodecForLocale := .latin1
  zeroData := ()

/-- `m_string` with `m_stringOffset`, or `m_device`. -/
inductive Source (B D : Type)
  | string (text : Str) (offset : Nat)
  | device (d : RandomAccess B D)

inductive StreamStatus
  | ok
  | readPastEnd
  | readCorruptData
  deriving DecidableEq

/-- mirrors io/internal/TextStreamPrivate.h:74-122 -/
structure TextStream (B D C Data : Type) where
  source : Source B D
  codec : C
  readConverterState : ConverterState Data
  readConverterSavedState : Option (ConverterState Data)
  readBuffer : Str
  readBufferOffset : Nat
  readConverterSavedStateOffset : Int
  readBufferStartDevicePos : Nat
  integerBase : Nat
  status : StreamStatus
  lastTokenSize : Int
  autoDetectUnicode : Bool
  /-- `PDK_TEXTSTREAM_BUFFERSIZE` -/
  bufferSize : Nat

/-- mirrors io/internal/TextStreamPrivate.h:124-130 -/
inductive TokenDelimiter
  | space
  | notSpace
  | endOfLine
  deriving DecidableEq

namespace TextStream

variable {B D C Data : Type} [PushQueue B] [Virtual B D] [TextCodec C Data]

def lineFeed : UInt16 := unit '\n'

def carriageReturn : UInt16 := unit '\r'

/-- A stream without a source that was set.
mirrors io/TextStream.cpp:145-194 -/
def fresh (bufferSize : Nat) (source : Source B D) : TextStream B D C Data where
  source := source
  codec := TextCodec.getCodecForLocale
  readConverterState := TextCodec.newState C
  readConverterSavedState := none
  readBuffer := []
  readBufferOffset := 0
  readConverterSavedStateOffset := 0
  readBufferStartDevicePos := 0
  integerBase := 0
  status := .ok
  lastTokenSize := 0
  autoDetectUnicode := true
  bufferSize := bufferSize

/-- mirrors io/TextStream.cpp:1132-1144 -/
def onString (bufferSize : Nat) (s : Str) : TextStream B D C Data := fresh bufferSize (.string s 0)

/-- mirrors io/TextStream.cpp:1119-1130 -/
def onDevice (bufferSize : Nat) (d : RandomAccess B D) : TextStream B D C Data :=
  fresh bufferSize (.device d)

/-- mirrors io/TextStream.cpp:304-309 -/
def resetReadBuffer (s : TextStream B D C Data) : TextStream B D C Data :=
  { s with
    readBuffer := []
    readBufferOffset := 0
    readBufferStartDevicePos := match s.source with
      | .string .. => 0
      | .device d => d.getPosition }

/-- On a stream that was not used before.
mirrors io/TextStream.cpp:1295-1312 -/
def setDevice (bufferSize : Nat) (d : RandomAccess B D) : TextStream B D C Data :=
  (onDevice bufferSize d).resetReadBuffer

/-! ## The read buffer -/

/-- The string, or the read buffer. -/
def text (s : TextStream B D C Data) : Str :=
  match s.source with
  | .string text _ => text
  | .device _ => s.readBuffer

def offset (s : TextStream B D C Data) : Nat :=
  match s.source with
  | .string _ offset => offset
  | .device _ => s.readBufferOffset

/-- "codec auto detection, explicitly defaults to locale encoding if the codec has been set to 0."
mirrors io/TextStream.cpp:246-255 -/
def detectCodec (s : TextStream B D C Data) (bytes : Bytes) : TextStream B D C Data :=
  if s.autoDetectUnicode then
    { s with
      autoDetectUnicode := false
      codec := (TextCodec.codecForUtfText bytes s.codec).getD TextCodec.getCodecForLocale }
  else s

/-- The loop that removes carriage returns moves the offset for each of them but the first that is
before it; `n` is the place of the first, which is not counted itself.
mirrors io/TextStream.cpp:285-296 -/
def moveOffset (n offset : Nat) : Str → Nat
  | [] => offset
  | ch :: rest => moveOffset (n + 1)
      (if ch = carriageReturn ∧ n < offset then offset - 1 else offset) rest

/-- "remove all '\r\n' in the string": all carriage returns of what was added.
mirrors io/TextStream.cpp:269-298 -/
def removeReturns (s : TextStream B D C Data) (added : Str) : TextStream B D C Data :=
  let front := added.takeWhile (· ≠ carriageReturn)
  let behind := (added.dropWhile (· ≠ carriageReturn)).tail
  { s with
    readBuffer := s.readBuffer ++ added.filter (· ≠ carriageReturn)
    readBufferOffset := moveOffset (s.readBuffer.length + front.length) s.readBufferOffset behind }

/-- What is made of bytes that were read.
mirrors io/TextStream.cpp:246-301 -/
def addBytes (s : TextStream B D C Data) (textModeEnabled : Bool) (bytes : Bytes) :
    TextStream B D C Data :=
  let s := s.detectCodec bytes
  let (added, state) := TextCodec.toUnicode s.codec bytes s.readConverterState
  let s := { s with readConverterState := state }
  if textModeEnabled then s.removeReturns added
  else { s with readBuffer := s.readBuffer ++ added }

/-- `maxBytes` is -1 where it is not given.
mirrors io/TextStream.cpp:196-302 -/
def fillReadBuffer (s : TextStream B D C Data) (maxBytes : Int) :
    Option (Bool × TextStream B D C Data) :=
  match s.source with
  | .string .. => some (false, s)
  | .device d =>
    let n : Int := if maxBytes ≠ -1 then min s.bufferSize maxBytes else s.bufferSize
    (({ d with text := false } : RandomAccess B D).read n).map fun (bytes, d') =>
      let d : RandomAccess B D := { d' with text := d.text }
      let s := { s with source := .device d }
      match bytes with
      | none => (false, s)
      | some [] => (false, s)
      | some (b :: bytes) => (true, s.addBytes d.text (b :: bytes))

/-- mirrors io/TextStream.cpp:539-556 -/
def saveConverterState (s : TextStream B D C Data) (newPos : Nat) : TextStream B D C Data :=
  { s with
    readConverterSavedState := some (TextCodec.copyConverterState
      (s.readConverterSavedState.getD (TextCodec.newState C)) s.readConverterState)
    readBufferStartDevicePos := newPos
    readConverterSavedStateOffset := 0 }

/-- mirrors io/TextStream.cpp:558-570 -/
def restoreToSavedConverterState (s : TextStream B D C Data) : TextStream B D C Data :=
  { s with
    readConverterState := match s.readConverterSavedState with
      | some saved => TextCodec.copyConverterState s.readConverterState saved
      | none => TextCodec.newState C }

/-- mirrors io/TextStream.cpp:514-537 -/
def consume (s : TextStream B D C Data) (size : Int) : TextStream B D C Data :=
  match s.source with
  | .string text offset =>
    { s with source := .string text (min (offset + size).toNat text.length) }
  | .device d =>
    let offset := (s.readBufferOffset + size).toNat
    if offset ≥ s.readBuffer.length then
      { s with readBufferOffset := 0, readBuffer := [] }.saveConverterState d.getPosition
    else if offset > s.bufferSize then
      { s with
        readBuffer := s.readBuffer.drop offset
        readConverterSavedStateOffset := narrow (s.readConverterSavedStateOffset + offset)
        readBufferOffset := 0 }
    else { s with readBufferOffset := offset }

/-- mirrors io/TextStream.cpp:504-511 -/
def consumeLastToken (s : TextStream B D C Data) : TextStream B D C Data :=
  let s := if s.lastTokenSize ≠ 0 then s.consume s.lastTokenSize else s
  { s with lastTokenSize := 0 }

/-! ## Reading -/

/-- `none` is an exception, or that bytes are left after `rounds` rounds.
mirrors io/TextStream.cpp:393 -/
def fillFor (maxlen : Int) : Nat → TextStream B D C Data → Option (TextStream B D C Data)
  | 0, _ => none
  | rounds + 1, s =>
    if (s.readBuffer.length : Int) - s.readBufferOffset < maxlen then
      (s.fillReadBuffer (-1)).bind fun
        | (true, s) => fillFor maxlen rounds s
        | (false, s) => some s
    else some s

/-- A chunk has at least one byte.
mirrors io/TextStream.cpp:182 -/
def rounds (s : TextStream B D C Data) : Nat :=
  match s.source with
  | .string .. => 1
  | .device d => Virtual.getSize d + 1

/-- The characters that are wanted are read, unless there is a string.
mirrors io/TextStream.cpp:389-393 -/
def prepare (s : TextStream B D C Data) (maxlen : Int) : Option (TextStream B D C Data) :=
  match s.source with
  | .string .. => some s
  | .device _ => fillFor maxlen s.rounds s

/-- A negative length means all that is behind `pos`.
mirrors lang/String.cpp:2259-2277 -/
def substring (s : Str) (pos : Nat) (n : Int) : Str :=
  if n < 0 then s.drop pos else (s.drop pos).take n.toNat

/-- mirrors io/TextStream.cpp:386-404 -/
def readInt (s : TextStream B D C Data) (maxlen : Int) : Option (Str × TextStream B D C Data) := do
  let s ← s.prepare maxlen
  let lastTokenSize := min maxlen (s.text.length - s.offset)
  if s.offset + lastTokenSize < 0 then none
  else
    let ret := substring s.text s.offset lastTokenSize
    some (ret, { s with lastTokenSize := lastTokenSize }.consumeLastToken)

/-- mirrors io/TextStream.cpp:1506-1515 -/
def read (s : TextStream B D C Data) (maxlen : Int) : Option (Str × TextStream B D C Data) :=
  if maxlen ≤ 0 then some ([], s) else s.readInt (narrow maxlen)

/-! ## Tokens -/

/-- The locals of `scan`.
mirrors io/TextStream.cpp:408-415 -/
structure Scanning where
  totalSize : Nat
  delimSize : Nat
  consumeDelimiter : Bool
  foundToken : Bool
  startOffset : Nat
  lastChar : UInt16

/-- mirrors io/TextStream.cpp:429-453 -/
def scanChar [UnicodeTables] (delimiter : TokenDelimiter) (k : Scanning) (ch : UInt16) :
    Scanning :=
  let k := { k with totalSize := k.totalSize + 1, startOffset := k.startOffset + 1 }
  match delimiter with
  | .space => if Utils.Character.isSpace ch then { k with foundToken := true, delimSize := 1 } else k
  | .notSpace => if !Utils.Character.isSpace ch then { k with foundToken := true, delimSize := 1 } else k
  | .endOfLine =>
    if ch = lineFeed then
      { k with
        foundToken := true
        delimSize := if k.lastChar = carriageReturn then 2 else 1
        consumeDelimiter := true
        lastChar := ch }
    else { k with lastChar := ch }

/-- The length is not limited, or not reached yet. -/
def Scanning.goesOn (k : Scanning) (maxlen : Int) : Bool :=
  !k.foundToken && (maxlen == 0 || decide ((k.totalSize : Int) < maxlen))

/-- mirrors io/TextStream.cpp:428-454 -/
def scanChars [UnicodeTables] (delimiter : TokenDelimiter) (maxlen : Int) (k : Scanning) :
    Str → Scanning
  | [] => k
  | ch :: rest =>
    if k.goesOn maxlen then scanChars delimiter maxlen (scanChar delimiter k ch) rest
    else k

/-- mirrors io/TextStream.cpp:417-457 -/
def scanLoop [UnicodeTables] (delimiter : TokenDelimiter) (maxlen : Int) :
    Nat → Scanning → TextStream B D C Data → Option (Scanning × TextStream B D C Data)
  | 0, _, _ => none
  | rounds + 1, k, s =>
    let k := scanChars delimiter maxlen k (s.text.drop k.startOffset)
    if k.goesOn maxlen then
      (s.fillReadBuffer (-1)).bind fun
        | (true, s) => scanLoop delimiter maxlen rounds k s
        | (false, s) => some (k, s)
    else some (k, s)

/-- Whether a carriage return is at the end of the data.
mirrors io/TextStream.cpp:469-471 -/
def atDataEnd (s : TextStream B D C Data) (totalSize : Nat) : Bool :=
  match s.source with
  | .string text offset => offset + totalSize == text.length
  | .device d => d.atEnd

/-- The token; no token is false.
mirrors io/TextStream.cpp:406-496 -/
def scan [UnicodeTables] (s : TextStream B D C Data) (maxlen : Int)
    (delimiter : TokenDelimiter) : Option (Option Str × TextStream B D C Data) :=
  (scanLoop delimiter maxlen s.rounds ⟨0, 0, false, false, s.offset, 0⟩ s).map fun (k, s) =>
    if k.totalSize = 0 then (none, s)
    else
      let k := if delimiter = .endOfLine ∧ k.foundToken = false ∧ s.atDataEnd k.totalSize ∧
          k.lastChar = carriageReturn then
          { k with consumeDelimiter := true, delimSize := k.delimSize + 1 }
        else k
      (some ((s.text.drop s.offset).take (k.totalSize - k.delimSize)),
        { s with
          lastTokenSize := if k.consumeDelimiter then k.totalSize else k.totalSize - k.delimSize })

/-- A null string is `none`.
mirrors io/TextStream.cpp:1471-1504 -/
def readLine [UnicodeTables] (s : TextStream B D C Data) (maxlen : Int) :
    Option (Option Str × TextStream B D C Data) :=
  (s.scan (narrow maxlen) .endOfLine).map fun
    | (none, s) => (none, s)
    | (some line, s) => (some line, s.consumeLastToken)

end TextStream

end Libpdk.Io

import Libpdk.Settings.IniEscape
import Libpdk.Codecs.Utf8Codec

/-!
# INI values with a codec

`iniEscapedString`, `iniEscapedStringList` and `iniUnescapedStringList` with a codec: the writer
gives it one unit after the other, the reader gives it the bytes from one special byte to the next
(`run`). In `unescapeByteCodec` the run is kept beside the state until it ends.
-/
namespace Libpdk.Settings

open Codecs Unicode

/-- A codec, with no state passed to it. -/
structure Codec where
  fromUnicode : Str → Bytes
  toUnicode : Bytes → Str

def utf8Codec [Build] : Codec := ⟨Utf8.fromUnicode, Utf8.toUnicode⟩

/-! ## Writing -/

/-- One turn of the loop; there is no codec where `useCodec` is false.
mirrors io/fs/Settings.cpp:568-627 -/
def escapeUnitCodec (codec : Option Codec) (escapeNextIfDigit : Bool) (ch : UInt16) :
    Bytes × Bool :=
  if escapeNextIfDigit && isHexUnit ch then (0x5C :: byte 'x' :: number16 ch.toNat, true)
  else if ch = 0 then ([0x5C, byte '0'], true)
  else match escapeLetter ch with
    | some b => ([0x5C, b], false)
    | none =>
      if ch ≤ 0x1F ∨ (0x7F ≤ ch ∧ codec.isNone) then (0x5C :: byte 'x' :: number16 ch.toNat, true)
      else match codec with
        | some codec => (codec.fromUnicode [ch], false)
        | none => ([ch.toUInt8], false)

def escapeUnitsCodec (codec : Option Codec) : Bool → Str → Bytes
  | _, [] => []
  | e, ch :: rest =>
    (escapeUnitCodec codec e ch).1 ++ escapeUnitsCodec codec (escapeUnitCodec codec e ch).2 rest

/-- Strings for which the codec is not used hold bytes. -/
def useCodec (codec : Codec) (str : Str) : Option Codec :=
  if (lit16 "@ByteArray(").isPrefixOf str || (lit16 "@Variant(").isPrefixOf str then none
  else some codec

/-- mirrors io/fs/Settings.cpp:557-635 -/
def iniEscapedStringCodec (codec : Codec) (str : Str) : Bytes :=
  let text := escapeUnitsCodec (useCodec codec str) false str
  if needsQuotes str || text.head? == some (byte ' ') || text.getLast? == some (byte ' ') then
    0x22 :: (text ++ [0x22])
  else text

/-- mirrors io/fs/Settings.cpp:649-667 -/
def iniEscapedStringListCodec (codec : Codec) : List Str → Bytes
  | [] => lit "@Invalid()"
  | s :: rest =>
    iniEscapedStringCodec codec s ++
      rest.flatMap fun s => lit ", " ++ iniEscapedStringCodec codec s

/-! ## Reading -/

/-- `stringResult += codec->toUnicode(…)`, for a run that is not empty. -/
def Unescape.decode (codec : Codec) (st : Unescape) (run : Bytes) : Unescape :=
  if run = [] then st else { st with stringResult := st.stringResult ++ codec.toUnicode run }

/-- Where the reader is, its variables, and the bytes of the run it is in. -/
abbrev Reading := Mode × Unescape × Bytes

/-- The `switch` of the loop, where a run begins at any other byte.
mirrors io/fs/Settings.cpp:703-800 -/
def normalByteCodec (st : Unescape) (b : UInt8) : Reading :=
  if b = 0x5C then (.escape, st, [])
  else if b = 0x22 then
    let st := { st with currentValueIsQuoted := true, inQuotedString := !st.inQuotedString }
    (if st.inQuotedString then .normal else .skipSpaces, st, [])
  else if b = byte ',' ∧ ¬ st.inQuotedString then (.skipSpaces, st.comma, [])
  else (.normal, st, [b])

/-- What ends a run. -/
def endsRun (b : UInt8) : Bool := b == 0x5C || b == 0x22 || b == byte ','

def unescapeByteCodec (codec : Codec) : Reading → UInt8 → Reading
  | (.skipSpaces, st, _), b =>
    if b = byte ' ' ∨ b = 9 then (.skipSpaces, st, []) else normalByteCodec st.limit b
  | (.normal, st, run), b =>
    if run ≠ [] ∧ ¬endsRun b then (.normal, st, run ++ [b])
    else normalByteCodec (st.decode codec run) b
  | (.escape, st, _), b =>
    match escapeCodes.find? (·.1 == b) with
    | some (_, ch) => (.normal, (st.push ch).limit, [])
    | none =>
      if b = byte 'x' then (.escapeX, st, [])
      else if byte '0' ≤ b ∧ b ≤ byte '7' then (.octEscape (b.toNat - 48), st, [])
      else if b = 10 ∨ b = 13 then (.escapeEol b, st.limit, [])
      else (.normal, st.limit, [])
  | (.escapeX, st, _), b =>
    match hexValue b.toNat with
    | some d => (.hexEscape d, st, [])
    | none => normalByteCodec st.limit b
  | (.escapeEol ch, st, _), b =>
    if (b = 10 ∨ b = 13) ∧ b ≠ ch then (.normal, st, []) else normalByteCodec st b
  | (.hexEscape v, st, _), b =>
    match hexValue b.toNat with
    | some d => (.hexEscape (16 * v + d), st, [])
    | none => normalByteCodec (st.push (.ofNat v)).limit b
  | (.octEscape v, st, _), b =>
    if byte '0' ≤ b ∧ b ≤ byte '7' then (.octEscape (8 * v + (b.toNat - 48)), st, [])
    else normalByteCodec (st.push (.ofNat v)).limit b

/-- What is done when the bytes end, up to the label `end`. -/
def stopModeCodec (codec : Codec) : Reading → Unescape
  | (.normal, st, run) => (st.decode codec run).chop
  | (m, st, _) => stopMode (m, st)

/-- mirrors io/fs/Settings.cpp:669-842 -/
def iniUnescapedStringListCodec (codec : Codec) (str : Bytes) : Unescaped :=
  let st := stopModeCodec codec
    (str.foldl (unescapeByteCodec codec) (.skipSpaces, ⟨[], [], false, false, false, 0⟩, []))
  if st.isStringList then .stringList (st.stringListResult ++ [st.stringResult])
  else .string st.stringResult

end Libpdk.Settings

import Mathlib.Data.List.DropRight
import Libpdk.Core.Text

/-!
# Escaping in INI files

Keys (`iniEscapedKey`, `iniUnescapedKey`) and values (`iniEscapedString`,
`iniEscapedStringList`, `iniUnescapedStringList`) of an INI file, without a
codec.

`iniUnescapedStringList` is written with `goto`s. Here its labels, and the
places where it has read part of an escape, are the states `Mode`, and
`unescapeByte` is what it does with one byte; the inner loop over a run of
ordinary characters takes them one at a time. `stopMode` is what happens when
the bytes end.
-/
namespace Libpdk.Settings

/-! ## Digits -/

/-- mirrors ds/ByteArray.cpp:50-65 (`pdk_ulltoa2`); 64 digits
are enough for a 64-bit number in any base -/
def ulltoa2 : Nat → Nat → Nat → Bytes
  | 0, _, _ => []
  | fuel + 1, n, base =>
    let c := n % base
    (if n / base = 0 then [] else ulltoa2 fuel (n / base) base) ++
      [UInt8.ofNat (if c < 10 then c + 48 else c + 87)]

/-- `ByteArray::number(n, 16)`. -/
def number16 (n : Nat) : Bytes := ulltoa2 64 n 16

/-- `sg_hexDigits[n]`. -/
def hexDigit (n : Nat) : UInt8 := UInt8.ofNat (if n < 10 then n + 48 else n + 55)

/-- The value of a hexadecimal digit of either case. -/
def hexValue (c : Nat) : Option Nat :=
  if 48 ≤ c ∧ c ≤ 57 then some (c - 48)
  else if 97 ≤ c ∧ c ≤ 102 then some (c - 87)
  else if 65 ≤ c ∧ c ≤ 70 then some (c - 55)
  else none

/-! ## Keys -/

/-- The slash between the parts of a key. -/
def slash : UInt16 := unit '/'

/-- `[a-zA-Z0-9_.-]`, the characters a key keeps. -/
def isPlainKeyUnit (ch : UInt16) : Bool :=
  (unit 'a' ≤ ch && ch ≤ unit 'z') || (unit 'A' ≤ ch && ch ≤ unit 'Z') ||
    (unit '0' ≤ ch && ch ≤ unit '9') || ch == unit '_' || ch == unit '-' || ch == unit '.'

/-- One turn of the loop of `iniEscapedKey`. -/
def escapeKeyUnit (ch : UInt16) : Bytes :=
  if ch = slash then [0x5C]
  else if isPlainKeyUnit ch then [ch.toUInt8]
  else if ch ≤ 0xFF then [byte '%', hexDigit (ch.toNat / 16), hexDigit (ch.toNat % 16)]
  else [byte '%', byte 'U', hexDigit (ch.toNat / 4096 % 16), hexDigit (ch.toNat / 256 % 16),
    hexDigit (ch.toNat / 16 % 16), hexDigit (ch.toNat % 16)]

/-- mirrors io/fs/Settings.cpp:474-499 -/
def iniEscapedKey (key : Str) : Bytes := key.flatMap escapeKeyUnit

/-- `isspace` of the C locale. -/
def isCSpace (b : UInt8) : Bool := b == 32 || (9 ≤ b && b ≤ 13)

/-- The digits `strtoll` reads in base 16, and whether there was one and
nothing but digits. -/
def strtollDigits : Bytes → Nat → Bool → Option Nat
  | [], n, any => if any then some n else none
  | b :: rest, n, _ =>
    match hexValue b.toNat with
    | some d => strtollDigits rest (16 * n + d) true
    | none => none

/-- A `0x` in front of the digits is skipped when a digit follows it. -/
def strtollPrefix : Bytes → Bytes
  | z :: x :: d :: rest =>
    if z = byte '0' ∧ (x = byte 'x' ∨ x = byte 'X') ∧ (hexValue d.toNat).isSome then d :: rest
    else z :: x :: d :: rest
  | s => s

/-- `ByteArray::toInt(&ok, 16)` of at most four bytes, as a C string: leading
spaces, a sign, `0x`, then digits up to the end; `none` for `ok == false`.
mirrors ds/ByteArray.cpp:1368-1404, utils/Locale.cpp:2714-2745
and utils/LocaleTools.cpp:343-359 -/
def toInt16 (s : Bytes) : Option Int :=
  match (s.takeWhile (· ≠ 0)).dropWhile isCSpace with
  | [] => none
  | b :: rest =>
    if b = byte '-' then (strtollDigits (strtollPrefix rest) 0 false).map fun n => -(n : Int)
    else if b = byte '+' then (strtollDigits (strtollPrefix rest) 0 false).map fun n => (n : Int)
    else (strtollDigits (strtollPrefix (b :: rest)) 0 false).map fun n => (n : Int)

/-- `Character(int)`. -/
def characterOfInt (n : Int) : UInt16 := UInt16.ofNat (n % 65536).toNat

/-- The characters of a key, without the result of `iniUnescapedKey` (whether
they are all lower case), which a case-sensitive build ignores.
mirrors io/fs/Settings.cpp:501-555 -/
def iniUnescapedKey : Bytes → Str
  | [] => []
  | ch :: rest =>
    if ch = 0x5C then slash :: iniUnescapedKey rest
    else if ch ≠ byte '%' ∨ rest = [] then ch.toUInt16 :: iniUnescapedKey rest
    else
      let skip := if rest.head? = some (byte 'U') then 1 else 0
      let numDigits := if rest.head? = some (byte 'U') then 4 else 2
      if rest.length < skip + numDigits then unit '%' :: iniUnescapedKey rest
      else match toInt16 ((rest.drop skip).take numDigits) with
        | some n => characterOfInt n :: iniUnescapedKey (rest.drop (skip + numDigits))
        | none => unit '%' :: iniUnescapedKey rest
  termination_by key => key.length
  decreasing_by all_goals simp only [List.length_cons, List.length_drop]; omega

/-! ## Values -/

/-- `[0-9a-fA-F]`. -/
def isHexUnit (ch : UInt16) : Bool := (hexValue ch.toNat).isSome

/-- The escapes of one letter that `iniEscapedString` writes. -/
def escapeLetter (ch : UInt16) : Option UInt8 :=
  if ch = 7 then some (byte 'a')
  else if ch = 8 then some (byte 'b')
  else if ch = 12 then some (byte 'f')
  else if ch = 10 then some (byte 'n')
  else if ch = 13 then some (byte 'r')
  else if ch = 9 then some (byte 't')
  else if ch = 11 then some (byte 'v')
  else if ch = 0x22 then some 0x22
  else if ch = 0x5C then some 0x5C
  else none

/-- One turn of the loop of `iniEscapedString`: the bytes it appends, and the
new `escapeNextIfDigit`. -/
def escapeUnit (escapeNextIfDigit : Bool) (ch : UInt16) : Bytes × Bool :=
  if escapeNextIfDigit && isHexUnit ch then (0x5C :: byte 'x' :: number16 ch.toNat, true)
  else if ch = 0 then ([0x5C, byte '0'], true)
  else match escapeLetter ch with
    | some b => ([0x5C, b], false)
    | none =>
      if ch ≤ 0x1F ∨ 0x7F ≤ ch then (0x5C :: byte 'x' :: number16 ch.toNat, true)
      else ([ch.toUInt8], false)

def escapeUnits : Bool → Str → Bytes
  | _, [] => []
  | e, ch :: rest => (escapeUnit e ch).1 ++ escapeUnits (escapeUnit e ch).2 rest

/-- `needsQuotes` after the loop. -/
def needsQuotes (str : Str) : Bool :=
  str.any fun ch => ch == unit ';' || ch == unit ',' || ch == unit '='

/-- mirrors io/fs/Settings.cpp:557-635 -/
def iniEscapedString (str : Str) : Bytes :=
  let body := escapeUnits false str
  if needsQuotes str || body.head? == some (byte ' ') || body.getLast? == some (byte ' ') then
    0x22 :: (body ++ [0x22])
  else body

/-- mirrors io/fs/Settings.cpp:649-667 -/
def iniEscapedStringList (strs : List Str) : Bytes :=
  match strs with
  | [] => lit "@Invalid()"
  | s :: rest => iniEscapedString s ++ rest.flatMap fun s => lit ", " ++ iniEscapedString s

def isBlank (ch : UInt16) : Bool := ch == unit ' ' || ch == 9

/-- mirrors io/fs/Settings.cpp:639-646 -/
def iniChopTrailingSpaces (str : Str) (limit : Nat) : Str :=
  str.take limit ++ (str.drop limit).rdropWhile isBlank

/-- The escape codes of `iniUnescapedStringList`. -/
def escapeCodes : List (UInt8 × UInt16) :=
  [(byte 'a', 7), (byte 'b', 8), (byte 'f', 12), (byte 'n', 10), (byte 'r', 13), (byte 't', 9),
    (byte 'v', 11), (0x22, 0x22), (byte '?', unit '?'), (0x27, 0x27), (0x5C, 0x5C)]

/-- Where `iniUnescapedStringList` is: at one of its labels, or behind a
backslash (`escape`), behind a backslash and an x (`escapeX`), or behind a
backslash and a line end (`escapeEol`). -/
inductive Mode where
  | skipSpaces
  | normal
  | escape
  | escapeX
  | escapeEol (ch : UInt8)
  | hexEscape (escapeVal : Nat)
  | octEscape (escapeVal : Nat)
  deriving DecidableEq, Repr

/-- The variables of `iniUnescapedStringList`. -/
structure Unescape where
  stringResult : Str
  stringListResult : List Str
  isStringList : Bool
  inQuotedString : Bool
  currentValueIsQuoted : Bool
  chopLimit : Nat
  deriving DecidableEq, Repr

namespace Unescape

def push (st : Unescape) (ch : UInt16) : Unescape :=
  { st with stringResult := st.stringResult ++ [ch] }

/-- `StNormal: int chopLimit = stringResult.length();` -/
def limit (st : Unescape) : Unescape := { st with chopLimit := st.stringResult.length }

def chop (st : Unescape) : Unescape :=
  if st.currentValueIsQuoted then st
  else { st with stringResult := iniChopTrailingSpaces st.stringResult st.chopLimit }

/-- A comma outside of quotes. -/
def comma (st : Unescape) : Unescape :=
  { st.chop with
    isStringList := true
    stringListResult := (if st.isStringList then st.stringListResult else []) ++
      [st.chop.stringResult]
    stringResult := []
    currentValueIsQuoted := false }

end Unescape

/-- The `switch` of the loop.
mirrors io/fs/Settings.cpp:703-794 -/
def normalByte (st : Unescape) (b : UInt8) : Mode × Unescape :=
  if b = 0x5C then (.escape, st)
  else if b = 0x22 then
    let st := { st with currentValueIsQuoted := true, inQuotedString := !st.inQuotedString }
    (if st.inQuotedString then .normal else .skipSpaces, st)
  else if b = byte ',' ∧ ¬ st.inQuotedString then (.skipSpaces, st.comma)
  else (.normal, st.push b.toUInt16)

def unescapeByte : Mode × Unescape → UInt8 → Mode × Unescape
  | (.skipSpaces, st), b =>
    if b = byte ' ' ∨ b = 9 then (.skipSpaces, st) else normalByte st.limit b
  | (.normal, st), b => normalByte st b
  | (.escape, st), b =>
    match escapeCodes.find? (·.1 == b) with
    | some (_, ch) => (.normal, (st.push ch).limit)
    | none =>
      if b = byte 'x' then (.escapeX, st)
      else if byte '0' ≤ b ∧ b ≤ byte '7' then (.octEscape (b.toNat - 48), st)
      else if b = 10 ∨ b = 13 then (.escapeEol b, st.limit)
      else (.normal, st.limit)
  | (.escapeX, st), b =>
    match hexValue b.toNat with
    | some d => (.hexEscape d, st)
    | none => normalByte st.limit b
  | (.escapeEol ch, st), b =>
    if (b = 10 ∨ b = 13) ∧ b ≠ ch then (.normal, st) else normalByte st b
  | (.hexEscape v, st), b =>
    match hexValue b.toNat with
    | some d => (.hexEscape (16 * v + d), st)
    | none => normalByte (st.push (.ofNat v)).limit b
  | (.octEscape v, st), b =>
    if byte '0' ≤ b ∧ b ≤ byte '7' then (.octEscape (8 * v + (b.toNat - 48)), st)
    else normalByte (st.push (.ofNat v)).limit b

/-- What is done when the bytes end, up to the label `end`. -/
def stopMode : Mode × Unescape → Unescape
  | (.skipSpaces, st) => st.limit.chop
  | (.normal, st) => st.chop
  | (.escape, st) => st
  | (.escapeX, st) => st
  | (.escapeEol _, st) => st.chop
  | (.hexEscape v, st) => st.push (.ofNat v)
  | (.octEscape v, st) => st.push (.ofNat v)

/-- A value read back: `isStringList` with `stringListResult`, or else `stringResult`. -/
inductive Unescaped where
  | string (s : Str)
  | stringList (l : List Str)
  deriving DecidableEq, Repr

/-- mirrors io/fs/Settings.cpp:669-842 -/
def iniUnescapedStringList (str : Bytes) : Unescaped :=
  let st := stopMode (str.foldl unescapeByte (.skipSpaces, ⟨[], [], false, false, false, 0⟩))
  if st.isStringList then .stringList (st.stringListResult ++ [st.stringResult])
  else .string st.stringResult

end Libpdk.Settings

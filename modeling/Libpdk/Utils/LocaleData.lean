import Mathlib.Data.List.DropRight
import Libpdk.Utils.LocaleTools

/-!
# Integers in a locale

`longLongToString` and `unsLongLongToString` write the digits, then groups, precision, padding,
capitals, prefix and sign, in this order. `numberToCLocale` takes a text back to the C locale, one
character at a time; it knows neither the base nor whether the text is a number, only where group
separators may stand.
-/
namespace Libpdk.Utils

open Numeral
open Time (int)

/-! ## Characters -/

/-- What the tables of Unicode say of a code unit. -/
class UnicodeTables where
  isSpaceHelper : UInt16 → Bool
  isDecimalDigit : UInt16 → Bool
  digitValue : UInt16 → Int
  toLower : UInt16 → UInt16
  toUpper : UInt16 → UInt16
  /-- The upper case of a string. -/
  convertCase : Str → Str
  digitValue_ascii : ∀ c, unit '0' ≤ c → c ≤ unit '9' → digitValue c = c.toNat - 48
  toLower_ascii : ∀ c < 128,
    toLower c = if unit 'A' ≤ c ∧ c ≤ unit 'Z' then c + 32 else c
  toUpper_ascii : ∀ c < 128,
    toUpper c = if unit 'a' ≤ c ∧ c ≤ unit 'z' then c - 32 else c
  convertCase_ascii : ∀ s, (∀ c ∈ s, c < 128) → convertCase s = s.map toUpper

/-- Tables that know ASCII and nothing else. -/
@[reducible] def asciiTables : UnicodeTables where
  isSpaceHelper _ := false
  isDecimalDigit _ := false
  digitValue c := if unit '0' ≤ c ∧ c ≤ unit '9' then c.toNat - 48 else -1
  toLower c := if unit 'A' ≤ c ∧ c ≤ unit 'Z' then c + 32 else c
  toUpper c := if unit 'a' ≤ c ∧ c ≤ unit 'z' then c - 32 else c
  convertCase s := s.map fun c => if unit 'a' ≤ c ∧ c ≤ unit 'z' then c - 32 else c
  digitValue_ascii _ h h' := if_pos ⟨h, h'⟩
  toLower_ascii _ _ := rfl
  toUpper_ascii _ _ := rfl
  convertCase_ascii _ _ := rfl

namespace Character

/-- mirrors lang/Character.h:683-688 -/
def isSpace [UnicodeTables] (c : UInt16) : Bool :=
  c == 0x20 || (c ≥ 0x09 && c ≤ 0x0d) ||
    (c > 127 && (c == 0x85 || c == 0xa0 || UnicodeTables.isSpaceHelper c))

/-- mirrors lang/Character.h:712-716 -/
def isDigit [UnicodeTables] (c : UInt16) : Bool :=
  (c ≥ unit '0' && c ≤ unit '9') || (c > 127 && UnicodeTables.isDecimalDigit c)

/-- mirrors lang/Character.h:481-484 -/
def toLatin1 (c : UInt16) : UInt8 := if c > 0xff then 0 else c.toUInt8

end Character

/-! ## Locales -/

/-- What the functions here read of a locale.
mirrors utils/internal/LocalePrivate.h:266-280 -/
structure LocaleData where
  decimal : UInt16
  group : UInt16
  list : UInt16
  percent : UInt16
  zero : UInt16
  minus : UInt16
  plus : UInt16
  exponential : UInt16

/-- mirrors utils/Locale.cpp:680-684, utils/internal/LocaleDataPrivate.h:1225 -/
def LocaleData.c : LocaleData := ⟨46, 44, 59, 37, 48, 45, 43, 101⟩

/-- mirrors utils/internal/LocalePrivate.h:180-193 -/
structure Flags where
  zeroPadded : Bool
  leftAdjusted : Bool
  blankBeforePositive : Bool
  alwaysShowSign : Bool
  thousandsGroup : Bool
  capitalEorX : Bool
  showBase : Bool
  uppercaseBase : Bool
  deriving DecidableEq

def Flags.noFlags : Flags := ⟨false, false, false, false, false, false, false, false⟩

/-- The options that `numberToCLocale` looks at.
mirrors utils/Locale.h:903-912 -/
structure NumberOptions where
  rejectGroupSeparator : Bool
  rejectLeadingZeroInExponent : Bool
  rejectTrailingZeroesAfterDot : Bool

def NumberOptions.default : NumberOptions := ⟨false, false, false⟩

namespace LocaleData

/-! ## Writing -/

/-- The loop that inserts the group separators, from place `i` on downwards.
mirrors utils/Locale.cpp:2253-2256 and 2342-2345 -/
def groupLoop (group : UInt16) : Nat → Str → Str
  | 0, s => s
  | 1, s => s.take 1 ++ group :: s.drop 1
  | 2, s => s.take 2 ++ group :: s.drop 2
  | i + 3, s => groupLoop group i (s.take (i + 3) ++ group :: s.drop (i + 3))

/-- What both functions do behind the first digits. Only that for signed numbers leaves space for
a sign when it pads. The precision is -1 where it is not specified.
mirrors utils/Locale.cpp:2251-2317 and 2340-2401 -/
def formatInteger [UnicodeTables] (d : LocaleData) (signed negative : Bool) (numStr : Str)
    (precision : Int) (base : Nat) (width : Int) (flags : Flags) : Option Str := do
  let precisionNotSpecified := precision = -1
  let precision := if precision = -1 then 1 else precision
  let resultZero := if base = 10 then d.zero else unit '0'
  let numStr := if flags.thousandsGroup ∧ base = 10 then groupLoop d.group (numStr.length - 3) numStr
    else numStr
  let numStr := List.replicate (precision - numStr.length).toNat resultZero ++ numStr
  let numStr := if flags.showBase ∧ base = 8 ∧ numStr.head? ≠ some (unit '0') then
    unit '0' :: numStr else numStr
  let numStr ← if flags.zeroPadded ∧ ¬flags.leftAdjusted ∧ precisionNotSpecified then do
      let numPadChars ← int (width - numStr.length)
      let numPadChars ←
        if signed ∧ (negative ∨ flags.alwaysShowSign ∨ flags.blankBeforePositive) then
          int (numPadChars - 1)
        else some numPadChars
      let numPadChars ←
        if (base = 16 ∨ base = 2) ∧ flags.showBase then int (numPadChars - 2) else some numPadChars
      some (List.replicate numPadChars.toNat resultZero ++ numStr)
    else some numStr
  let numStr := if flags.capitalEorX then UnicodeTables.convertCase numStr else numStr
  let numStr := if base = 16 ∧ flags.showBase then
      unit '0' :: (if flags.uppercaseBase then unit 'X' else unit 'x') :: numStr
    else if base = 2 ∧ flags.showBase then
      unit '0' :: (if flags.uppercaseBase then unit 'B' else unit 'b') :: numStr
    else numStr
  some (if negative then d.minus :: numStr
    else if flags.alwaysShowSign then d.plus :: numStr
    else if flags.blankBeforePositive then unit ' ' :: numStr
    else numStr)

/-- `none` is an overflow.
mirrors utils/Locale.cpp:2217-2318 -/
def longLongToString [UnicodeTables] (d : LocaleData) (l precision : Int) (base : Nat) (width : Int)
    (flags : Flags) : Option Str := do
  let negative := l < 0 ∧ base = 10
  let flags := if base = 10 then flags
    else { flags with alwaysShowSign := false, blankBeforePositive := false }
  let numStr ← if base = 10 then pdkLltoa l base d.zero
    else pdkUlltoa (l % 2 ^ 64).toNat base d.zero
  formatInteger d true negative numStr precision base width flags

/-- mirrors utils/Locale.cpp:2320-2402 -/
def unsLongLongToString [UnicodeTables] (d : LocaleData) (l : Nat) (precision : Int) (base : Nat)
    (width : Int) (flags : Flags) : Option Str := do
  let resultZero := if base = 10 then d.zero else unit '0'
  let numStr ← if l = 0 then some [resultZero] else pdkUlltoa l base d.zero
  if precision = -1 ∧ flags = .noFlags then some numStr
  else formatInteger d false false numStr precision base width flags

/-! ## Reading -/

/-- mirrors utils/internal/LocalePrivate.h:487-518 -/
def digitToCLocale [UnicodeTables] (d : LocaleData) (c : UInt16) : UInt8 :=
  let tenUnicode := d.zero + 10
  if c ≥ d.zero ∧ c < tenUnicode then (unit '0' + c - d.zero).toUInt8
  else if c ≥ unit '0' ∧ c ≤ unit '9' then Character.toLatin1 c
  else if c = d.plus ∨ c = unit '+' then byte '+'
  else if c = d.minus ∨ c = unit '-' ∨ c = 0x2212 then byte '-'
  else if c = d.decimal then byte '.'
  else if c = d.group then byte ','
  else if c = d.exponential ∨ c = UnicodeTables.toUpper d.exponential then byte 'e'
  else if d.group = 0xA0 ∧ c = unit ' ' then byte ','
  else 0

/-- The character that is read as `c`, with whether `digitToCLocale` knew it; `none` for one that
ends the loop.
mirrors utils/Locale.cpp:2440-2455 -/
def charToCLocale [UnicodeTables] (d : LocaleData) (c : UInt16) : Option (UInt8 × Bool) :=
  let out := d.digitToCLocale c
  if out ≠ 0 then some (out, true)
  else if c = d.list then some (byte ';', false)
  else if c = d.percent then some (byte '%', false)
  else if c ≥ unit 'A' ∧ c ≤ unit 'Z' then some (Character.toLatin1 (UnicodeTables.toLower c), false)
  else if c ≥ unit 'a' ∧ c ≤ unit 'z' then some (Character.toLatin1 c, false)
  else none

/-- The locals of `numberToCLocale`; an index of -1 is `none`.
mirrors utils/Locale.cpp:2431-2436 -/
structure Scan where
  idx : Nat
  decptIdx : Option Nat
  lastSeparatorIdx : Option Nat
  startOfDigitsIdx : Option Nat
  exponentIdx : Option Nat
  result : Bytes

/-- "Fail if more than one decimal point or point after e", and where point and exponent are.
mirrors utils/Locale.cpp:2456-2464 -/
def notePoint (out : UInt8) (known : Bool) (s : Scan) : Option Scan :=
  if known ∧ out = byte '.' then
    if s.decptIdx.isSome ∨ s.exponentIdx.isSome then none
    else some { s with decptIdx := some s.idx }
  else if known ∧ out = byte 'e' then some { s with exponentIdx := some s.idx }
  else some s

/-- What the two options that reject zeroes say; `l` is where the text ends.
mirrors utils/Locale.cpp:2465-2483 -/
def rejectsZero (opts : NumberOptions) (out : UInt8) (l : Nat) (s : Scan) : Bool :=
  (opts.rejectLeadingZeroInExponent && s.exponentIdx.isSome && out == byte '0' &&
    decide (s.idx + 1 < l) &&
    s.result.getLast?.any (fun last => last < byte '0' || last > byte '9')) ||
  (opts.rejectTrailingZeroesAfterDot && s.decptIdx.isSome && s.exponentIdx == some s.idx &&
    s.result.getLast? == some (byte '0'))

/-- The distance from the last separator is right, if there is one. -/
def separatorApart (s : Scan) : Bool :=
  match s.lastSeparatorIdx with
  | none => true
  | some p => s.idx - p == 4

/-- The distance from the last separator or from the beginning of the digits is right. -/
def separatorAllowed (s : Scan) : Bool :=
  s.decptIdx.isNone && s.exponentIdx.isNone &&
    match s.lastSeparatorIdx, s.startOfDigitsIdx with
    | some p, _ => s.idx - p == 4
    | none, none => false
    | none, some start => decide (s.idx - start ≤ 3)

/-- The group separators: whether the character is one, and the locals behind it.
mirrors utils/Locale.cpp:2485-2518 -/
def noteSeparator (opts : NumberOptions) (out : UInt8) (s : Scan) : Option (Bool × Scan) :=
  if opts.rejectGroupSeparator then some (false, s)
  else if s.startOfDigitsIdx.isNone ∧ out ≥ byte '0' ∧ out ≤ byte '9' then
    some (false, { s with startOfDigitsIdx := some s.idx })
  else if out = byte ',' then
    if separatorAllowed s then some (true, { s with lastSeparatorIdx := some s.idx }) else none
  else if out = byte '.' ∨ out = byte 'e' ∨ out = byte 'E' then
    if separatorApart s then some (false, { s with lastSeparatorIdx := none }) else none
  else some (false, s)

/-- One turn of the loop. `none` also stands for the `break`: the loop has then not come to the
end of the text, for which the result is false.
mirrors utils/Locale.cpp:2438-2522 -/
def scanStep [UnicodeTables] (d : LocaleData) (opts : NumberOptions) (l : Nat) (s : Scan)
    (c : UInt16) : Option Scan := do
  let (out, known) ← d.charToCLocale c
  let s ← notePoint out known s
  if rejectsZero opts out l s then none
  else
    let (separator, s) ← noteSeparator opts out s
    some { s with
      idx := s.idx + 1
      result := if separator then s.result else s.result ++ [out] }

/-- mirrors utils/Locale.cpp:2438-2522 -/
def scanLoop [UnicodeTables] (d : LocaleData) (opts : NumberOptions) (l : Nat) (s : Scan) :
    Str → Option Scan
  | [] => some s
  | c :: text => do scanLoop d opts l (← scanStep d opts l s c) text

/-- "group separator post-processing", and the trailing zeroes.
mirrors utils/Locale.cpp:2524-2545 -/
def scanEnd (opts : NumberOptions) (s : Scan) : Option Bytes :=
  if ¬opts.rejectGroupSeparator ∧ ¬separatorApart s then none
  else if opts.rejectTrailingZeroesAfterDot ∧ s.decptIdx.isSome ∧ s.exponentIdx.isNone ∧
      s.result.getLast? = some (byte '0') then none
  else some (s.result ++ [0])

/-- `none` is false.
mirrors utils/Locale.cpp:2411-2544 -/
def numberToCLocale [UnicodeTables] (d : LocaleData) (str : Str) (opts : NumberOptions) :
    Option Bytes := do
  let skipped := (str.takeWhile Character.isSpace).length
  let text := (str.drop skipped).rdropWhile Character.isSpace
  if text = [] then none
  else
    let start : Scan := ⟨skipped, none, none, none, none, []⟩
    scanEnd opts (← scanLoop d opts (skipped + text.length) start text)

/-- mirrors utils/Locale.cpp:2661-2674 -/
def stringToLongLong [UnicodeTables] (d : LocaleData) (str : Str) (base : Nat)
    (opts : NumberOptions) : Option (Bool × Int) :=
  match d.numberToCLocale str opts with
  | none => some (false, 0)
  | some buff => bytearrayToLongLong buff base

/-- mirrors utils/Locale.cpp:2676-2689 -/
def stringToUnsLongLong [UnicodeTables] (d : LocaleData) (str : Str) (base : Nat)
    (opts : NumberOptions) : Option (Bool × Int) :=
  match d.numberToCLocale str opts with
  | none => some (false, 0)
  | some buff => bytearrayToUnsLongLong buff base

end LocaleData

end Libpdk.Utils

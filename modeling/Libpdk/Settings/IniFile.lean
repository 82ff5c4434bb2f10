import Mathlib.Data.List.Sort
import Mathlib.Data.List.TakeWhile
import Libpdk.Core.OrdMap
import Libpdk.Settings.IniText

/-!
# INI files

The conversion of values to strings, the line reader, `readIniFile`,
`readIniSection` and `writeIniFile`, as they are built where file names are
case sensitive: a `SettingsKey` is its string, and no key has a position.

A position in the data is represented by the bytes before and behind it, and
the loop of `readIniLine` by a state machine (`lineByte`) that stops in front of
a byte that does not belong to the line any more.

Left out: a codec (`readIniFile` stops at a UTF-8 byte-order mark, which would
select one), and values of types that go through a `DataStream`.
-/
namespace Libpdk.Settings

/-! ## Values -/

/-- A value that is no list: an empty `std::any`, a `String` or a `ByteArray`. -/
inductive Item where
  | empty
  | string (s : Str)
  | byteArray (a : Bytes)
  deriving DecidableEq, Repr

/-- A `std::any`: an item, a `std::list<std::any>` of items or a `StringList`. -/
inductive Any where
  | item (v : Item)
  | anyList (l : List Item)
  | stringList (l : List Str)
  deriving DecidableEq, Repr

/-- mirrors io/fs/Settings.cpp:376-429 -/
def anyToString : Item → Str
  | .empty => lit16 "@Invalid()"
  | .byteArray a => lit16 "@ByteArray(" ++ latin1 a ++ lit16 ")"
  | .string s =>
    if 0 ∈ s then lit16 "@String(" ++ s ++ lit16 ")"
    else if s.head? = some (unit '@') then unit '@' :: s
    else s

/-- The branch behind `startsWith("@@")`. -/
def stringToAnyRest (s : Str) : Item :=
  if (lit16 "@@").isPrefixOf s then .string (s.drop 1) else .string s

/-- A `DataStream` reads nothing yet, so a `@Variant(` or `@DateTime(` is read as an
empty value.
mirrors io/fs/Settings.cpp:431-469 -/
def stringToAny (s : Str) : Item :=
  if s.head? = some (unit '@') then
    if s.getLast? = some (unit ')') then
      if (lit16 "@ByteArray(").isPrefixOf s then
        .byteArray (toLatin1 ((s.drop 11).take (s.length - 12)))
      else if (lit16 "@String(").isPrefixOf s then .string ((s.drop 8).take (s.length - 9))
      else if (lit16 "@Variant(").isPrefixOf s ∨ (lit16 "@DateTime(").isPrefixOf s then .empty
      else if s = lit16 "@Invalid()" then .empty
      else stringToAnyRest s
    else stringToAnyRest s
  else .string s

/-- The result is resized before the strings are pushed to its back.
mirrors io/fs/Settings.cpp:343-352 -/
def anyListToStringList (list : List Item) : List Str :=
  List.replicate list.length [] ++ list.map anyToString

/-- `outStringList`, unless a string starts with a single `@`. -/
def outStringList : List Str → Option (List Str)
  | [] => some []
  | str :: rest =>
    if str.head? = some (unit '@') then
      if str[1]? = some (unit '@') then (outStringList rest).map (str.drop 1 :: ·) else none
    else (outStringList rest).map (str :: ·)

/-- The list of values is resized before the values are pushed to its back.
mirrors io/fs/Settings.cpp:354-374 -/
def stringListToAnyList (list : List Str) : Any :=
  match outStringList list with
  | some out => .stringList out
  | none => .anyList (List.replicate list.length .empty ++ list.map stringToAny)

/-! ## Lines -/

/-- `sg_charTraits[b] & Space`. -/
def isSpace (b : UInt8) : Bool := b == 9 || b == 10 || b == 13 || b == 32

/-- `sg_charTraits[b] & Special`. -/
def isSpecial (b : UInt8) : Bool :=
  b == 10 || b == 13 || b == 0x22 || b == byte ';' || b == byte '=' || b == 0x5C

def isEol (b : UInt8) : Bool := b == 10 || b == 13

/-- Where `readIniLine` is: before the line, in it, behind a backslash, behind
a backslash and a line end, or in a comment. -/
inductive LineMode where
  | skipSpaces
  | scan
  | escape
  | escapeEol (ch : UInt8)
  | comment
  deriving DecidableEq, Repr

/-- The bytes from `dataPos` to `lineStart`, those of the line, `equalsPos`
(from `lineStart`) and `inQuotes`. -/
structure LineState where
  skipped : Bytes
  line : Bytes
  equalsPos : Option Nat
  inQuotes : Bool
  deriving DecidableEq, Repr

def LineState.push (st : LineState) (b : UInt8) : LineState := { st with line := st.line ++ [b] }

/-- `++lineStart`. -/
def LineState.skip (st : LineState) (b : UInt8) : LineState :=
  { st with skipped := st.skipped ++ [b] }

/-- A turn of the outer loop; `none` is `--i; goto break_out_of_outer_loop`. -/
def scanByte (st : LineState) (b : UInt8) : Option (LineMode × LineState) :=
  if ¬ isSpecial b then some (.scan, st.push b)
  else if b = byte '=' then
    some (.scan, { st.push b with equalsPos :=
      if ¬ st.inQuotes ∧ st.equalsPos = none then some st.line.length else st.equalsPos })
  else if isEol b then
    if st.line = [] then some (.scan, st.skip b)
    else if ¬ st.inQuotes then none
    else some (.scan, st.push b)
  else if b = 0x5C then some (.escape, st.push b)
  else if b = 0x22 then some (.scan, { st.push b with inQuotes := !st.inQuotes })
  else
    if st.line = [] then some (.comment, st.skip b)
    else if ¬ st.inQuotes then none
    else some (.scan, st.push b)

def lineByte : LineMode × LineState → UInt8 → Option (LineMode × LineState)
  | (.skipSpaces, st), b => if isSpace b then some (.skipSpaces, st.skip b) else scanByte st b
  | (.scan, st), b => scanByte st b
  | (.escape, st), b => some (if isEol b then .escapeEol b else .scan, st.push b)
  | (.escapeEol ch, st), b =>
    if isEol b ∧ b ≠ ch then some (.scan, st.push b) else scanByte st b
  | (.comment, st), b => if isEol b then scanByte st b else some (.comment, st.skip b)

/-- The state at the end of the line, and the bytes from the new `dataPos`. -/
def readLoop : LineMode × LineState → Bytes → LineState × Bytes
  | s, [] => (s.2, [])
  | s, b :: rest =>
    match lineByte s b with
    | some s' => readLoop s' rest
    | none => (s.2, b :: rest)

/-- mirrors io/fs/Settings.cpp:1475-1535 -/
def readIniLine (data : Bytes) : LineState × Bytes :=
  readLoop (.skipSpaces, ⟨[], [], none, false⟩) data

def LineState.size (st : LineState) : Nat := st.skipped.length + st.line.length

theorem scanByte_size {st st' : LineState} {m : LineMode} {b : UInt8}
    (h : scanByte st b = some (m, st')) : st'.size = st.size + 1 := by
  unfold scanByte at h
  split at h
  · cases h; simp [LineState.size, LineState.push]; omega
  split at h
  · cases h; simp [LineState.size, LineState.push]; omega
  split at h
  · split at h
    · cases h; simp [LineState.size, LineState.skip]; omega
    · split at h
      · cases h
      · cases h; simp [LineState.size, LineState.push]; omega
  split at h
  · cases h; simp [LineState.size, LineState.push]; omega
  split at h
  · cases h; simp [LineState.size, LineState.push]; omega
  split at h
  · cases h; simp [LineState.size, LineState.skip]; omega
  · split at h
    · cases h
    · cases h; simp [LineState.size, LineState.push]; omega

theorem lineByte_size {s s' : LineMode × LineState} {b : UInt8} (h : lineByte s b = some s') :
    s'.2.size = s.2.size + 1 := by
  obtain ⟨m, st⟩ := s
  obtain ⟨m', st'⟩ := s'
  cases m <;> simp only [lineByte] at h
  case scan => exact scanByte_size h
  case escape => cases h; simp [LineState.size, LineState.push]; omega
  case skipSpaces =>
    split at h
    · cases h; simp [LineState.size, LineState.skip]; omega
    · exact scanByte_size h
  case escapeEol =>
    split at h
    · cases h; simp [LineState.size, LineState.push]; omega
    · exact scanByte_size h
  case comment =>
    split at h
    · exact scanByte_size h
    · cases h; simp [LineState.size, LineState.skip]; omega

/-- A line takes bytes from the data and loses none. -/
theorem readLoop_size : ∀ (data : Bytes) (s : LineMode × LineState),
    (readLoop s data).1.size + (readLoop s data).2.length = s.2.size + data.length
  | [], s => rfl
  | b :: rest, s => by
    rw [readLoop]
    split
    · rename_i s' hs
      rw [readLoop_size rest s', lineByte_size hs, List.length_cons]
      omega
    · rfl

/-- The lines `readIniLine` yields from `dataPos` on, and what it has skipped
when it returns false. -/
def iniLines (data : Bytes) : List LineState × Bytes :=
  let r := readIniLine data
  if _h : r.1.line = [] then ([], r.1.skipped)
  else
    let ls := iniLines r.2
    (r.1 :: ls.1, ls.2)
  termination_by data.length
  decreasing_by
    have := readLoop_size data (.skipSpaces, ⟨[], [], none, false⟩)
    have hl : 0 < (readIniLine data).1.line.length := List.length_pos_of_ne_nil _h
    simp only [LineState.size, List.length_nil, readIniLine] at this hl ⊢
    omega

/-! ## Reading -/

abbrev ParsedSettingsMap := OrdMap Str Any

abbrev UnparsedSettingsMap := OrdMap Str Bytes

/-- `latin1Lowercased`. -/
def latin1Lowercased (b : UInt8) : UInt8 :=
  if byte 'A' ≤ b ∧ b ≤ byte 'Z' then b + 32
  else if 0xC0 ≤ b ∧ b ≤ 0xDE ∧ b ≠ 0xD7 then b + 32
  else b

/-- `pdk::stricmp(a, b) == 0`, on C strings. -/
def stricmpEq (a b : Bytes) : Bool :=
  (a.takeWhile (· ≠ 0)).map latin1Lowercased == (b.takeWhile (· ≠ 0)).map latin1Lowercased

/-- `trimmed()`. -/
def trimmed (a : Bytes) : Bytes := (a.dropWhile isCSpace).rdropWhile isCSpace

/-- The variables of `readIniFile`; `section` is the data from
`currentSectionStart` on. -/
structure FileState where
  currentSection : Str
  sectionData : Bytes
  unparsedIniSections : UnparsedSettingsMap
  ok : Bool

/-- `FLUSH_CURRENT_SECTION()`, where `skipped` leads up to `lineStart`.
mirrors io/fs/Settings.cpp:1540-1549 -/
def FileState.flush (st : FileState) (skipped : Bytes) : FileState :=
  let sectionData := (st.unparsedIniSections.find st.currentSection).getD []
  { st with
    unparsedIniSections := st.unparsedIniSections.insert st.currentSection
      ((if sectionData = [] then [] else sectionData ++ [10]) ++ st.sectionData ++ skipped) }

/-- The name between the brackets of a section line. -/
def iniSectionName (line : Bytes) : Bytes :=
  trimmed (if byte ']' ∈ line then (line.drop 1).takeWhile (· ≠ byte ']') else line.drop 1)

/-- The `currentSection` of a section line. -/
def currentSectionOf (iniSection : Bytes) : Str :=
  if stricmpEq iniSection (lit "general") then []
  else if stricmpEq iniSection (lit "%general") then
    latin1 ((iniSection.takeWhile (· ≠ 0)).drop 1) ++ lit16 "/"
  else iniUnescapedKey iniSection ++ lit16 "/"

/-- The body of the loop of `readIniFile`. -/
def fileLine (st : FileState) (ln : LineState) : FileState :=
  if ln.line.head? = some (byte '[') then
    { st.flush ln.skipped with
      currentSection := currentSectionOf (iniSectionName ln.line)
      sectionData := []
      ok := st.ok && decide (byte ']' ∈ ln.line) }
  else { st with sectionData := st.sectionData ++ ln.skipped ++ ln.line }

/-- The unparsed sections and the result; `none` where a byte-order mark selects
a codec.
mirrors io/fs/Settings.cpp:1537-1603 -/
def readIniFile (data : Bytes) : Option (UnparsedSettingsMap × Bool) :=
  if [0xEF, 0xBB, 0xBF].isPrefixOf data then none
  else
    let lines := iniLines data
    let st := (lines.1.foldl fileLine ⟨[], [], .empty, true⟩).flush lines.2
    some (st.unparsedIniSections, st.ok)

/-- The value behind the equals sign. -/
def readValue (value : Bytes) : Any :=
  match iniUnescapedStringList value with
  | .string s => .item (stringToAny s)
  | .stringList l => stringListToAnyList l

/-- The body of the loop of `readIniSection`; `none` is a failed assertion. -/
def sectionLine (sectionKey : Str) (acc : ParsedSettingsMap × Bool) (ln : LineState) :
    Option (ParsedSettingsMap × Bool) :=
  if ln.line.head? = some (byte '[') then none
  else match ln.equalsPos with
    | none => some (acc.1, acc.2 && decide (ln.line.head? = some (byte ';')))
    | some equalsPos =>
      let key := (ln.line.take equalsPos).rdropWhile fun b => b == byte ' ' || b == 9
      some (acc.1.insert (sectionKey ++ iniUnescapedKey key)
        (readValue (ln.line.drop (equalsPos + 1))), acc.2)

/-- mirrors io/fs/Settings.cpp:1605-1656 -/
def readIniSection (sectionKey : Str) (data : Bytes) (settingsMap : ParsedSettingsMap) :
    Option (ParsedSettingsMap × Bool) :=
  (iniLines data).1.foldlM (sectionLine sectionKey) (settingsMap, true)

/-- The map, and whether every section parsed without a format error.
mirrors io/fs/Settings.cpp:1785-1796 -/
def ensureAllSectionsParsed (sections : UnparsedSettingsMap) : Option (ParsedSettingsMap × Bool) :=
  sections.entries.foldlM (fun acc e =>
    (readIniSection e.1 e.2 acc.1).map fun r => (r.1, acc.2 && r.2)) (.empty, true)

/-- Reading a file back: `readIniFile`, then `ensureAllSectionsParsed`; the flag
says that no format error was reported. -/
def readIni (data : Bytes) : Option (ParsedSettingsMap × Bool) := do
  let (sections, ok) ← readIniFile data
  let (settingsMap, parsed) ← ensureAllSectionsParsed sections
  return (settingsMap, ok && parsed)

/-! ## Writing -/

abbrev IniKeyMap := OrdMap Str Any

abbrev IniMap := OrdMap Str IniKeyMap

/-- The section and the key in it: `key` split at its first slash. -/
def splitKey (key : Str) : Str × Str :=
  if slash ∈ key then
    (key.takeWhile (· ≠ slash), (key.dropWhile (· ≠ slash)).drop 1)
  else ([], key)

/-- The body of the first loop of `writeIniFile`. -/
def addKey (iniMap : IniMap) (e : Str × Any) : IniMap :=
  let sk := splitKey e.1
  iniMap.insert sk.1 (((iniMap.find sk.1).getD .empty).insert sk.2 e.2)

/-- mirrors io/fs/Settings.cpp:1712-1726 -/
def iniMapOf (map : ParsedSettingsMap) : IniMap := map.entries.foldl addKey .empty

/-- The `sections` vector: resized, filled from the back, sorted.
mirrors io/fs/Settings.cpp:1728-1735 -/
def sectionsOf (iniMap : IniMap) : List Str :=
  (List.replicate iniMap.entries.length [] ++ iniMap.entries.map Prod.fst).insertionSort (fun a b : Str => a ≤ b)

/-- The line of a section, in brackets. -/
def realSection (name : Str) : Bytes :=
  let escaped := iniEscapedKey name
  if escaped = [] then lit "[General]"
  else if stricmpEq escaped (lit "general") then lit "[%General]"
  else lit "[" ++ escaped ++ lit "]"

/-- The bytes of a value; `none` is `std::bad_any_cast`, for a `StringList`.
mirrors io/fs/Settings.cpp:1763-1774 -/
def writeValue : Any → Option Bytes
  | .stringList _ => none
  | .anyList l =>
    some (if l.length ≠ 1 then iniEscapedStringList (anyListToStringList l)
      else iniEscapedString (lit16 "@std::any()"))
  | .item v => some (iniEscapedString (anyToString v))

def writeEntries : List (Str × Any) → Option Bytes
  | [] => some []
  | (key, value) :: rest => do
    let text ← writeValue value
    let rest ← writeEntries rest
    return iniEscapedKey key ++ [byte '='] ++ text ++ [10] ++ rest

/-- The loop over the sections; `none` is the assertion that a section is found. -/
def writeSections (iniMap : IniMap) : List Str → Bool → Option Bytes
  | [], _ => some []
  | name :: rest, first => do
    let ents ← iniMap.find name
    let block ← writeEntries ents.entries
    let rest ← writeSections iniMap rest false
    return (if first then [] else [10]) ++ realSection name ++ [10] ++ block ++ rest

/-- mirrors io/fs/Settings.cpp:1702-1781 -/
def writeIniFile (map : ParsedSettingsMap) : Option Bytes :=
  let iniMap := iniMapOf map
  writeSections iniMap ((sectionsOf iniMap).take iniMap.entries.length) true

/-- What is read back from the file written for `map`. -/
def readBack (map : ParsedSettingsMap) : Option (ParsedSettingsMap × Bool) := do
  let data ← writeIniFile map
  readIni data

end Libpdk.Settings

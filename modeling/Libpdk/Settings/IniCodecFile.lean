import Libpdk.Settings.IniCodec
import Libpdk.Settings.IniParsed

/-!
# INI files with a codec

`readIniFile`, `readIniSection` and `ensureAllSectionsParsed` with `m_iniCodec`, which a
UTF-8 byte-order mark sets. They are those of a release build: `PDK_ASSERT` is compiled
out, and a line that begins with a bracket would be read as any other one.
-/
namespace Libpdk.Settings

open Codecs

def byteOrderMark : Bytes := [0xEF, 0xBB, 0xBF]

/-- `none` is a null pointer to a codec. -/
def readValueCodec : Option Codec → Bytes → Any
  | none, value => readValue value
  | some codec, value =>
    match iniUnescapedStringListCodec codec value with
    | .string s => .item (stringToAny s)
    | .stringList l => stringListToAnyList l

/-- The key and the value of a line that has an equals sign. -/
def lineEntry (codec : Option Codec) (sectionKey : Str) (ln : LineState) : Option (Str × Any) :=
  ln.equalsPos.map fun equalsPos =>
    (sectionKey ++ iniUnescapedKey (keyOf ln.line equalsPos),
      readValueCodec codec (ln.line.drop (equalsPos + 1)))

/-- The body of the loop of `readIniSection`. -/
def sectionLineCodec (codec : Option Codec) (sectionKey : Str) (acc : ParsedSettingsMap × Bool)
    (ln : LineState) : ParsedSettingsMap × Bool :=
  match lineEntry codec sectionKey ln with
  | none => (acc.1, acc.2 && decide (ln.line.head? = some (byte ';')))
  | some e => (acc.1.insert e.1 e.2, acc.2)

/-- mirrors io/fs/Settings.cpp:1605-1656 -/
def readIniSectionCodec (codec : Option Codec) (sectionKey : Str) (data : Bytes)
    (settingsMap : ParsedSettingsMap) : ParsedSettingsMap × Bool :=
  (iniLines data).1.foldl (sectionLineCodec codec sectionKey) (settingsMap, true)

/-- The unparsed sections, the result, and `m_iniCodec`. Behind a mark the first section
still begins at the first byte: `currentSectionStart` is 0.
mirrors io/fs/Settings.cpp:1537-1603 -/
def readIniFileCodec [Build] (codec : Option Codec) (data : Bytes) :
    UnparsedSettingsMap × Bool × Option Codec :=
  let mark := if byteOrderMark.isPrefixOf data then byteOrderMark else []
  let lines := iniLines (data.drop mark.length)
  let st := (lines.1.foldl fileLine ⟨[], mark, .empty, true⟩).flush lines.2
  (st.unparsedIniSections, st.ok, if mark = [] then codec else some utf8Codec)

/-- All the sections, and what each of them results in.
mirrors io/fs/Settings.cpp:1785-1796 -/
def parseSections (codec : Option Codec) (sections : UnparsedSettingsMap) :
    ParsedSettingsMap × List (Str × Bool) :=
  sections.entries.foldl (fun acc e =>
    let r := readIniSectionCodec codec e.1 e.2 acc.1
    (r.1, acc.2 ++ [(e.1, r.2)])) (.empty, [])

/-- What a file reads as: the result of `readIniFile`, those of its sections, the keys. -/
structure IniReading where
  ok : Bool
  sectionOk : List (Str × Bool)
  keys : ParsedSettingsMap

def readIniCodec [Build] (codec : Option Codec) (data : Bytes) : IniReading :=
  let (sections, ok, codec) := readIniFileCodec codec data
  let r := parseSections codec sections
  ⟨ok, r.2, r.1⟩

/-! ## Without a codec -/

/-! ## What a section assigns -/

/-- The keys and values of a section, in the order in which they are assigned. -/
def sectionEntries (codec : Option Codec) (sectionKey : Str) (data : Bytes) : List (Str × Any) :=
  (iniLines data).1.filterMap (lineEntry codec sectionKey)

theorem foldl_sectionLineCodec (codec : Option Codec) (sectionKey : Str) :
    ∀ (lines : List LineState) (acc : ParsedSettingsMap × Bool),
      (∀ ln ∈ lines, ln.line.head? ≠ some (byte ';')) →
      lines.foldl (sectionLineCodec codec sectionKey) acc =
        (acc.1.insertAll (lines.filterMap (lineEntry codec sectionKey)),
          acc.2 && lines.all fun ln => ln.equalsPos.isSome)
  | [], acc, _ => by simp [OrdMap.insertAll]
  | ln :: lines, acc, h => by
    have ih := fun acc' => foldl_sectionLineCodec codec sectionKey lines acc'
      fun ln hln => h ln (List.mem_cons_of_mem _ hln)
    rw [List.foldl_cons, ih, List.filterMap_cons, List.all_cons]
    unfold sectionLineCodec
    cases he : ln.equalsPos with
    | none =>
      have hhead : decide (ln.line.head? = some (byte ';')) = false :=
        decide_eq_false (h ln List.mem_cons_self)
      simp only [lineEntry, he, Option.map_none, hhead, Bool.and_false, Bool.false_and,
        Option.isSome_none]
    | some equalsPos => simp [lineEntry, he]

/-- Reading a section inserts its entries; it is right if every line has an equals sign. -/
theorem readIniSectionCodec_eq (codec : Option Codec) (sectionKey : Str) (data : Bytes)
    (m : ParsedSettingsMap) :
    readIniSectionCodec codec sectionKey data m =
      (m.insertAll (sectionEntries codec sectionKey data),
        (iniLines data).1.all fun ln => ln.equalsPos.isSome) := by
  unfold readIniSectionCodec
  rw [foldl_sectionLineCodec codec sectionKey _ _
    fun ln hln => ((iniLines_covers data).lines ln hln).2, Bool.true_and]
  rfl

end Libpdk.Settings

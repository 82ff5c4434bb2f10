import Libpdk.Settings.IniLines
import Libpdk.Settings.IniRoundTrip

/-!
# The bytes of escaped values

`iniEscapedStringList` writes no raw line end, and no `;` and no `=` outside of quotes
(`outside`), whatever the strings contain; together with `iniUnescapedStringList_list` and
`iniUnescapedStringList_string` this is `iniStringLists_exact`.
-/
namespace Libpdk.Settings

/-! ## Bytes of a unit -/

/-- A byte of a value: no line end, and what would end the line is written as it is. -/
structure ValueByte (ch : UInt16) (b : UInt8) : Prop where
  noEol : b ≠ 10 ∧ b ≠ 13
  ends : b = byte ';' ∨ b = byte '=' → ch = b.toUInt16

theorem ValueByte.of_ordinary {ch : UInt16} {b : UInt8} (h : isSpecial b = false) :
    ValueByte ch b := by
  simp only [isSpecial, Bool.or_eq_false_iff, beq_eq_false_iff_ne, ne_eq] at h
  obtain ⟨⟨⟨⟨⟨h10, h13⟩, -⟩, hsemi⟩, heq⟩, -⟩ := h
  exact ⟨⟨h10, h13⟩, fun he => he.elim (fun he => absurd he hsemi) (fun he => absurd he heq)⟩

theorem ValueByte.backslash (ch : UInt16) : ValueByte ch 0x5C :=
  ⟨by decide, fun h => absurd h (by decide)⟩

theorem number16_ordinary {n : Nat} {b : UInt8} (h : b ∈ number16 n) : isSpecial b = false :=
  hexValue_ordinary (ulltoa2_hex 64 n b h)

theorem hexEscape_byte (ch : UInt16) {n : Nat} {b : UInt8}
    (h : b ∈ (0x5C : UInt8) :: byte 'x' :: number16 n) : ValueByte ch b := by
  rw [List.mem_cons, List.mem_cons] at h
  rcases h with rfl | rfl | h
  · exact .backslash ch
  · exact .of_ordinary (by decide)
  · exact .of_ordinary (number16_ordinary h)

theorem escapeLetter_byte {c ch : UInt16} {b : UInt8} (h : escapeLetter ch = some b) :
    ValueByte c b := by
  have hmem := List.mem_of_find?_eq_some (escapeLetter_find h)
  have hall : escapeCodes.all (fun p => p.1 != 10 && p.1 != 13 && p.1 != byte ';' &&
      p.1 != byte '=') = true := by decide
  have hb := List.all_eq_true.mp hall _ hmem
  simp only [Bool.and_eq_true, bne_iff_ne, ne_eq] at hb
  obtain ⟨⟨⟨h10, h13⟩, hsemi⟩, heq⟩ := hb
  exact ⟨⟨h10, h13⟩, fun he => he.elim (fun he => absurd he hsemi) (fun he => absurd he heq)⟩

theorem Plain.valueByte {ch : UInt16} (h : Plain ch) : ValueByte ch ch.toUInt8 := by
  have hlow : ∀ b : UInt8, b.toNat < 0x20 → ch.toUInt8 ≠ b := by
    rintro _ hb rfl
    rw [h.toNat] at hb
    exact absurd h.lower (by omega)
  exact ⟨⟨hlow 10 (by decide), hlow 13 (by decide)⟩, fun _ => h.toUInt16.symm⟩

theorem escapeUnit_byte {e : Bool} {ch : UInt16} {b : UInt8} (h : b ∈ (escapeUnit e ch).1) :
    ValueByte ch b := by
  unfold escapeUnit at h
  split at h
  · exact hexEscape_byte ch h
  split at h
  · rw [List.mem_cons, List.mem_singleton] at h
    rcases h with rfl | rfl
    · exact .backslash ch
    · exact .of_ordinary (by decide)
  split at h
  · rename_i b' hb'
    rw [List.mem_cons, List.mem_singleton] at h
    rcases h with rfl | rfl
    · exact .backslash ch
    · exact escapeLetter_byte hb'
  rename_i hletter
  split at h
  · exact hexEscape_byte ch h
  · rename_i hprint
    rw [List.mem_singleton] at h
    rw [h]
    exact (plain_of hletter hprint).valueByte

theorem escapeUnits_byte : ∀ (str : Str) {e : Bool} {b : UInt8}, b ∈ escapeUnits e str →
    ∃ ch ∈ str, ValueByte ch b
  | [], _, _, h => absurd h List.not_mem_nil
  | ch :: rest, e, b, h => by
    rw [escapeUnits, List.mem_append] at h
    rcases h with h | h
    · exact ⟨ch, List.mem_cons_self, escapeUnit_byte h⟩
    · obtain ⟨c, hc, hb⟩ := escapeUnits_byte rest h
      exact ⟨c, List.mem_cons_of_mem _ hc, hb⟩

theorem iniEscapedString_noEol {str : Str} {b : UInt8} (h : b ∈ iniEscapedString str) :
    b ≠ 10 ∧ b ≠ 13 := by
  have hbody : b ∈ escapeUnits false str → b ≠ 10 ∧ b ≠ 13 := fun h => by
    obtain ⟨_, -, hb⟩ := escapeUnits_byte str h
    exact hb.noEol
  unfold iniEscapedString at h
  simp only at h
  split at h
  · rw [List.mem_cons, List.mem_append, List.mem_singleton] at h
    rcases h with rfl | h | rfl
    · decide
    · exact hbody h
    · decide
  · exact hbody h

theorem iniEscapedStringList_noEol {strs : List Str} {b : UInt8}
    (h : b ∈ iniEscapedStringList strs) : b ≠ 10 ∧ b ≠ 13 := by
  cases strs with
  | nil =>
    have hall : (lit "@Invalid()").all (fun b => b != 10 && b != 13) = true := by decide
    have hb := List.all_eq_true.mp hall b h
    simpa using hb
  | cons str rest =>
    rw [iniEscapedStringList, List.mem_append, List.mem_flatMap] at h
    rcases h with h | ⟨str', -, h⟩
    · exact iniEscapedString_noEol h
    · rw [List.mem_append] at h
      rcases h with h | h
      · have hall : (lit ", ").all (fun b => b != 10 && b != 13) = true := by decide
        have hb := List.all_eq_true.mp hall b h
        simpa using hb
      · exact iniEscapedString_noEol h

/-! ## Quotes -/

/-- The bytes outside of quotes, where a byte behind a backslash is no quote. -/
def outside : (escaped : Bool) → (quoted : Bool) → Bytes → Bytes
  | _, _, [] => []
  | true, quoted, b :: rest => (if quoted then [] else [b]) ++ outside false quoted rest
  | false, quoted, b :: rest =>
    if b = 0x22 then outside false (!quoted) rest
    else (if quoted then [] else [b]) ++ outside (b == 0x5C) quoted rest

/-- Bytes that begin and end on the same side of the quotes. -/
def OneSide (v : Bytes) : Prop := ∀ (quoted : Bool) (rest : Bytes),
  outside false quoted (v ++ rest) = (if quoted then [] else v) ++ outside false quoted rest

theorem OneSide.nil : OneSide [] := fun quoted rest => by
  cases quoted <;> rfl

theorem OneSide.append {v w : Bytes} (hv : OneSide v) (hw : OneSide w) : OneSide (v ++ w) := by
  intro quoted rest
  rw [List.append_assoc, hv quoted (w ++ rest), hw quoted rest]
  cases quoted
  · simp only [Bool.false_eq_true, if_false, List.append_assoc]
  · rfl

theorem OneSide.single {b : UInt8} (hq : b ≠ 0x22) (hb : b ≠ 0x5C) : OneSide [b] := by
  intro quoted rest
  rw [List.singleton_append, outside, if_neg hq, beq_false_of_ne hb]

theorem OneSide.escape (b : UInt8) : OneSide [0x5C, b] := by
  intro quoted rest
  have hfirst : ((0x5C : UInt8) == 0x5C) = true := rfl
  show outside false quoted (0x5C :: b :: rest) = _
  rw [outside, if_neg (by decide), hfirst, outside]
  cases quoted <;> rfl

theorem OneSide.ordinary : ∀ {v : Bytes}, (∀ b ∈ v, isSpecial b = false) → OneSide v
  | [], _ => .nil
  | b :: v, h => by
    have hb := h b List.mem_cons_self
    simp only [isSpecial, Bool.or_eq_false_iff, beq_eq_false_iff_ne, ne_eq] at hb
    exact (OneSide.single hb.1.1.1.2 hb.2).append
      (OneSide.ordinary fun b' hb' => h b' (List.mem_cons_of_mem _ hb'))

theorem OneSide.hexEscape (n : Nat) : OneSide (0x5C :: byte 'x' :: number16 n) :=
  (OneSide.escape _).append (OneSide.ordinary fun _ => number16_ordinary)

theorem escapeUnit_oneSide (e : Bool) (ch : UInt16) : OneSide (escapeUnit e ch).1 := by
  unfold escapeUnit
  split
  · exact .hexEscape _
  split
  · exact .escape _
  split
  · exact .escape _
  rename_i hletter
  split
  · exact .hexEscape _
  · rename_i hprint
    have hplain := plain_of hletter hprint
    exact .single (hplain.ne (b := 0x22) hplain.quote) (hplain.ne (b := 0x5C) hplain.backslash)

theorem escapeUnits_oneSide : ∀ (e : Bool) (str : Str), OneSide (escapeUnits e str)
  | _, [] => .nil
  | e, ch :: rest => (escapeUnit_oneSide e ch).append (escapeUnits_oneSide _ rest)

/-- Nothing in `v` outside of quotes ends the line, and the quotes are closed at its end. -/
def Closed (v : Bytes) : Prop :=
  ∃ w, (∀ b ∈ w, b ≠ byte ';' ∧ b ≠ byte '=') ∧
    ∀ rest, outside false false (v ++ rest) = w ++ outside false false rest

theorem Closed.append {v w : Bytes} (hv : Closed v) (hw : Closed w) : Closed (v ++ w) := by
  obtain ⟨v', hv', hvo⟩ := hv
  obtain ⟨w', hw', hwo⟩ := hw
  refine ⟨v' ++ w', fun b hb => ?_, fun rest => ?_⟩
  · exact (List.mem_append.mp hb).elim (hv' b) (hw' b)
  · rw [List.append_assoc, hvo, hwo, List.append_assoc]

theorem Closed.of_oneSide {v : Bytes} (h : OneSide v)
    (hv : ∀ b ∈ v, b ≠ byte ';' ∧ b ≠ byte '=') : Closed v :=
  ⟨v, hv, fun rest => h false rest⟩

theorem Closed.ordinary {v : Bytes} (h : ∀ b ∈ v, isSpecial b = false) : Closed v := by
  refine .of_oneSide (.ordinary h) fun b hb => ?_
  have hb := h b hb
  simp only [isSpecial, Bool.or_eq_false_iff, beq_eq_false_iff_ne, ne_eq] at hb
  exact ⟨hb.1.1.2, hb.1.2⟩

/-- Between quotes there may be anything. -/
theorem Closed.quoted {v : Bytes} (h : OneSide v) : Closed (0x22 :: (v ++ [0x22])) := by
  refine ⟨[], fun b hb => absurd hb List.not_mem_nil, fun rest => ?_⟩
  show outside false false (0x22 :: ((v ++ [0x22]) ++ rest)) = _
  rw [outside, if_pos rfl, List.append_assoc, h]
  show outside false true (0x22 :: rest) = _
  rw [outside, if_pos rfl]
  rfl

theorem Closed.string (str : Str) : Closed (iniEscapedString str) := by
  have hbody := escapeUnits_oneSide false str
  unfold iniEscapedString
  simp only
  split
  · exact .quoted hbody
  · rename_i hneeds
    simp only [Bool.or_eq_true, not_or, Bool.not_eq_true] at hneeds
    obtain ⟨-, hsemi, heq⟩ := not_needsQuotes hneeds.1.1
    refine .of_oneSide hbody fun b hb => ?_
    obtain ⟨ch, hch, hbyte⟩ := escapeUnits_byte str hb
    constructor
    · rintro rfl
      rw [hbyte.ends (.inl rfl)] at hch
      exact hsemi hch
    · rintro rfl
      rw [hbyte.ends (.inr rfl)] at hch
      exact heq hch

theorem Closed.rest : ∀ strs : List Str,
    Closed (strs.flatMap fun s => lit ", " ++ iniEscapedString s)
  | [] => .ordinary fun _ h => absurd h List.not_mem_nil
  | str :: strs => by
    rw [List.flatMap_cons]
    exact (Closed.append (.ordinary (ordinary_of_all (by decide))) (.string str)).append
      (Closed.rest strs)

theorem Closed.list : ∀ strs : List Str, Closed (iniEscapedStringList strs)
  | [] => .ordinary (ordinary_of_all (by decide))
  | str :: strs => (Closed.string str).append (.rest strs)

theorem Closed.noEnd {v : Bytes} (h : Closed v) :
    ∀ b ∈ outside false false v, b ≠ byte ';' ∧ b ≠ byte '=' := by
  obtain ⟨w, hw, hwo⟩ := h
  have hv := hwo []
  rw [List.append_nil, outside, List.append_nil] at hv
  rw [hv]
  exact hw

/-- Strings of any units come back: a list of two or more of them as that list, a single one as a
string. Their bytes contain no line end, and outside of quotes nothing that ends a value. -/
theorem iniStringLists_exact :
    (∀ strs : List Str, 2 ≤ strs.length →
      iniUnescapedStringList (iniEscapedStringList strs) = .stringList strs) ∧
    (∀ str : Str, iniUnescapedStringList (iniEscapedStringList [str]) = .string str) ∧
    ∀ strs : List Str,
      (∀ b ∈ iniEscapedStringList strs, b ≠ 10 ∧ b ≠ 13) ∧
      ∀ b ∈ outside false false (iniEscapedStringList strs), b ≠ byte ';' ∧ b ≠ byte '=' := by
  refine ⟨fun strs h => iniUnescapedStringList_list h, fun str => ?_, fun strs =>
    ⟨fun b => iniEscapedStringList_noEol, (Closed.list strs).noEnd⟩⟩
  have hone : iniEscapedStringList [str] = iniEscapedString str := by
    rw [iniEscapedStringList, List.flatMap_nil, List.append_nil]
  rw [hone]
  exact iniUnescapedStringList_string str

theorem iniStringLists_nul :
    iniUnescapedStringList (iniEscapedStringList [[0, unit 'a'], [unit ';', unit ' ']]) =
      .stringList [[0, unit 'a'], [unit ';', unit ' ']] :=
  iniStringLists_exact.1 [[0, unit 'a'], [unit ';', unit ' ']] (by decide)

/-!
## Values as strings

`anyToString` and `anyListToStringList` on all the values that `Settings` stores as strings. For a
number `std::any_cast<String>` throws, as the value holds no `String`. A list is resized before its
strings are pushed, so it comes back twice as long.
-/

/-- A number, by its type. -/
inductive Number where
  | bool (b : Bool)
  | int (n : Int32)
  | uint (n : UInt32)
  | plonglong (n : Int64)
  | pulonglong (n : UInt64)
  deriving DecidableEq

/-- A `std::any` that is no list. -/
inductive Value where
  | item (v : Item)
  | number (n : Number)
  deriving DecidableEq

def Number.toInt : Number → Int
  | .bool b => if b then 1 else 0
  | .int n => n.toInt
  | .uint n => n.toNat
  | .plonglong n => n.toInt
  | .pulonglong n => n.toNat

def Number.decimalText (n : Number) : Str := lit16 (toString n.toInt)

namespace Value

/-- `std::any_cast<String>`; `none` is `std::bad_any_cast`. -/
@[grind =] def castString : Value → Option Str
  | .item (.string s) => some s
  | _ => none

/-- `anyToString`; the branch of a string is the one of the numbers, too.
mirrors io/fs/Settings.cpp:376-429 -/
@[grind =] def anyToString : Value → Option Str
  | .item .empty => some (Settings.anyToString .empty)
  | .item (.byteArray a) => some (Settings.anyToString (.byteArray a))
  | v => do
    let result ← v.castString
    some (Settings.anyToString (.string result))

/-- mirrors io/fs/Settings.cpp:343-352 -/
def anyListToStringList (list : List Value) : Option (List Str) :=
  (list.mapM anyToString).map fun strings => List.replicate list.length [] ++ strings

/-- What is read back for a value: the value, or the decimal text of a number. -/
@[grind =] def readAs : Value → Item
  | .item v => v
  | .number n => .string n.decimalText

/-- The elements of what `stringListToAnyList` returns. -/
@[grind =] def elements : Any → List Item
  | .item v => [v]
  | .anyList l => l
  | .stringList l => l.map .string

/-- A value is what its string is read as. -/
def Survives (v : Value) : Prop := ∃ s, v.anyToString = some s ∧ stringToAny s = v.readAs

/-- So is each element of a list. -/
def ListSurvives (l : List Value) : Prop :=
  ∃ s, anyListToStringList l = some s ∧ elements (stringListToAnyList s) = l.map readAs

theorem survives_iff (v : Value) : v.Survives ↔ ∃ i, v = .item i := by
  constructor
  · rintro ⟨s, hs, -⟩
    cases v with
    | item i => exact ⟨i, rfl⟩
    | number n => cases hs
  · rintro ⟨i, rfl⟩
    refine ⟨Settings.anyToString i, ?_, stringToAny_anyToString i⟩
    cases i <;> rfl

theorem length_elements (l : List Str) :
    l.length ≤ (elements (stringListToAnyList l)).length := by
  rw [stringListToAnyList]
  split
  · next out hout => rw [elements, List.length_map, outStringList_length hout]
  · rw [elements, List.length_append, List.length_replicate, List.length_map]
    exact Nat.le_add_right _ _

theorem length_mapM {α β : Type} {f : α → Option β} : ∀ {l : List α} {m : List β},
    l.mapM f = some m → m.length = l.length
  | [], m, h => by
    cases h
    rfl
  | a :: l, m, h => by
    rw [List.mapM_cons] at h
    obtain ⟨b, -, h⟩ := Option.bind_eq_some_iff.mp h
    obtain ⟨m', hm', h⟩ := Option.bind_eq_some_iff.mp h
    cases h
    rw [List.length_cons, List.length_cons, length_mapM hm']

/-- A list comes back longer, if it has a string at all. -/
theorem not_listSurvives {l : List Value} (h : l ≠ []) : ¬ListSurvives l := by
  rintro ⟨s, hs, heq⟩
  obtain ⟨strings, hstrings, rfl⟩ := Option.map_eq_some_iff.mp hs
  have hpos := List.length_pos_of_ne_nil h
  have hle := length_elements (List.replicate l.length [] ++ strings)
  rw [heq, List.length_map, List.length_append, List.length_replicate,
    length_mapM hstrings] at hle
  omega

/-- Values survive as strings unless they are numbers; lists of two or more do not. -/
theorem anyStrings_iff (v : Value) (l : List Value) :
    (v.Survives ∧ (2 ≤ l.length → ListSurvives l)) ↔ (∃ i, v = .item i) ∧ l.length < 2 := by
  rw [survives_iff]
  refine and_congr_right fun _ => ⟨fun h => ?_, fun h hlen => by omega⟩
  by_contra hlen
  refine not_listSurvives ?_ (h (by omega))
  rintro rfl
  exact hlen (by decide)

/-- A list of two strings comes back as four, and an `int` has no string. -/
theorem anyStrings_lost :
    (Value.number (.int 5)).anyToString = none ∧
      (anyListToStringList [.item (.string (lit16 "a")), .item (.string (lit16 "b"))]).map
        stringListToAnyList = some (.stringList [[], [], lit16 "a", lit16 "b"]) ∧
      ¬ListSurvives [.item (.string (lit16 "a")), .item (.string (lit16 "b"))] :=
  ⟨rfl, by decide, not_listSurvives (by simp)⟩

end Value

end Libpdk.Settings

import Libpdk.Settings.IniLines

/-!
# What an INI file keeps

`readBack_eq` says, for every settings map, what is read back from the file
`writeIniFile` writes for it: nothing can be written when no key is without a
slash (the assertion that a section is found fails), and otherwise exactly the
keys without a slash come back. The vector of section names is resized to the
number of sections before the names are pushed to its back, so the loop over
that many of its sorted entries meets only empty names: it writes the general
section, once for each section there is, and no other.

Strings, byte arrays and empty values come back as they were; a list does not,
since both list conversions also resize first and push after.
-/
namespace Libpdk.Settings

/-! ## Items -/

theorem getLast_paren (s : Str) : (s ++ lit16 ")").getLast? = some (unit ')') := by
  rw [List.getLast?_append]
  rfl

/-- The text between a prefix and the closing parenthesis. -/
theorem between_parens (p s : Str) : ((p ++ s ++ lit16 ")").drop p.length).take
    ((p ++ s ++ lit16 ")").length - (p.length + 1)) = s := by
  rw [List.append_assoc, List.drop_left]
  refine List.take_left' ?_
  simp [lit16]
  omega

theorem stringToAny_empty : stringToAny (anyToString .empty) = .empty := by decide

theorem stringToAny_byteArray (a : Bytes) :
    stringToAny (anyToString (.byteArray a)) = .byteArray a := by
  have hp : (lit16 "@ByteArray(").isPrefixOf (lit16 "@ByteArray(" ++ latin1 a ++ lit16 ")") := by
    rw [List.isPrefixOf_iff_prefix, List.append_assoc]
    exact List.prefix_append _ _
  have hcut := between_parens (lit16 "@ByteArray(") (latin1 a)
  rw [show (lit16 "@ByteArray(").length = 11 by decide] at hcut
  have hhead : (lit16 "@ByteArray(" ++ latin1 a ++ lit16 ")").head? = some (unit '@') := rfl
  show stringToAny (lit16 "@ByteArray(" ++ latin1 a ++ lit16 ")") = _
  unfold stringToAny
  rw [if_pos hhead, if_pos (getLast_paren _), if_pos hp, hcut, toLatin1_latin1]

/-- A string with a NUL, in `@String(..)`. -/
theorem stringToAny_nul (s : Str) : stringToAny (lit16 "@String(" ++ s ++ lit16 ")") = .string s := by
  have hb : ¬ (lit16 "@ByteArray(").isPrefixOf (lit16 "@String(" ++ s ++ lit16 ")") := by
    simp [lit16, List.isPrefixOf]
  have hp : (lit16 "@String(").isPrefixOf (lit16 "@String(" ++ s ++ lit16 ")") := by
    rw [List.isPrefixOf_iff_prefix, List.append_assoc]
    exact List.prefix_append _ _
  have hcut := between_parens (lit16 "@String(") s
  rw [show (lit16 "@String(").length = 8 by decide] at hcut
  have hhead : (lit16 "@String(" ++ s ++ lit16 ")").head? = some (unit '@') := rfl
  unfold stringToAny
  rw [if_pos hhead, if_pos (getLast_paren _), if_neg hb, if_pos hp, hcut]

/-- A string that starts with `@`, with another one in front. -/
theorem stringToAny_at {s : Str} (h : s.head? = some (unit '@')) :
    stringToAny (unit '@' :: s) = .string s := by
  obtain ⟨c, s, rfl⟩ := List.exists_cons_of_ne_nil (l := s) (by rintro rfl; simp at h)
  simp only [List.head?_cons, Option.some.injEq] at h
  subst h
  have hrest : stringToAnyRest (unit '@' :: unit '@' :: s) = .string (unit '@' :: s) := by
    simp [stringToAnyRest, lit16, List.isPrefixOf]
  have h1 : ¬ (lit16 "@ByteArray(").isPrefixOf (unit '@' :: unit '@' :: s) := by
    simp [lit16, List.isPrefixOf]
  have h2 : ¬ (lit16 "@String(").isPrefixOf (unit '@' :: unit '@' :: s) := by
    simp [lit16, List.isPrefixOf]
  have h3 : ¬ ((lit16 "@Variant(").isPrefixOf (unit '@' :: unit '@' :: s) ∨
      (lit16 "@DateTime(").isPrefixOf (unit '@' :: unit '@' :: s)) := by
    simp [lit16, List.isPrefixOf]
  have h4 : unit '@' :: unit '@' :: s ≠ lit16 "@Invalid()" := by simp [lit16]
  unfold stringToAny
  rw [if_neg h1, if_neg h2, if_neg h3, if_neg h4, hrest]
  split
  · split <;> rfl
  · rename_i hn
    exact absurd rfl hn

theorem stringToAny_anyToString (v : Item) : stringToAny (anyToString v) = v := by
  cases v with
  | empty => exact stringToAny_empty
  | byteArray a => exact stringToAny_byteArray a
  | string s =>
    simp only [anyToString]
    split
    · exact stringToAny_nul s
    · split
      · exact stringToAny_at ‹_›
      · rename_i hn
        unfold stringToAny
        rw [if_neg hn]

/-! ## Values -/

/-- The values the file format is for: items, and lists of strings whose
length is not 1. -/
def Storable : Any → Prop
  | .item _ => True
  | .anyList l => (∀ v ∈ l, ∃ s, v = .string s) ∧ l.length ≠ 1
  | .stringList _ => False

/-- What the written value is read as. -/
def readBackValue (v : Any) : Any := readValue ((writeValue v).getD [])

theorem readBackValue_item (v : Item) : readBackValue (.item v) = .item v := by
  simp [readBackValue, writeValue, readValue, iniUnescapedStringList_string,
    stringToAny_anyToString]

theorem readBackValue_nil : readBackValue (.anyList []) = .item .empty := by
  have h : iniEscapedStringList (anyListToStringList []) =
      iniEscapedString (lit16 "@Invalid()") := by decide
  simp only [readBackValue, writeValue, List.length_nil]
  rw [if_pos (by decide), Option.getD_some, h, readValue, iniUnescapedStringList_string]
  decide

theorem outStringList_length : ∀ {list out : List Str}, outStringList list = some out →
    out.length = list.length
  | [], out, h => by cases h; rfl
  | str :: rest, out, h => by
    rw [outStringList] at h
    split at h
    · split at h
      · obtain ⟨out', h', rfl⟩ := Option.map_eq_some_iff.mp h
        simp [outStringList_length h']
      · cases h
    · obtain ⟨out', h', rfl⟩ := Option.map_eq_some_iff.mp h
      simp [outStringList_length h']

def anyLength : Any → Nat
  | .item _ => 0
  | .anyList l => l.length
  | .stringList l => l.length

/-- A list of two or more comes back as a longer list. -/
theorem readBackValue_list {l : List Item} (h : 2 ≤ l.length) :
    l.length < anyLength (readBackValue (.anyList l)) := by
  have hlen : (anyListToStringList l).length = 2 * l.length := by
    simp [anyListToStringList]
    omega
  have hw : readBackValue (.anyList l) = stringListToAnyList (anyListToStringList l) := by
    simp only [readBackValue, writeValue]
    rw [if_pos (by omega), Option.getD_some, readValue,
      iniUnescapedStringList_list (by omega)]
  rw [hw]
  unfold stringListToAnyList
  split
  · rename_i out hout
    simp only [anyLength, outStringList_length hout, hlen]
    omega
  · simp only [anyLength, List.length_append, List.length_replicate, List.length_map, hlen]
    omega

/-! ## Writing -/

/-- A key of the general section. -/
def isGeneral (key : Str) : Bool := decide (slash ∉ key)

/-- The part of a map without slashes in its keys. -/
def general (m : ParsedSettingsMap) : ParsedSettingsMap := m.filter isGeneral

/-- A normalised key: not empty, no slash at either end, no two slashes in a row. -/
structure Normalised (key : Str) : Prop where
  nonempty : key ≠ []
  leading : key.head? ≠ some (slash)
  trailing : key.getLast? ≠ some (slash)
  doubled : ¬ [slash, slash] <:+: key

theorem splitKey_general {key : Str} (h : isGeneral key = true) : splitKey key = ([], key) :=
  if_neg (of_decide_eq_true h)

theorem splitKey_slash {key : Str} (h : isGeneral key = false) (h0 : key.head? ≠ some slash) :
    (splitKey key).1 ≠ [] := by
  have h : slash ∈ key := by simpa [isGeneral] using h
  obtain ⟨c, key, rfl⟩ := List.exists_cons_of_ne_nil (List.ne_nil_of_mem h)
  simp only [List.head?_cons, ne_eq, Option.some.injEq] at h0
  rw [splitKey, if_pos h]
  simp [h0]

theorem find_addKey (M : IniMap) {e : Str × Any} (h0 : e.1.head? ≠ some slash) :
    (addKey M e).find [] = if isGeneral e.1
      then some (((M.find []).getD .empty).insert e.1 e.2) else M.find [] := by
  unfold addKey
  simp only
  rw [OrdMap.find_insert]
  by_cases hg : isGeneral e.1 = true
  · rw [splitKey_general hg, if_pos rfl, if_pos hg]
  · rw [if_neg fun hs => splitKey_slash (by simpa using hg) h0 hs, if_neg hg]

/-- The general section of the map of sections. -/
theorem find_foldl_addKey : ∀ (l : List (Str × Any)) (M : IniMap),
    (∀ e ∈ l, e.1.head? ≠ some slash) → (l.foldl addKey M).find [] =
      if l.filter (fun e => isGeneral e.1) = [] then M.find []
      else some (((M.find []).getD .empty).insertAll (l.filter fun e => isGeneral e.1))
  | [], M, _ => rfl
  | e :: l, M, h => by
    have ih := find_foldl_addKey l (addKey M e) fun e' he' => h e' (List.mem_cons_of_mem _ he')
    rw [List.foldl_cons, ih, find_addKey M (h e List.mem_cons_self)]
    by_cases hg : isGeneral e.1 = true
    · simp only [hg, if_true, Option.getD_some, List.filter_cons_of_pos, reduceCtorEq, if_false,
        OrdMap.insertAll_cons]
      split
      · rename_i hn
        rw [hn]
        rfl
      · rfl
    · simp only [hg, if_false, Bool.false_eq_true, not_false_eq_true, List.filter_cons_of_neg]

theorem find_iniMapOf {m : ParsedSettingsMap} (h : ∀ e ∈ m.entries, Normalised e.1) :
    (iniMapOf m).find [] = if (general m).entries = [] then none else some (general m) := by
  rw [iniMapOf, find_foldl_addKey m.entries .empty fun e he => (h e he).leading]
  have hg : (OrdMap.empty : OrdMap Str Any).insertAll (general m).entries = general m :=
    OrdMap.insertAll_entries fun e => Iff.rfl
  show (if (general m).entries = [] then none
    else some ((OrdMap.empty : OrdMap Str Any).insertAll (general m).entries)) = _
  rw [hg]

theorem insert_entries_ne_nil {K V : Type} [LinearOrder K] (k : K) (v : V) (l : List (K × V)) :
    Assoc.insert k v l ≠ [] := by
  cases l with
  | nil => simp [Assoc.insert]
  | cons e l =>
    simp only [Assoc.insert]
    split
    · simp
    · split <;> simp

theorem foldl_addKey_ne_nil : ∀ (l : List (Str × Any)) (M : IniMap), l ≠ [] ∨ M.entries ≠ [] →
    (l.foldl addKey M).entries ≠ []
  | [], M, h => h.resolve_left (by simp)
  | e :: l, M, _ => foldl_addKey_ne_nil l _ (.inr (insert_entries_ne_nil _ _ _))

theorem insertionSort_replicate (n : Nat) (names : List Str) :
    (List.replicate n [] ++ names).insertionSort (fun a b : Str => a ≤ b) =
      List.replicate n [] ++ names.insertionSort (fun a b : Str => a ≤ b) := by
  induction n with
  | zero => rfl
  | succ n ih =>
    rw [List.replicate_succ, List.cons_append, List.insertionSort_cons, ih, List.cons_append]
    cases List.replicate n [] ++ names.insertionSort (fun a b : Str => a ≤ b) with
    | nil => rfl
    | cons a l => exact List.orderedInsert_cons_of_le _ _ (not_lt.mp fun h => nomatch h)

/-- The loop over the sections only meets the empty names the vector was resized with. -/
theorem sections_empty (M : IniMap) :
    (sectionsOf M).take M.entries.length = List.replicate M.entries.length [] := by
  rw [sectionsOf, insertionSort_replicate]
  exact List.take_left' (by simp)

/-- The bytes of a value. -/
def valueText (v : Any) : Bytes := (writeValue v).getD []

def block (l : List (Str × Any)) : Bytes :=
  l.flatMap fun e => entryLine e.1 (valueText e.2) ++ [10]

theorem writeValue_of_storable {v : Any} (h : Storable v) : writeValue v = some (valueText v) := by
  cases v with
  | item v => rfl
  | anyList l => rfl
  | stringList l => exact h.elim

theorem safe_valueText {v : Any} (h : Storable v) : Safe (valueText v) :=
  safe_writeValue (writeValue_of_storable h)

theorem writeEntries_block : ∀ (l : List (Str × Any)), (∀ e ∈ l, Storable e.2) →
    writeEntries l = some (block l)
  | [], _ => rfl
  | (key, value) :: l, h => by
    have ih := writeEntries_block l fun e he => h e (List.mem_cons_of_mem _ he)
    have hv := writeValue_of_storable (h _ List.mem_cons_self)
    simp only [writeEntries, hv, ih, block, entryLine, List.flatMap_cons]
    rfl

/-- One general section, as written. -/
def sectionText (l : List (Str × Any)) : Bytes := lit "[General]" ++ [10] ++ block l

/-- The general section `n + 1` times, an empty line between two of them. -/
def copies (l : List (Str × Any)) : Nat → Bytes
  | 0 => sectionText l
  | n + 1 => copies l n ++ ([10] ++ sectionText l)

theorem writeSections_rest {M : IniMap} {ents : IniKeyMap} (hM : M.find [] = some ents)
    (hs : ∀ e ∈ ents.entries, Storable e.2) : ∀ n, writeSections M (List.replicate n []) false =
      some (List.replicate n ([10] ++ sectionText ents.entries)).flatten
  | 0 => rfl
  | n + 1 => by
    have hg : realSection [] = lit "[General]" := by decide
    simp only [List.replicate_succ, writeSections, hM, writeSections_rest hM hs n, hg, sectionText,
      List.flatten_cons]
    simp [writeEntries_block _ hs]

theorem copies_eq (l : List (Str × Any)) : ∀ n,
    copies l n = sectionText l ++ (List.replicate n ([10] ++ sectionText l)).flatten
  | 0 => by simp [copies]
  | n + 1 => by
    rw [copies, copies_eq l n, List.replicate_succ', List.flatten_append]
    simp

theorem writeSections_general {M : IniMap} {ents : IniKeyMap} (hM : M.find [] = some ents)
    (hs : ∀ e ∈ ents.entries, Storable e.2) (n : Nat) :
    writeSections M (List.replicate (n + 1) []) true = some (copies ents.entries n) := by
  have hg : realSection [] = lit "[General]" := by decide
  simp only [List.replicate_succ, writeSections, hM, writeSections_rest hM hs n, hg, copies_eq,
    sectionText]
  simp [writeEntries_block _ hs]

/-- What is written for a map: its general section some number of times. -/
theorem writeIniFile_eq {m : ParsedSettingsMap}
    (h : ∀ e ∈ m.entries, Normalised e.1 ∧ Storable e.2) (hne : m.entries ≠ []) :
    ((general m).entries = [] ∧ writeIniFile m = none) ∨
      ((general m).entries ≠ [] ∧ ∃ n, writeIniFile m = some (copies (general m).entries n)) := by
  have hfind := find_iniMapOf fun e he => (h e he).1
  obtain ⟨n, hn⟩ : ∃ n, (iniMapOf m).entries.length = n + 1 :=
    Nat.exists_eq_succ_of_ne_zero fun h0 =>
      foldl_addKey_ne_nil _ _ (.inl hne) (List.length_eq_zero_iff.mp h0)
  unfold writeIniFile
  simp only
  rw [sections_empty, hn]
  by_cases hg : (general m).entries = []
  · rw [if_pos hg] at hfind
    refine .inl ⟨hg, ?_⟩
    simp only [List.replicate_succ, writeSections, hfind]
    rfl
  · rw [if_neg hg] at hfind
    refine .inr ⟨hg, n, writeSections_general hfind (fun e he => ?_) n⟩
    exact (h e (List.mem_filter.mp he).1).2

/-! ## Reading -/

/-- Entries as they are written in a general section. -/
def Entries (l : List (Str × Any)) : Prop := ∀ e ∈ l, e.1 ≠ [] ∧ slash ∉ e.1 ∧ Storable e.2

def equalsOf (e : Str × Any) : Option Nat := some (iniEscapedKey e.1).length

/-- The line of an entry. -/
def lineOf (e : Str × Any) : Bytes := entryLine e.1 (valueText e.2)

theorem Entries.lineText {l : List (Str × Any)} (h : Entries l) {e : Str × Any} (he : e ∈ l) :
    LineText (lineOf e) (equalsOf e) := by
  obtain ⟨h1, h2, h3⟩ := h e he
  exact lineText_entry h1 h2 (safe_valueText h3)

theorem Entries.tail {l : List (Str × Any)} {e : Str × Any} (h : Entries (e :: l)) : Entries l :=
  fun e' he' => h e' (List.mem_cons_of_mem _ he')

/-- A block, with the line end in front that the header leaves. -/
def rows (l : List (Str × Any)) : Bytes := l.flatMap fun e => [10] ++ lineOf e

theorem rows_eol : ∀ l : List (Str × Any), [10] ++ block l = rows l ++ [10]
  | [] => rfl
  | e :: l => by
    have ih := rows_eol l
    simp only [block, rows, List.flatMap_cons, lineOf] at ih ⊢
    rw [List.append_assoc ([10] ++ _), ← ih]
    simp

theorem sectionText_rows (l : List (Str × Any)) :
    sectionText l = lit "[General]" ++ rows l ++ [10] := by
  rw [sectionText, List.append_assoc, rows_eol, List.append_assoc]

def rowLine (e : Str × Any) : LineState := ⟨[10], lineOf e, equalsOf e, false⟩

theorem Lines.rows : ∀ (l : List (Str × Any)) {data : Bytes} {ls : List LineState}, Entries l →
    Lines data ls [] → Lines (data ++ Settings.rows l) (ls ++ l.map rowLine) []
  | [], data, ls, _, h => by simpa [Settings.rows] using h
  | e :: l, data, ls, hl, h => by
    have h1 := h.eol.line (hl.lineText List.mem_cons_self) (.inl (by simp))
    have h2 := Lines.rows l hl.tail h1
    simpa [Settings.rows, rowLine] using h2

def headerLine (skipped : Bytes) : LineState := ⟨skipped, lit "[General]", none, false⟩

/-- The lines of `copies l n`. -/
def copyLines (l : List (Str × Any)) : Nat → List LineState
  | 0 => headerLine [] :: l.map rowLine
  | n + 1 => copyLines l n ++ headerLine [10, 10] :: l.map rowLine

theorem Lines.section {l : List (Str × Any)} (hl : Entries l) {data tl : Bytes}
    {ls : List LineState} (h : Lines data ls tl) (ht : tl ≠ [] ∨ ls = []) :
    Lines (data ++ sectionText l) (ls ++ headerLine tl :: l.map rowLine) [10] := by
  have h1 := (Lines.rows l hl (h.line lineText_general ht)).eol
  rw [sectionText_rows]
  simpa [headerLine] using h1

theorem lines_copies {l : List (Str × Any)} (hl : Entries l) :
    ∀ n, Lines (copies l n) (copyLines l n) [10]
  | 0 => by
    have := Lines.section hl (.nil [] (by simp [Eols])) (.inr rfl)
    simpa [copies, copyLines] using this
  | n + 1 => by
    have := Lines.section hl (lines_copies hl n).eol (.inl (by simp))
    simpa [copies, copyLines] using this

/-- The data the section has before the next flush. -/
def pending (D : Bytes) : Bytes := if D = [] then [] else D ++ [10]

/-- The state of `readIniFile` behind general sections: their data so far is
`D`, and that of the last one is not flushed. -/
def fileState (D S : Bytes) : FileState := ⟨[], S, OrdMap.empty.insert [] D, true⟩

theorem flush_fileState (D S skipped : Bytes) :
    (fileState D S).flush skipped = fileState (pending D ++ S ++ skipped) S := by
  simp only [FileState.flush, fileState, pending, OrdMap.insert_insert, OrdMap.find_insert,
    if_true, Option.getD_some]

theorem fileLine_header (st : FileState) (skipped : Bytes) (hok : st.ok = true) :
    fileLine st (headerLine skipped) =
      ⟨[], [], (st.flush skipped).unparsedIniSections, true⟩ := by
  have h1 : (lit "[General]").head? = some (byte '[') := by decide
  have h2 : currentSectionOf (iniSectionName (lit "[General]")) = [] := by decide
  have h3 : byte ']' ∈ lit "[General]" := by decide
  simp only [fileLine, headerLine, if_pos h1, h2, h3, decide_true, hok, Bool.and_self]

theorem lineOf_head {e : Str × Any} (h1 : e.1 ≠ []) (h2 : slash ∉ e.1) :
    (lineOf e).head? ≠ some (byte '[') := by
  have hne := iniEscapedKey_ne_nil h1
  have hord := iniEscapedKey_ordinary h2
  unfold lineOf entryLine
  generalize iniEscapedKey e.1 = k at hne hord
  obtain ⟨b, k, rfl⟩ := List.exists_cons_of_ne_nil hne
  have hb := (hord b List.mem_cons_self).2.2
  simpa using hb

theorem foldl_rows : ∀ (l : List (Str × Any)) (D S : Bytes), Entries l →
    (l.map rowLine).foldl fileLine (fileState D S) = fileState D (S ++ rows l)
  | [], D, S, _ => by simp [rows]
  | e :: l, D, S, hl => by
    obtain ⟨h1, h2, -⟩ := hl e List.mem_cons_self
    have hstep : fileLine (fileState D S) (rowLine e) = fileState D (S ++ ([10] ++ lineOf e)) := by
      rw [fileLine, rowLine, if_neg (lineOf_head h1 h2)]
      simp [fileState]
    rw [List.map_cons, List.foldl_cons, hstep, foldl_rows l _ _ hl.tail]
    simp [rows]

/-- The data flushed in front of the last of `n + 1` sections. -/
def flushed (l : List (Str × Any)) : Nat → Bytes
  | 0 => []
  | n + 1 => pending (flushed l n) ++ rows l ++ [10, 10]

theorem foldl_copyLines {l : List (Str × Any)} (hl : Entries l) : ∀ n,
    (copyLines l n).foldl fileLine ⟨[], [], .empty, true⟩ = fileState (flushed l n) (rows l)
  | 0 => by
    have hinit : fileLine ⟨[], [], .empty, true⟩ (headerLine []) = fileState [] [] :=
      fileLine_header _ _ rfl
    rw [copyLines, List.foldl_cons, hinit, foldl_rows l _ _ hl]
    simp [flushed]
  | n + 1 => by
    have hhead : fileLine (fileState (flushed l n) (rows l)) (headerLine [10, 10]) =
        fileState (flushed l (n + 1)) [] := by
      rw [fileLine_header _ _ rfl, flush_fileState]
      rfl
    rw [copyLines, List.foldl_append, foldl_copyLines hl n, List.foldl_cons, hhead,
      foldl_rows l _ _ hl]
    simp

/-- `data` is taken apart into the lines of these entries. -/
def Parses (data : Bytes) (l : List (Str × Any)) : Prop :=
  ∃ ls tl, Lines data ls tl ∧
    ls.map (fun s => (s.line, s.equalsPos)) = l.map fun e => (lineOf e, equalsOf e)

theorem Parses.eol {data : Bytes} {l : List (Str × Any)} (h : Parses data l) :
    Parses (data ++ [10]) l := by
  obtain ⟨ls, tl, h1, h2⟩ := h
  exact ⟨ls, tl ++ [10], h1.eol, h2⟩

theorem Parses.rows {data : Bytes} {l : List (Str × Any)} (h : Parses data l) :
    ∀ {l' : List (Str × Any)}, Entries l' → Parses (data ++ Settings.rows l') (l ++ l') := by
  intro l'
  induction l' generalizing data l with
  | nil =>
    intro _
    simpa [Settings.rows] using h
  | cons e l' ih =>
    intro hl
    obtain ⟨ls, tl, h1, h2⟩ := h
    have h3 := h1.eol.line (hl.lineText List.mem_cons_self) (.inl (by simp))
    have h4 : Parses (data ++ [10] ++ lineOf e) (l ++ [e]) := ⟨_, _, h3, by simp [h2]⟩
    have := ih h4 hl.tail
    simpa [Settings.rows] using this

theorem Parses.pending {data : Bytes} {l : List (Str × Any)} (h : Parses data l) :
    Parses (pending data) l := by
  unfold Settings.pending
  split
  · rename_i h0
    rw [h0] at h
    exact h
  · exact h.eol

theorem parses_nil : Parses [] [] := ⟨[], [], .nil [] (by simp [Eols]), rfl⟩

/-- The flushed data holds the entries of `n` sections. -/
theorem parses_flushed {l : List (Str × Any)} (hl : Entries l) :
    ∀ n, ∃ l', Parses (flushed l n) l' ∧ ∀ e ∈ l', e ∈ l
  | 0 => ⟨[], parses_nil, by simp⟩
  | n + 1 => by
    obtain ⟨l', h1, h2⟩ := parses_flushed hl n
    have h3 := ((h1.pending.rows hl).eol).eol
    refine ⟨l' ++ l, by simpa [flushed] using h3, fun e he => ?_⟩
    rcases List.mem_append.mp he with he | he
    · exact h2 e he
    · exact he

theorem readIniFile_copies {l : List (Str × Any)} (hl : Entries l) (n : Nat) :
    ∃ data l', readIniFile (copies l n) = some (OrdMap.empty.insert [] data, true) ∧
      Parses data l' ∧ ∀ e, e ∈ l' ↔ e ∈ l := by
  obtain ⟨l', h1, h2⟩ := parses_flushed hl n
  refine ⟨pending (flushed l n) ++ rows l ++ [10], l' ++ l, ?_, (h1.pending.rows hl).eol, ?_⟩
  · have hbom : [0xEF, 0xBB, 0xBF].isPrefixOf (copies l n) = false := by
      rw [copies_eq, sectionText]
      rfl
    rw [readIniFile, hbom]
    simp only [(lines_copies hl n).iniLines, foldl_copyLines hl n, flush_fileState]
    rfl
  · intro e
    rw [List.mem_append]
    exact ⟨fun he => he.elim (h2 e) id, .inr⟩

/-- The line of an entry gives the entry, with the value as it is read back. -/
theorem sectionLine_entry {e : Str × Any} (h1 : e.1 ≠ []) (h2 : slash ∉ e.1)
    (acc : ParsedSettingsMap × Bool) {s : LineState} (hl : s.line = lineOf e)
    (he : s.equalsPos = equalsOf e) :
    sectionLine [] acc s = some (acc.1.insert e.1 (readBackValue e.2), acc.2) := by
  have hkey : (iniEscapedKey e.1).rdropWhile (fun b => b == byte ' ' || b == 9) =
      iniEscapedKey e.1 := by
    rw [List.rdropWhile_eq_self_iff]
    intro hne hlast
    have := (iniEscapedKey_ordinary h2 _ (List.getLast_mem hne)).2.1
    simp only [isSpace, Bool.or_eq_false_iff, beq_eq_false_iff_ne, ne_eq] at this
    simp only [Bool.or_eq_true, beq_iff_eq] at hlast
    exact hlast.elim this.2 this.1.1.1
  have htake : (lineOf e).take (iniEscapedKey e.1).length = iniEscapedKey e.1 := by
    rw [lineOf, entryLine, List.append_assoc, List.take_left]
  have hdrop : (lineOf e).drop ((iniEscapedKey e.1).length + 1) = valueText e.2 := by
    rw [lineOf, entryLine]
    exact List.drop_left' (by simp)
  rw [sectionLine, hl, he, if_neg (lineOf_head h1 h2)]
  simp only [equalsOf, htake, hkey, hdrop, iniUnescapedKey_escaped, List.nil_append]
  rfl

theorem foldlM_section : ∀ (l : List (Str × Any)) (ls : List LineState)
    (acc : ParsedSettingsMap × Bool), Entries l →
    ls.map (fun s => (s.line, s.equalsPos)) = l.map (fun e => (lineOf e, equalsOf e)) →
    ls.foldlM (sectionLine []) acc =
      some (acc.1.insertAll (l.map fun e => (e.1, readBackValue e.2)), acc.2)
  | [], [], acc, _, _ => rfl
  | [], _ :: _, _, _, h => by simp at h
  | _ :: _, [], _, _, h => by simp at h
  | e :: l, s :: ls, acc, hl, h => by
    simp only [List.map_cons, List.cons.injEq, Prod.mk.injEq] at h
    obtain ⟨⟨h1, h2⟩, h3⟩ := h
    obtain ⟨hne, hns, -⟩ := hl e List.mem_cons_self
    rw [List.foldlM_cons, sectionLine_entry hne hns acc h1 h2]
    exact foldlM_section l ls _ hl.tail h3

/-- The sections that were written are read as the entries they hold. -/
theorem readIni_copies {m : ParsedSettingsMap} (hl : Entries m.entries) (n : Nat) :
    readIni (copies m.entries n) = some (m.map readBackValue, true) := by
  obtain ⟨data, l', h1, ⟨ls, tl, h2, h3⟩, h4⟩ := readIniFile_copies hl n
  have hl' : Entries l' := fun e he => hl e ((h4 e).mp he)
  have hsection : readIniSection [] data .empty = some (m.map readBackValue, true) := by
    rw [readIniSection, h2.iniLines, foldlM_section l' ls _ hl' h3]
    simp only [Option.some.injEq, Prod.mk.injEq, and_true]
    refine OrdMap.insertAll_entries fun e => ?_
    simp only [OrdMap.map, List.mem_map]
    exact exists_congr fun e' => and_congr_left fun _ => h4 e'
  have hall : ensureAllSectionsParsed (OrdMap.empty.insert [] data) =
      some (m.map readBackValue, true) := by
    show ((readIniSection [] data .empty).map fun r => (r.1, true && r.2)).bind some = _
    rw [hsection]
    rfl
  rw [readIni, h1]
  simp only [Option.bind_eq_bind, Option.bind_some, hall]
  rfl

/-! ## Results -/

/-- The maps the claim is about: normalised keys, storable values. -/
def Domain (m : ParsedSettingsMap) : Prop := ∀ e ∈ m.entries, Normalised e.1 ∧ Storable e.2

theorem entries_general {m : ParsedSettingsMap} (h : Domain m) : Entries (general m).entries := by
  intro e he
  obtain ⟨hm, hg⟩ := List.mem_filter.mp he
  exact ⟨(h e hm).1.nonempty, of_decide_eq_true hg, (h e hm).2⟩

theorem readBack_eq {m : ParsedSettingsMap} (h : Domain m) : readBack m =
    if m.entries = [] then some (.empty, true)
    else if (general m).entries = [] then none
    else some ((general m).map readBackValue, true) := by
  by_cases hne : m.entries = []
  · rw [if_pos hne]
    have hw : writeIniFile m = some [] := by
      unfold writeIniFile iniMapOf
      rw [hne]
      rfl
    have hr : readIni [] = some (.empty, true) := by
      have hlines : iniLines [] = ([], []) := (Lines.nil [] (by simp [Eols])).iniLines
      have hfile : readIniFile [] = some (OrdMap.empty.insert [] [], true) := by
        rw [readIniFile]
        simp only [hlines]
        rfl
      have hsection : readIniSection [] [] .empty = some (.empty, true) := by
        rw [readIniSection, hlines]
        rfl
      have hall : ensureAllSectionsParsed (OrdMap.empty.insert [] []) = some (.empty, true) := by
        show ((readIniSection [] [] .empty).map fun r => (r.1, true && r.2)).bind some = _
        rw [hsection]
        rfl
      rw [readIni, hfile]
      simp only [Option.bind_eq_bind, Option.bind_some, hall]
      rfl
    rw [readBack, hw]
    exact hr
  · rw [if_neg hne]
    rcases writeIniFile_eq h hne with ⟨hg, hw⟩ | ⟨hg, n, hw⟩
    · rw [if_pos hg, readBack, hw]
      rfl
    · rw [if_neg hg, readBack, hw]
      exact readIni_copies (entries_general h) n

/-- The file is read without a format error, as the same map. -/
def RoundTrips (m : ParsedSettingsMap) : Prop := readBack m = some (m, true)

/-- The same value up to its representation: an empty value may stand for the
empty list, and a `StringList` for the list of its strings. -/
def SameValue : Any → Any → Prop
  | .anyList [], .item .empty => True
  | .anyList l, .stringList l' => l = l'.map .string
  | v, w => v = w

/-- The file is read without a format error, as a map with the same keys and
the same values up to their representation. -/
def RoundTripsLoosely (m : ParsedSettingsMap) : Prop :=
  ∃ m', readBack m = some (m', true) ∧ m.entries.map Prod.fst = m'.entries.map Prod.fst ∧
    ∀ k v w, m.find k = some v → m'.find k = some w → SameValue v w

def isList : Any → Bool
  | .item _ => false
  | .anyList _ => true
  | .stringList _ => true

def isNonemptyList : Any → Bool
  | .item _ => false
  | .anyList l => !l.isEmpty
  | .stringList l => !l.isEmpty

/-- Where the read back map is not void, its entries are those of the general
section, read back. -/
theorem mem_readBack {m m' : ParsedSettingsMap} (h : Domain m) (hr : readBack m = some (m', true))
    (hne : m.entries ≠ []) : m' = (general m).map readBackValue := by
  rw [readBack_eq h, if_neg hne] at hr
  split at hr
  · cases hr
  · simp only [Option.some.injEq, Prod.mk.injEq, and_true] at hr
    exact hr.symm

theorem mem_general_map {m : ParsedSettingsMap} {e : Str × Any}
    (he : e ∈ ((general m).map readBackValue).entries) :
    ∃ e' ∈ m.entries, isGeneral e'.1 = true ∧ e = (e'.1, readBackValue e'.2) := by
  obtain ⟨e', he', rfl⟩ := List.mem_map.mp he
  obtain ⟨h1, h2⟩ := List.mem_filter.mp he'
  exact ⟨e', h1, h2, rfl⟩

/-- A map without slashes in its keys is read back with every value read back. -/
theorem readBack_general {m : ParsedSettingsMap} (h : Domain m)
    (hs : ∀ e ∈ m.entries, slash ∉ e.1) : readBack m = some (m.map readBackValue, true) := by
  have hg : general m = m := OrdMap.filter_eq_self fun e he => decide_eq_true (hs e he)
  rw [readBack_eq h, hg]
  by_cases hne : m.entries = []
  · rw [if_pos hne]
    obtain ⟨l, hl⟩ := m
    simp only at hne
    subst hne
    rfl
  · rw [if_neg hne, if_neg hne]

theorem readBackValue_anyList {l : List Item} (h : Storable (.anyList l)) :
    readBackValue (.anyList l) ≠ .anyList l ∧
      (l ≠ [] → ¬ SameValue (.anyList l) (readBackValue (.anyList l))) := by
  by_cases hl : l = []
  · subst hl
    rw [readBackValue_nil]
    exact ⟨by simp, fun hn => absurd rfl hn⟩
  · have h2 : 2 ≤ l.length := by
      have := List.length_pos_of_ne_nil hl
      have := h.2
      omega
    have hlt := readBackValue_list h2
    have hne : ∀ w, SameValue (.anyList l) w → anyLength w = l.length := by
      intro w hw
      cases w with
      | item v =>
        cases v <;> cases l <;> first | exact absurd rfl hl | (simp [SameValue] at hw)
      | anyList l' =>
        have : Any.anyList l = Any.anyList l' := by cases l <;> exact hw
        cases this
        rfl
      | stringList l' =>
        have : l = l'.map .string := by cases l <;> exact hw
        rw [this]
        simp [anyLength]
    refine ⟨fun e => ?_, fun _ hsame => ?_⟩
    · rw [e] at hlt
      exact absurd hlt (Nat.lt_irrefl _)
    · rw [hne _ hsame] at hlt
      exact absurd hlt (Nat.lt_irrefl _)

theorem roundTrips_iff {m : ParsedSettingsMap} (h : Domain m) :
    RoundTrips m ↔ ∀ e ∈ m.entries, slash ∉ e.1 ∧ isList e.2 = false := by
  constructor
  · intro hr e he
    have hm := mem_readBack h hr (List.ne_nil_of_mem he)
    have he' := he
    rw [hm] at he'
    obtain ⟨e', hmem, hg, heq⟩ := mem_general_map he'
    obtain rfl : e = e' := OrdMap.eq_of_key he hmem (by rw [heq])
    refine ⟨of_decide_eq_true hg, ?_⟩
    obtain ⟨k, v⟩ := e
    have hv : v = readBackValue v := congrArg Prod.snd heq
    have hst := (h _ he).2
    cases v with
    | item v => rfl
    | anyList l => exact absurd hv.symm (readBackValue_anyList hst).1
    | stringList l => exact hst.elim
  · intro hc
    rw [RoundTrips, readBack_general h fun e he => (hc e he).1, OrdMap.map_eq_self]
    intro e he
    have hv := (hc e he).2
    obtain ⟨k, v⟩ := e
    cases v with
    | item v => exact readBackValue_item v
    | anyList l => cases hv
    | stringList l => cases hv

theorem roundTripsLoosely_iff {m : ParsedSettingsMap} (h : Domain m) :
    RoundTripsLoosely m ↔ ∀ e ∈ m.entries, slash ∉ e.1 ∧ isNonemptyList e.2 = false := by
  constructor
  · rintro ⟨m', hr, hkeys, hsame⟩ e he
    have hm := mem_readBack h hr (List.ne_nil_of_mem he)
    subst hm
    have hk : e.1 ∈ ((general m).map readBackValue).entries.map Prod.fst := by
      rw [← hkeys]
      exact List.mem_map_of_mem he
    obtain ⟨e₁, he₁, hk₁⟩ := List.mem_map.mp hk
    obtain ⟨e', hmem, hg, rfl⟩ := mem_general_map he₁
    obtain rfl : e = e' := OrdMap.eq_of_key he hmem hk₁.symm
    refine ⟨of_decide_eq_true hg, ?_⟩
    have hv := hsame _ _ _ (OrdMap.find_eq_some.mpr he) (OrdMap.find_eq_some.mpr he₁)
    have hst := (h _ he).2
    obtain ⟨k, v⟩ := e
    cases v with
    | item v => rfl
    | anyList l =>
      by_cases hl : l = []
      · subst hl; rfl
      · exact absurd hv ((readBackValue_anyList hst).2 hl)
    | stringList l => exact hst.elim
  · intro hc
    refine ⟨_, readBack_general h fun e he => (hc e he).1, ?_, ?_⟩
    · simp [OrdMap.map, Function.comp_def]
    · intro k v w hv hw
      have hmem := OrdMap.find_eq_some.mp hv
      obtain ⟨e', hmem', heq⟩ := List.mem_map.mp (OrdMap.find_eq_some.mp hw)
      simp only [Prod.mk.injEq] at heq
      obtain rfl : (k, v) = e' := OrdMap.eq_of_key hmem hmem' heq.1.symm
      obtain ⟨-, rfl⟩ := heq
      have hvl := (hc _ hmem).2
      have hst := (h _ hmem).2
      cases v with
      | item v =>
        simp only [readBackValue_item]
        cases v <;> rfl
      | anyList l =>
        cases l with
        | nil =>
          simp only [readBackValue_nil]
          trivial
        | cons a l => cases hvl
      | stringList l => exact hst.elim

/-- A map comes back from its INI file exactly when no key has a slash in it
and no value is a list; up to the representation of the values, when no key has a slash
and no value is a non-empty list. -/
theorem settings_round_trip (m : ParsedSettingsMap) (h : Domain m) :
    (RoundTrips m ↔ ∀ e ∈ m.entries, slash ∉ e.1 ∧ isList e.2 = false) ∧
    (RoundTripsLoosely m ↔ ∀ e ∈ m.entries, slash ∉ e.1 ∧ isNonemptyList e.2 = false) :=
  ⟨roundTrips_iff h, roundTripsLoosely_iff h⟩

/-- A string that needs quotes and escapes. -/
def quotedMap : ParsedSettingsMap :=
  OrdMap.empty.insert (lit16 "a key") (.item (.string (lit16 " x;\n")))

theorem normalised_of {key : Str} (h : key ≠ [] ∧ key.head? ≠ some slash ∧
    key.getLast? ≠ some slash ∧ ¬ [slash, slash] <:+: key) : Normalised key :=
  ⟨h.1, h.2.1, h.2.2.1, h.2.2.2⟩

theorem quotedMap_round_trip : RoundTrips quotedMap := by
  refine (settings_round_trip quotedMap fun e he => ?_).1.mpr (by decide)
  rw [show quotedMap.entries = [(lit16 "a key", .item (.string (lit16 " x;\n")))] by decide,
    List.mem_singleton] at he
  subst he
  exact ⟨normalised_of (by decide), trivial⟩

/-- One key in the general section, one in another section. -/
def twoSections : ParsedSettingsMap :=
  (OrdMap.empty.insert (lit16 "a") (.item (.string (lit16 "1")))).insert (lit16 "b/c")
    (.item (.string (lit16 "2")))

/-- The key of the other section is lost. -/
theorem twoSections_lost : ¬ ∀ m, Domain m → RoundTripsLoosely m := by
  intro hall
  have hdom : Domain twoSections := by
    intro e he
    rw [show twoSections.entries = [(lit16 "a", .item (.string (lit16 "1"))),
      (lit16 "b/c", .item (.string (lit16 "2")))] by decide] at he
    simp only [List.mem_cons, List.not_mem_nil, or_false] at he
    rcases he with rfl | rfl
    · exact ⟨normalised_of (by decide), trivial⟩
    · exact ⟨normalised_of (by decide), trivial⟩
  have hno := (roundTripsLoosely_iff hdom).mp (hall _ hdom)
  revert hno
  decide

end Libpdk.Settings

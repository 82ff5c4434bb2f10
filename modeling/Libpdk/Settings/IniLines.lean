import Libpdk.Settings.IniEscape
import Libpdk.Settings.IniFile

/-!
# The lines of a written file

What `readIniLine` makes of the bytes `writeIniFile` emits: a key, an equals
sign and an escaped value are one line whatever the key and the value contain
(`lineText_entry`), and text put together from lines and line ends is taken
apart into these lines (`Lines.iniLines`).
-/
namespace Libpdk.Settings

/-! ## Bytes inside a line -/

/-- The reader takes all of `v` and stays in the same line. -/
def lineRun (s : LineMode × LineState) (v : Bytes) : Option (LineMode × LineState) :=
  v.foldlM lineByte s

theorem readLoop_append : ∀ (v : Bytes) {s s' : LineMode × LineState} (tl : Bytes),
    lineRun s v = some s' → readLoop s (v ++ tl) = readLoop s' tl
  | [], s, s', tl, h => by
    simp only [lineRun, List.foldlM_nil, Option.pure_def, Option.some.injEq] at h
    rw [h]
    rfl
  | b :: v, s, s', tl, h => by
    simp only [lineRun, List.foldlM_cons, Option.bind_eq_bind, Option.bind_eq_some_iff] at h
    obtain ⟨s₁, h₁, h₂⟩ := h
    rw [List.cons_append, readLoop, h₁]
    exact readLoop_append v tl h₂

theorem lineRun_append {s s' : LineMode × LineState} {v w : Bytes} (h : lineRun s v = some s') :
    lineRun s (v ++ w) = lineRun s' w := by
  unfold lineRun at h ⊢
  rw [List.foldlM_append, h]
  rfl

def LineState.append (st : LineState) (v : Bytes) : LineState := { st with line := st.line ++ v }

@[simp] theorem append_nil (st : LineState) : st.append [] = st := by simp [LineState.append]

@[simp] theorem append_append (st : LineState) (v w : Bytes) :
    (st.append v).append w = st.append (v ++ w) := by simp [LineState.append]

theorem scanByte_ordinary {st : LineState} {b : UInt8} (h : isSpecial b = false) :
    scanByte st b = some (.scan, st.append [b]) := by
  simp [scanByte, h, LineState.push, LineState.append]

/-- Bytes that are not special go into the line. -/
theorem lineRun_ordinary : ∀ (v : Bytes) (st : LineState), (∀ b ∈ v, isSpecial b = false) →
    lineRun (.scan, st) v = some (.scan, st.append v)
  | [], st, _ => by simp [lineRun]
  | b :: v, st, h => by
    have hb : scanByte st b = _ := scanByte_ordinary (h b List.mem_cons_self)
    have ih := lineRun_ordinary v (st.append [b]) fun b' hb' => h b' (List.mem_cons_of_mem _ hb')
    unfold lineRun at ih ⊢
    rw [List.foldlM_cons, lineByte, hb]
    simpa using ih

/-- In a value: behind the equals sign. -/
structure InValue (st : LineState) : Prop where
  line : st.line ≠ []
  equals : st.equalsPos ≠ none

theorem InValue.append {st : LineState} (h : InValue st) (v : Bytes) : InValue (st.append v) :=
  ⟨by simp [LineState.append, h.line], h.equals⟩

/-- Text that is all inside one line when it starts outside of quotes. -/
def Safe (v : Bytes) : Prop :=
  ∀ st, InValue st → st.inQuotes = false → lineRun (.scan, st) v = some (.scan, st.append v)

theorem Safe.append {v w : Bytes} (hv : Safe v) (hw : Safe w) : Safe (v ++ w) := by
  intro st hst hq
  rw [lineRun_append (hv st hst hq), hw _ (hst.append v) hq, append_append]

theorem safe_ordinary {v : Bytes} (h : ∀ b ∈ v, isSpecial b = false) : Safe v :=
  fun st _ _ => lineRun_ordinary v st h

theorem ordinary_of_all {v : Bytes} (h : v.all (fun b => !isSpecial b) = true) :
    ∀ b ∈ v, isSpecial b = false := by simpa using h

theorem hexValue_ordinary {b : UInt8} (h : (hexValue b.toNat).isSome) : isSpecial b = false := by
  have hne : ∀ c : UInt8, hexValue c.toNat = none → b ≠ c := by
    rintro c hc rfl
    rw [hc] at h
    cases h
  simp only [isSpecial, Bool.or_eq_false_iff, beq_eq_false_iff_ne, ne_eq]
  exact ⟨⟨⟨⟨⟨hne _ (by decide), hne _ (by decide)⟩, hne _ (by decide)⟩, hne _ (by decide)⟩,
    hne _ (by decide)⟩, hne _ (by decide)⟩

theorem ulltoa2_hex : ∀ (fuel n : Nat), ∀ b ∈ ulltoa2 fuel n 16, (hexValue b.toNat).isSome
  | 0, _, b, h => by simp [ulltoa2] at h
  | fuel + 1, n, b, h => by
    simp only [ulltoa2, List.mem_append, List.mem_singleton] at h
    rcases h with h | rfl
    · split at h
      · simp at h
      · exact ulltoa2_hex fuel _ b h
    · rw [hexValue_digit _ (Nat.mod_lt _ (by decide))]
      rfl

/-- An escape of two bytes, the second of them not a line end. -/
theorem lineRun_escape {st : LineState} {b : UInt8} (hb : isEol b = false) :
    lineRun (.scan, st) [0x5C, b] = some (.scan, st.append [0x5C, b]) := by
  have h1 : lineByte (.scan, st) 0x5C = some (.escape, st.append [0x5C]) := rfl
  have h2 : lineByte (.escape, st.append [0x5C]) b = some (.scan, (st.append [0x5C]).append [b]) := by
    simp [lineByte, hb, LineState.push, LineState.append]
  rw [lineRun, List.foldlM_cons, h1]
  simp only [Option.bind_eq_bind, Option.bind_some, List.foldlM_cons, h2, List.foldlM_nil,
    Option.pure_def, append_append]
  rfl

theorem lineRun_hex (st : LineState) (n : Nat) :
    lineRun (.scan, st) (0x5C :: byte 'x' :: number16 n) =
      some (.scan, st.append (0x5C :: byte 'x' :: number16 n)) := by
  rw [show (0x5C : UInt8) :: byte 'x' :: number16 n = [0x5C, byte 'x'] ++ number16 n from rfl,
    lineRun_append (lineRun_escape (by decide)),
    lineRun_ordinary (number16 n) _ fun b hb => hexValue_ordinary (ulltoa2_hex _ _ b hb),
    append_append]

theorem escapeLetter_noEol {ch : UInt16} {b : UInt8} (h : escapeLetter ch = some b) :
    isEol b = false := by
  have hf := List.mem_of_find?_eq_some (escapeLetter_find h)
  have hall : escapeCodes.all (fun p => !isEol p.1) = true := by decide
  simpa using List.all_eq_true.mp hall _ hf

theorem lineRun_plain {st : LineState} (hst : InValue st) {ch : UInt16} (hp : Plain ch)
    (hc : st.inQuotes = true ∨ (ch ≠ unit ';' ∧ ch ≠ unit '=')) :
    lineRun (.scan, st) [ch.toUInt8] = some (.scan, st.append [ch.toUInt8]) := by
  have hlow : ∀ b : UInt8, b.toNat < 0x20 → ch.toUInt8 ≠ b := by
    rintro _ h rfl
    rw [hp.toNat] at h
    exact absurd hp.lower (by omega)
  have hq : ch.toUInt8 ≠ 0x22 := hp.ne (b := 0x22) hp.quote
  have hbs : ch.toUInt8 ≠ 0x5C := hp.ne (b := 0x5C) hp.backslash
  have heol : isEol ch.toUInt8 = false := by
    simp [isEol, hlow 10 (by decide), hlow 13 (by decide)]
  have hscan : scanByte st ch.toUInt8 = some (.scan, st.append [ch.toUInt8]) := by
    by_cases h : ch.toUInt8 = byte '=' ∨ ch.toUInt8 = byte ';'
    · have hin : st.inQuotes = true := by
        refine hc.resolve_right fun hne => ?_
        rcases h with h | h
        · exact hp.ne (b := byte '=') hne.2 h
        · exact hp.ne (b := byte ';') hne.1 h
      rcases h with h | h
      · rw [h]
        simp [scanByte, isSpecial, hin, LineState.push, LineState.append]
      · rw [h]
        simp [scanByte, isSpecial, isEol, hin, hst.line, LineState.push, LineState.append]
    · rw [not_or] at h
      refine scanByte_ordinary ?_
      simp only [isSpecial, Bool.or_eq_false_iff, beq_eq_false_iff_ne, ne_eq]
      exact ⟨⟨⟨⟨⟨hlow 10 (by decide), hlow 13 (by decide)⟩, hq⟩, h.2⟩, h.1⟩, hbs⟩
  rw [lineRun, List.foldlM_cons, lineByte, hscan]
  rfl

/-- In quotes, or outside of them where the unit is none that needs quotes. -/
theorem lineRun_escapeUnit {st : LineState} (hst : InValue st) (e : Bool) {ch : UInt16}
    (hc : st.inQuotes = true ∨ (ch ≠ unit ';' ∧ ch ≠ unit '=')) :
    lineRun (.scan, st) (escapeUnit e ch).1 = some (.scan, st.append (escapeUnit e ch).1) := by
  unfold escapeUnit
  split
  · exact lineRun_hex st _
  split
  · exact lineRun_escape (by decide)
  split
  · rename_i b hb
    exact lineRun_escape (escapeLetter_noEol hb)
  rename_i hl
  split
  · exact lineRun_hex st _
  · rename_i hp
    exact lineRun_plain hst (plain_of hl hp) hc

theorem lineRun_escapeUnits : ∀ (str : Str) (e : Bool) {st : LineState}, InValue st →
    (st.inQuotes = true ∨ (unit ';' ∉ str ∧ unit '=' ∉ str)) →
    lineRun (.scan, st) (escapeUnits e str) = some (.scan, st.append (escapeUnits e str))
  | [], e, st, _, _ => by simp [escapeUnits, lineRun]
  | ch :: rest, e, st, hst, hc => by
    have hch : st.inQuotes = true ∨ (ch ≠ unit ';' ∧ ch ≠ unit '=') := by
      refine hc.imp_right fun h => ⟨?_, ?_⟩
      · rintro rfl; exact h.1 List.mem_cons_self
      · rintro rfl; exact h.2 List.mem_cons_self
    have hrest : st.inQuotes = true ∨ (unit ';' ∉ rest ∧ unit '=' ∉ rest) :=
      hc.imp_right fun h =>
        ⟨fun hm => h.1 (List.mem_cons_of_mem _ hm), fun hm => h.2 (List.mem_cons_of_mem _ hm)⟩
    rw [escapeUnits, lineRun_append (lineRun_escapeUnit hst e hch),
      lineRun_escapeUnits rest _ (hst.append _) hrest, append_append]

theorem safe_iniEscapedString (str : Str) : Safe (iniEscapedString str) := by
  intro st hst hq
  unfold iniEscapedString
  simp only
  split
  · -- the quotes open in front of the units and close behind them
    have h1 : lineRun (.scan, st) [0x22] =
        some (.scan, { st.append [0x22] with inQuotes := true }) := by
      simp [lineRun, lineByte, scanByte, isSpecial, isEol, hq, LineState.push, LineState.append]
    have hst' : InValue { st.append [0x22] with inQuotes := true } :=
      ⟨(hst.append [0x22]).line, hst.equals⟩
    have h2 : ∀ st' : LineState, st'.inQuotes = true → lineRun (.scan, st') [0x22] =
        some (.scan, { st'.append [0x22] with inQuotes := false }) := by
      intro st' hq'
      simp [lineRun, lineByte, scanByte, isSpecial, isEol, hq', LineState.push, LineState.append]
    rw [show (0x22 : UInt8) :: (escapeUnits false str ++ [0x22]) =
      [0x22] ++ (escapeUnits false str ++ [0x22]) from rfl, lineRun_append h1,
      lineRun_append (lineRun_escapeUnits str false hst' (.inl rfl)), h2 _ rfl]
    simp [LineState.append, hq]
  · rename_i h
    simp only [Bool.or_eq_true, not_or, Bool.not_eq_true] at h
    obtain ⟨-, h2, h3⟩ := not_needsQuotes h.1.1
    exact lineRun_escapeUnits str false hst (.inr ⟨h2, h3⟩)

theorem safe_flatMap : ∀ (strs : List Str),
    Safe (strs.flatMap fun s => lit ", " ++ iniEscapedString s)
  | [] => safe_ordinary (by simp)
  | s :: strs => by
    have hsep : Safe (lit ", ") := safe_ordinary (ordinary_of_all (by decide))
    rw [List.flatMap_cons]
    exact (hsep.append (safe_iniEscapedString s)).append (safe_flatMap strs)

theorem safe_iniEscapedStringList (strs : List Str) : Safe (iniEscapedStringList strs) := by
  unfold iniEscapedStringList
  split
  · exact safe_ordinary (ordinary_of_all (by decide))
  · exact (safe_iniEscapedString _).append (safe_flatMap _)

theorem safe_writeValue {v : Any} {text : Bytes} (h : writeValue v = some text) : Safe text := by
  unfold writeValue at h
  split at h
  · cases h
  · cases h
    split
    · exact safe_iniEscapedStringList _
    · exact safe_iniEscapedString _
  · cases h
    exact safe_iniEscapedString _

/-! ## Keys -/

theorem isPlainKeyUnit_ordinary {ch : UInt16} (h : isPlainKeyUnit ch = true) :
    isSpecial ch.toUInt8 = false ∧ isSpace ch.toUInt8 = false ∧ ch.toUInt8 ≠ byte '[' := by
  have hne : ∀ b : UInt8, isPlainKeyUnit b.toUInt16 = false → ch.toUInt8 ≠ b :=
    fun b hb => isPlainKeyUnit_ne h hb
  simp only [isSpecial, isSpace, Bool.or_eq_false_iff, beq_eq_false_iff_ne, ne_eq]
  exact ⟨⟨⟨⟨⟨⟨hne _ (by decide), hne _ (by decide)⟩, hne _ (by decide)⟩, hne _ (by decide)⟩,
    hne _ (by decide)⟩, hne _ (by decide)⟩, ⟨⟨⟨hne _ (by decide), hne _ (by decide)⟩,
    hne _ (by decide)⟩, hne _ (by decide)⟩, hne _ (by decide)⟩

/-- A key without a slash has only ordinary bytes, none of them a space or a bracket. -/
theorem escapeKeyUnit_ordinary {ch : UInt16} (h : ch ≠ slash) : ∀ b ∈ escapeKeyUnit ch,
    isSpecial b = false ∧ isSpace b = false ∧ b ≠ byte '[' := by
  have hd : ∀ n < 16, isSpecial (hexDigit n) = false ∧ isSpace (hexDigit n) = false ∧
      hexDigit n ≠ byte '[' := by decide
  have hn := ch.toNat_lt
  intro b hb
  unfold escapeKeyUnit at hb
  rw [if_neg h] at hb
  split at hb
  · rename_i hp
    rw [List.mem_singleton] at hb
    subst hb
    exact isPlainKeyUnit_ordinary hp
  · split at hb
    · rename_i hle
      have hle : ch.toNat ≤ 255 := UInt16.le_iff_toNat_le.mp hle
      simp only [List.mem_cons, List.not_mem_nil, or_false] at hb
      rcases hb with rfl | rfl | rfl
      · decide
      · exact hd _ (by omega)
      · exact hd _ (by omega)
    · simp only [List.mem_cons, List.not_mem_nil, or_false] at hb
      rcases hb with rfl | rfl | rfl | rfl | rfl | rfl
      · decide
      · decide
      all_goals exact hd _ (by omega)

theorem iniEscapedKey_ordinary {key : Str} (h : slash ∉ key) : ∀ b ∈ iniEscapedKey key,
    isSpecial b = false ∧ isSpace b = false ∧ b ≠ byte '[' := by
  intro b hb
  obtain ⟨ch, hch, hb⟩ := List.mem_flatMap.mp hb
  refine escapeKeyUnit_ordinary ?_ b hb
  rintro rfl
  exact h hch

theorem iniEscapedKey_ne_nil {key : Str} (h : key ≠ []) : iniEscapedKey key ≠ [] := by
  obtain ⟨ch, rest, rfl⟩ := List.exists_cons_of_ne_nil h
  unfold iniEscapedKey
  rw [List.flatMap_cons]
  have : escapeKeyUnit ch ≠ [] := by
    unfold escapeKeyUnit
    split
    · simp
    split
    · simp
    split <;> simp
  simp [this]

/-! ## Lines and line ends -/

/-- Only line ends. -/
def Eols (ws : Bytes) : Prop := ∀ b ∈ ws, b = 10

/-- The data ends, or a line does. -/
def AtEol (tl : Bytes) : Prop := tl = [] ∨ ∃ rest, tl = 10 :: rest

theorem readLoop_skip : ∀ (ws : Bytes) (st : LineState) (tl : Bytes), Eols ws →
    readLoop (.skipSpaces, st) (ws ++ tl) =
      readLoop (.skipSpaces, { st with skipped := st.skipped ++ ws }) tl
  | [], st, tl, _ => by simp
  | b :: ws, st, tl, h => by
    have hb := h b List.mem_cons_self
    subst hb
    have hstep : lineByte (.skipSpaces, st) 10 = some (.skipSpaces, st.skip 10) := rfl
    rw [List.cons_append, readLoop, hstep]
    simp only
    rw [readLoop_skip ws _ tl fun b hb => h b (List.mem_cons_of_mem _ hb)]
    simp [LineState.skip]

/-- `line` is read as one line, with that `equalsPos`, behind any line ends. -/
def LineText (line : Bytes) (equalsPos : Option Nat) : Prop :=
  line ≠ [] ∧ ∀ ws tl, Eols ws → AtEol tl →
    readIniLine (ws ++ (line ++ tl)) = (⟨ws, line, equalsPos, false⟩, tl)

/-- The end of a line. -/
theorem readLoop_atEol {st : LineState} {tl : Bytes} (hl : st.line ≠ []) (hq : st.inQuotes = false)
    (ht : AtEol tl) : readLoop (.scan, st) tl = (st, tl) := by
  rcases ht with rfl | ⟨rest, rfl⟩
  · rfl
  · have hstep : lineByte (.scan, st) 10 = none := by
      simp [lineByte, scanByte, isSpecial, isEol, hl, hq]
    rw [readLoop, hstep]

/-- A line whose bytes can be read from its first byte on, and end outside of quotes. -/
theorem lineText_of {b : UInt8} {line : Bytes} {equalsPos : Option Nat} (hb : isSpace b = false)
    (hrun : ∀ ws, lineRun (.scan, ⟨ws, [], none, false⟩) (b :: line) =
      some (.scan, ⟨ws, b :: line, equalsPos, false⟩)) : LineText (b :: line) equalsPos := by
  refine ⟨by simp, fun ws tl hws htl => ?_⟩
  unfold readIniLine
  rw [readLoop_skip ws _ _ hws]
  -- the first byte is no space: skipping ends
  have hfirst : readLoop (.skipSpaces, ⟨ws, [], none, false⟩) (b :: line ++ tl) =
      readLoop (.scan, ⟨ws, [], none, false⟩) (b :: line ++ tl) := by
    simp only [List.cons_append, readLoop, lineByte, hb, Bool.false_eq_true, if_false]
  simp only [List.nil_append]
  rw [hfirst, readLoop_append _ tl (hrun ws), readLoop_atEol (by simp) rfl htl]

def entryLine (key : Str) (text : Bytes) : Bytes := iniEscapedKey key ++ [byte '='] ++ text

theorem lineText_entry {key : Str} {text : Bytes} (hne : key ≠ []) (hkey : slash ∉ key)
    (ht : Safe text) : LineText (entryLine key text) (some (iniEscapedKey key).length) := by
  have hord := iniEscapedKey_ordinary hkey
  have hfirst := iniEscapedKey_ne_nil hne
  unfold entryLine
  generalize iniEscapedKey key = k at hord hfirst
  obtain ⟨b, k, rfl⟩ := List.exists_cons_of_ne_nil hfirst
  refine lineText_of (hord b List.mem_cons_self).2.1 fun ws => ?_
  have hk := lineRun_ordinary (b :: k) ⟨ws, [], none, false⟩ fun b hb => (hord b hb).1
  have heq : lineRun (.scan, ⟨ws, b :: k, none, false⟩) [byte '='] =
      some (.scan, ⟨ws, b :: k ++ [byte '='], some (b :: k).length, false⟩) := by
    simp [lineRun, lineByte, scanByte, isSpecial, LineState.push]
  have hin : InValue ⟨ws, b :: k ++ [byte '='], some (b :: k).length, false⟩ :=
    ⟨by simp, by simp⟩
  change lineRun _ ((b :: k) ++ [byte '='] ++ text) =
    some (_, ⟨_, (b :: k) ++ [byte '='] ++ text, _, _⟩)
  rw [List.append_assoc, lineRun_append hk]
  simp only [LineState.append, List.nil_append]
  rw [lineRun_append heq, ht _ hin rfl]
  simp [LineState.append]

theorem lineText_general : LineText (lit "[General]") none := by
  refine lineText_of (b := byte '[') (by decide) fun ws => ?_
  exact lineRun_ordinary _ ⟨ws, [], none, false⟩ (ordinary_of_all (by decide))

/-- Text put together from lines and line ends. -/
inductive Lines : Bytes → List LineState → Bytes → Prop
  | nil (ws : Bytes) : Eols ws → Lines ws [] ws
  | cons {ws line rest tl : Bytes} {equalsPos : Option Nat} {ls : List LineState} :
    Eols ws → LineText line equalsPos → AtEol rest → Lines rest ls tl →
    Lines (ws ++ (line ++ rest)) (⟨ws, line, equalsPos, false⟩ :: ls) tl

theorem Lines.iniLines {data tl : Bytes} {ls : List LineState} (h : Lines data ls tl) :
    iniLines data = (ls, tl) := by
  induction h with
  | nil ws hws =>
    have hr : readIniLine ws = (⟨ws, [], none, false⟩, []) := by
      have := readLoop_skip ws ⟨[], [], none, false⟩ [] hws
      rw [List.append_nil] at this
      rw [readIniLine, this]
      rfl
    rw [Settings.iniLines, hr]
    rfl
  | cons hws hline hrest _ ih =>
    rw [Settings.iniLines, hline.2 _ _ hws hrest]
    simp only [dif_neg hline.1, ih]

theorem Lines.length_le {data tl : Bytes} {ls : List LineState} (h : Lines data ls tl) :
    tl.length ≤ data.length := by
  induction h with
  | nil => exact Nat.le_refl _
  | cons _ _ _ _ ih =>
    rw [List.length_append, List.length_append]
    omega

/-- A line end more. -/
theorem Lines.eol {data tl : Bytes} {ls : List LineState} (h : Lines data ls tl) :
    Lines (data ++ [10]) ls (tl ++ [10]) := by
  induction h with
  | nil ws hws =>
    refine .nil _ fun b hb => ?_
    rcases List.mem_append.mp hb with hb | hb
    · exact hws b hb
    · exact List.mem_singleton.mp hb
  | cons hws hline hrest _ ih =>
    rw [List.append_assoc, List.append_assoc]
    refine .cons hws hline ?_ ih
    rcases hrest with rfl | ⟨rest, rfl⟩
    · exact .inr ⟨[], rfl⟩
    · exact .inr ⟨_, rfl⟩

/-- A line more, behind a line end or at the start. -/
theorem Lines.line {data tl line : Bytes} {ls : List LineState} {equalsPos : Option Nat}
    (h : Lines data ls tl) (hl : LineText line equalsPos) (ht : tl ≠ [] ∨ ls = []) :
    Lines (data ++ line) (ls ++ [⟨tl, line, equalsPos, false⟩]) [] := by
  induction h with
  | nil ws hws =>
    have := Lines.cons hws hl (.inl rfl) (.nil [] (by simp [Eols]))
    simpa using this
  | @cons ws line' rest tl equalsPos' ls' hws hline hrest hls ih =>
    have htl : tl ≠ [] := ht.resolve_right (by simp)
    rw [List.append_assoc, List.append_assoc]
    refine .cons hws hline ?_ (ih (.inl htl))
    rcases hrest with rfl | ⟨rest, rfl⟩
    · have := hls.length_le
      exact absurd (List.length_eq_zero_iff.mp (Nat.le_zero.mp this)) htl
    · exact .inr ⟨_, rfl⟩

end Libpdk.Settings

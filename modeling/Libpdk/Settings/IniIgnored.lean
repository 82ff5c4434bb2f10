import Libpdk.Settings.IniKeyReadings
import Libpdk.Settings.IniParsed

/-!
# Comments, blank lines and leading blanks

The reader skips blanks only where a line begins with `readIniLine`. A comment ends in the middle
of the loop, and the blanks behind its line end belong to the next line. What a comment line, a
blank line or leading blanks between two lines change is decided by the mode the reader is in there
and by how the rest begins (`Ignored`, `ignored_iff`).
-/
namespace Libpdk.Settings

/-- A space or a tab. -/
def isBlankByte (b : UInt8) : Bool := b == byte ' ' || b == 9

/-- What ends a line outside of quotes. -/
def endsLine (b : UInt8) : Bool := isEol b || b == byte ';'

/-- There is no line at all in front of the next line end or comment. -/
def lineless : Bytes → Bool
  | [] => true
  | b :: _ => endsLine b

/-- What a reader of INI data should ignore between two lines. -/
inductive Piece where
  | comment (text eol : Bytes)
  | blankLine (blanks eol : Bytes)
  | indent (blanks : Bytes)

def Piece.bytes : Piece → Bytes
  | .comment text eol => byte ';' :: text ++ eol
  | .blankLine blanks eol => blanks ++ eol
  | .indent blanks => blanks

/-- A line end in one of its spellings, or several of them. -/
def IsEol (eol : Bytes) : Prop := eol ≠ [] ∧ ∀ b ∈ eol, isEol b = true

/-- Blanks are those in front of a key or of a section header. -/
def Piece.Fits : Piece → Bytes → Prop
  | .comment text eol, _ => (∀ b ∈ text, isEol b = false) ∧ IsEol eol
  | .blankLine blanks eol, _ => (∀ b ∈ blanks, isBlankByte b = true) ∧ IsEol eol
  | .indent blanks, after => (∀ b ∈ blanks, isBlankByte b = true) ∧
    ∃ b rest, after = b :: rest ∧ isBlankByte b = false ∧ endsLine b = false

/-- The same line with more in front. -/
def LineState.indent (st : LineState) (ws : Bytes) : LineState :=
  { st with line := ws ++ st.line, equalsPos := st.equalsPos.map (ws.length + ·) }

theorem indent_push (st : LineState) (ws : Bytes) (b : UInt8) :
    (st.indent ws).push b = (st.push b).indent ws := by
  simp [LineState.indent, LineState.push]

theorem scanByte_indent {st : LineState} {b : UInt8} (ws : Bytes)
    (h : st.line ≠ [] ∨ endsLine b = false) :
    scanByte (st.indent ws) b = (scanByte st b).map fun s => (s.1, s.2.indent ws) := by
  unfold scanByte
  split
  · rw [indent_push]
    rfl
  rename_i hspecial
  split
  · cases hq : st.inQuotes <;> cases he : st.equalsPos <;>
      simp [LineState.indent, LineState.push, hq, he]
  rename_i heq
  split
  · rename_i heol
    have hline : st.line ≠ [] := h.resolve_right (by simp [endsLine, heol])
    have hindent : (st.indent ws).line ≠ [] := by simp [LineState.indent, hline]
    rw [if_neg hline, if_neg hindent, indent_push]
    cases hq : st.inQuotes <;> simp [LineState.indent, hq]
  rename_i heol
  split
  · rw [indent_push]
    rfl
  rename_i hbs
  split
  · simp [LineState.indent, LineState.push]
  · rename_i hq
    have hb := isSpecial_semicolon (by simpa using hspecial) heq (by simpa using heol) hbs hq
    have hline : st.line ≠ [] := h.resolve_right (by simp [endsLine, hb])
    have hindent : (st.indent ws).line ≠ [] := by simp [LineState.indent, hline]
    rw [if_neg hline, if_neg hindent, indent_push]
    cases hq : st.inQuotes <;> simp [LineState.indent, hq]

theorem lineByte_indent {m : LineMode} {st : LineState} (ws : Bytes) (b : UInt8)
    (hm : m ≠ .skipSpaces ∧ m ≠ .comment) (hline : st.line ≠ []) :
    lineByte (m, st.indent ws) b = (lineByte (m, st) b).map fun s => (s.1, s.2.indent ws) := by
  have hscan := scanByte_indent (b := b) ws (.inl hline)
  cases m with
  | skipSpaces => exact absurd rfl hm.1
  | scan => exact hscan
  | escape =>
    simp only [lineByte, indent_push]
    rfl
  | escapeEol ch =>
    simp only [lineByte, indent_push, hscan]
    split <;> rfl
  | comment => exact absurd rfl hm.2

/-- Behind its first byte a line is not left before its end. -/
theorem inside_step {s s' : LineMode × LineState} {b : UInt8} (hs : Reached s)
    (hline : s.2.line ≠ []) (h : lineByte s b = some s') :
    (s'.1 ≠ .skipSpaces ∧ s'.1 ≠ .comment) ∧ s'.2.line = s.2.line ++ [b] ∧
      (s'.2.equalsPos = s.2.equalsPos ∨
        s.2.equalsPos = none ∧ s'.2.equalsPos = some s.2.line.length) := by
  have hturn := lineByte_turn hs b
  rw [h] at hturn
  cases hturn with
  | skips hnil => exact absurd hnil hline
  | takes hm _ hequals => exact ⟨hm, rfl, hequals⟩

theorem readLoop_indent (ws : Bytes) : ∀ (data : Bytes) {m : LineMode} {st : LineState},
    Reached (m, st) → st.line ≠ [] → readLoop (m, st.indent ws) data =
      ((readLoop (m, st) data).1.indent ws, (readLoop (m, st) data).2)
  | [], m, st, _, _ => rfl
  | b :: rest, m, st, hs, hline => by
    have hm : m ≠ .skipSpaces ∧ m ≠ .comment :=
      ⟨fun h => hline (hs.empty (.inl h)), fun h => hline (hs.empty (.inr h))⟩
    rw [readLoop, readLoop, lineByte_indent ws b hm hline]
    cases h : lineByte (m, st) b with
    | none => rfl
    | some s =>
      obtain ⟨-, hpush, -⟩ := inside_step hs hline h
      exact readLoop_indent ws rest (hs.step h) (by simp [hpush])

/-- The line only grows, and the first equals sign is kept. -/
theorem readLoop_inside : ∀ (data : Bytes) {s : LineMode × LineState}, Reached s → s.2.line ≠ [] →
    (∃ more, (readLoop s data).1.line = s.2.line ++ more) ∧
    (∀ e, s.2.equalsPos = some e → (readLoop s data).1.equalsPos = some e) ∧
    (s.2.equalsPos = none → ∀ e, (readLoop s data).1.equalsPos = some e → s.2.line.length ≤ e)
  | [], s, _, _ => ⟨⟨[], (List.append_nil _).symm⟩, fun _ h => h, fun h e he => by
    rw [readLoop, h] at he
    cases he⟩
  | b :: rest, s, hs, hline => by
    rw [readLoop]
    cases h : lineByte s b with
    | none =>
      refine ⟨⟨[], (List.append_nil _).symm⟩, fun _ h => h, fun h e he => ?_⟩
      simp only [h] at he
      cases he
    | some s' =>
      obtain ⟨-, hpush, hequals⟩ := inside_step hs hline h
      obtain ⟨⟨more, hmore⟩, hkeep, hlater⟩ :=
        readLoop_inside rest (hs.step h) (by simp [hpush])
      refine ⟨⟨b :: more, ?_⟩, fun e he => ?_, fun hnone e he => ?_⟩
      · rw [hmore, hpush, List.append_assoc]
        rfl
      · refine hkeep e ?_
        rcases hequals with hequals | ⟨hnone, -⟩
        · rw [hequals, he]
        · rw [he] at hnone
          cases hnone
      · rcases hequals with hequals | ⟨-, hequals⟩
        · have := hlater (by rw [hequals, hnone]) e he
          rw [hpush, List.length_append] at this
          omega
        · have hsome := hkeep _ hequals
          rw [hsome, Option.some.injEq] at he
          omega

/-! ## The equals sign of a line -/

theorem readLoop_cons {s s' : LineMode × LineState} {b : UInt8} {rest : Bytes}
    (h : lineByte s b = some s') : readLoop s (b :: rest) = readLoop s' rest := by
  rw [readLoop, h]

theorem endsLine_false {b : UInt8} (h : endsLine b = false) : b ≠ byte ';' ∧ isEol b = false := by
  rw [endsLine, Bool.or_eq_false_iff, beq_eq_false_iff_ne] at h
  exact ⟨h.2, h.1⟩

theorem isSpace_eol {b : UInt8} (h : isEol b = true) : isSpace b = true := by
  simp only [isEol, Bool.or_eq_true, beq_iff_eq] at h
  rcases h with rfl | rfl <;> rfl

theorem isSpecial_false {b : UInt8} (hbs : b ≠ 0x5C) (hquote : b ≠ 0x22) (heq : b ≠ byte '=')
    (hends : endsLine b = false) : isSpecial b = false := by
  unfold isSpecial
  unfold endsLine isEol at hends
  simp_all

theorem scanByte_ends {st : LineState} {b : UInt8} (hends : endsLine b = true)
    (hline : st.line ≠ []) (hq : st.inQuotes = false) : scanByte st b = none := by
  simp only [endsLine, isEol, Bool.or_eq_true, beq_iff_eq] at hends
  rcases hends with (rfl | rfl) | rfl <;>
    simp [scanByte, isSpecial, isEol, hline, hq]

/-- The first byte of a line. -/
theorem scanByte_first {b : UInt8} (hb : endsLine b = false) : ∃ m inQuotes,
    lineByte (opening .scan) b =
      some (m, ⟨[], [b], if b = byte '=' then some 0 else none, inQuotes⟩) := by
  by_cases hbs : b = 0x5C
  · rw [hbs]
    exact ⟨.escape, false, rfl⟩
  by_cases hquote : b = 0x22
  · rw [hquote]
    exact ⟨.scan, true, rfl⟩
  by_cases heq : b = byte '='
  · rw [heq]
    exact ⟨.scan, false, rfl⟩
  · refine ⟨.scan, false, ?_⟩
    rw [if_neg heq]
    exact scanByte_ordinary (isSpecial_false hbs hquote heq hb)

theorem readLoop_first {b : UInt8} (rest : Bytes) (hb : endsLine b = false) :
    (∃ more, (readLoop (opening .scan) (b :: rest)).1.line = b :: more) ∧
    ((readLoop (opening .scan) (b :: rest)).1.equalsPos = some 0 ↔ b = byte '=') := by
  obtain ⟨m, inQuotes, h⟩ := scanByte_first hb
  have hs := (reached_opening (.inr (.inl rfl))).step h
  obtain ⟨⟨more, hmore⟩, hkeep, hlater⟩ := readLoop_inside rest hs (by simp)
  rw [readLoop_cons h]
  refine ⟨⟨more, hmore⟩, ?_⟩
  by_cases heq : b = byte '='
  · exact iff_of_true (hkeep 0 (if_pos heq)) heq
  · refine iff_of_false (fun h0 => ?_) heq
    have := hlater (if_neg heq) 0 h0
    simp at this

/-- A line that begins behind other bytes of it. -/
theorem readLoop_indentFirst (ws : Bytes) {b : UInt8} (rest : Bytes) (hb : endsLine b = false) :
    readLoop (.scan, (opening .scan).2.indent ws) (b :: rest) =
      ((readLoop (opening .scan) (b :: rest)).1.indent ws,
        (readLoop (opening .scan) (b :: rest)).2) := by
  obtain ⟨m, inQuotes, hfirst⟩ := scanByte_first hb
  have hs := (reached_opening (.inr (.inl rfl))).step hfirst
  have hscan : scanByte (opening .scan).2 b = _ := hfirst
  have hindent : scanByte ((opening .scan).2.indent ws) b = _ := scanByte_indent ws (.inr hb)
  rw [hscan, Option.map_some] at hindent
  have hfirst' : lineByte (.scan, (opening .scan).2.indent ws) b = _ := hindent
  rw [readLoop_cons hfirst', readLoop_cons hfirst]
  exact readLoop_indent ws rest hs (by simp)

/-- Nothing is left of a line in front of a line end or a comment. -/
theorem readLoop_lineless {ws rest : Bytes} (hne : ws ≠ []) (hrest : lineless rest = true) :
    readLoop (.scan, (opening .scan).2.indent ws) rest = ((opening .scan).2.indent ws, rest) := by
  have hline : ((opening .scan).2.indent ws).line ≠ [] := by simp [opening, LineState.indent, hne]
  cases rest with
  | nil => rfl
  | cons b rest =>
    have hnone : lineByte (.scan, (opening .scan).2.indent ws) b = none :=
      scanByte_ends hrest hline rfl
    rw [readLoop, hnone]

theorem rdropWhile_append {p : UInt8 → Bool} (ws : Bytes) {l : Bytes} {b : UInt8} (hb : b ∈ l)
    (hp : p b = false) : (ws ++ l).rdropWhile p = ws ++ l.rdropWhile p := by
  have hne : (l.reverse.dropWhile p).isEmpty = false := by
    rw [List.isEmpty_eq_false_iff]
    intro hnil
    have := List.dropWhile_eq_nil_iff.mp hnil b (List.mem_reverse.mpr hb)
    rw [hp] at this
    cases this
  unfold List.rdropWhile
  rw [List.reverse_append, List.dropWhile_append, hne, if_neg Bool.false_ne_true, List.reverse_append,
    List.reverse_reverse]

theorem keyOf_indent {b : UInt8} {more : Bytes} (ws : Bytes) (hb : isBlankByte b = false)
    (e : Nat) :
    keyOf (ws ++ b :: more) (ws.length + (e + 1)) = ws ++ keyOf (b :: more) (e + 1) := by
  unfold keyOf
  rw [List.take_length_add_append]
  exact rdropWhile_append ws (List.mem_cons_self (l := more.take e)) hb

theorem isBlankByte_ne {b c : UInt8} (h : isBlankByte b = true) (hc : isBlankByte c = false) :
    b ≠ c := by
  rintro rfl
  rw [h] at hc
  cases hc

theorem iniUnescapedKey_blanks (rest : Bytes) : ∀ {ws : Bytes}, (∀ b ∈ ws, isBlankByte b = true) →
    (iniUnescapedKey (ws ++ rest)).length = ws.length + (iniUnescapedKey rest).length
  | [], _ => (Nat.zero_add _).symm
  | b :: ws, h => by
    have hb := h b List.mem_cons_self
    have ih := iniUnescapedKey_blanks rest fun c hc => h c (List.mem_cons_of_mem b hc)
    rw [List.cons_append, iniUnescapedKey_ordinary _ (isBlankByte_ne hb (by decide))
      (isBlankByte_ne hb (by decide)), List.length_cons, List.length_cons, ih]
    omega

theorem readLoop_open {b : UInt8} (rest : Bytes) (hb : isSpace b = false) :
    readLoop (opening .skipSpaces) (b :: rest) = readLoop (opening .scan) (b :: rest) := by
  have hsame : lineByte (opening .skipSpaces) b = lineByte (opening .scan) b := by
    simp only [opening, lineByte, hb, Bool.false_eq_true, if_false]
  rw [readLoop, readLoop, hsame]
  rfl

theorem isSpace_blank {b : UInt8} (h : isBlankByte b = true) : isSpace b = true := by
  simp only [isBlankByte, Bool.or_eq_true, beq_iff_eq] at h
  rcases h with rfl | rfl <;> rfl

theorem isSpace_false {b : UInt8} (h : isBlankByte b = false) (he : isEol b = false) :
    isSpace b = false := by
  unfold isSpace
  unfold isBlankByte at h
  unfold isEol at he
  simp_all

theorem isBlankByte_ordinary {b : UInt8} (h : isBlankByte b = true) : isSpecial b = false := by
  simp only [isBlankByte, Bool.or_eq_true, beq_iff_eq] at h
  rcases h with rfl | rfl <;> rfl

theorem iniUnescapedKey_plain : ∀ {key : Bytes},
    key.all (fun b => b != 0x5C && b != byte '%') = true →
    iniUnescapedKey key = key.map UInt8.toUInt16
  | [], _ => by rw [iniUnescapedKey, List.map_nil]
  | b :: key, h => by
    simp only [List.all_cons, Bool.and_eq_true, bne_iff_ne] at h
    rw [iniUnescapedKey_ordinary key h.1.1 h.1.2, List.map_cons, iniUnescapedKey_plain h.2]

end Libpdk.Settings

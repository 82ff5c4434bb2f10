import Libpdk.Settings.IniCodecFile
import Libpdk.Settings.IniIgnored

/-!
# A file with a byte-order mark

The data of the first section begins with the mark, and `readIniSection` reads it as the
beginning of a line. Where the first line has an equals sign, its key begins with the
mark; where there is no such line, the mark is a line without an equals sign.

Behind a mark the loop of `readIniFile` finds the same sections, the first one with the
mark in front of its data (`Marked`). So the file with the mark and the one without read
alike only by accident (`MarkHarmless`).
-/
namespace Libpdk.Settings

open Codecs

/-- The key on the first line of a section, as it is and with the mark in front. There is
none where only a line end or a comment follows the blanks at the beginning. -/
def firstKeys (data : Bytes) : Option (Str × Str) :=
  let ln := (readIniLine data).1
  if ln.skipped.all isBlankByte then
    ln.equalsPos.map fun e => (iniUnescapedKey (keyOf ln.line e),
      iniUnescapedKey (keyOf (byteOrderMark ++ ln.skipped ++ ln.line)
        ((byteOrderMark ++ ln.skipped).length + e)))
  else none

/-- Every line of the section has an equals sign. -/
def allKeyed (data : Bytes) : Bool := (iniLines data).1.all fun ln => ln.equalsPos.isSome

/-! ## Spaces in front -/

theorem linesFrom_behind (ws : Bytes) (m : LineMode) (st : LineState) (data : Bytes) :
    (linesFrom (m, st.behind ws) data).1 =
      (linesFrom (m, st) data).1.modifyHead (·.behind ws) := by
  unfold linesFrom
  rw [readLoop_behind]
  have hline : ((readLoop (m, st) data).1.behind ws).line = (readLoop (m, st) data).1.line := rfl
  simp only [hline]
  split <;> rfl

theorem readLoop_space {b : UInt8} (rest : Bytes) (hb : isSpace b = true) (ws : Bytes) :
    readLoop (.skipSpaces, (opening .skipSpaces).2.behind ws) (b :: rest) =
      readLoop (.skipSpaces, (opening .skipSpaces).2.behind (ws ++ [b])) rest := by
  refine readLoop_cons ?_
  simp only [lineByte, hb, if_true]
  simp [LineState.skip, LineState.behind, opening]

theorem readLoop_spaces (rest : Bytes) : ∀ {ws : Bytes} (before : Bytes),
    (∀ b ∈ ws, isSpace b = true) →
    readLoop (.skipSpaces, (opening .skipSpaces).2.behind before) (ws ++ rest) =
      readLoop (.skipSpaces, (opening .skipSpaces).2.behind (before ++ ws)) rest
  | [], before, _ => by rw [List.append_nil, List.nil_append]
  | b :: ws, before, h => by
    have hws : ∀ c ∈ ws, isSpace c = true := fun c hc => h c (List.mem_cons_of_mem b hc)
    have ih := readLoop_spaces rest (before ++ [b]) hws
    rw [List.cons_append, readLoop_space _ (h b List.mem_cons_self), ih, List.append_assoc]
    rfl

theorem readIniLine_spaces (rest : Bytes) {ws : Bytes} (h : ∀ b ∈ ws, isSpace b = true) :
    readIniLine (ws ++ rest) = ((readIniLine rest).1.behind ws, (readIniLine rest).2) := by
  have hread := readLoop_spaces rest [] h
  rw [List.nil_append, readLoop_behind ws rest] at hread
  exact hread

theorem iniLines_spaces (rest : Bytes) {ws : Bytes} (h : ∀ b ∈ ws, isSpace b = true) :
    (iniLines (ws ++ rest)).1 = (iniLines rest).1.modifyHead (·.behind ws) := by
  have hread : readLoop (opening .skipSpaces) (ws ++ rest) = _ := readIniLine_spaces rest h
  rw [iniLines_eq, iniLines_eq, ← linesFrom_behind]
  unfold linesFrom
  rw [hread, readLoop_behind]
  rfl

section

variable (codec : Option Codec) (sectionKey : Str)

theorem filterMap_modifyHead (ws : Bytes) (lines : List LineState) :
    (lines.modifyHead (·.behind ws)).filterMap (lineEntry codec sectionKey) =
      lines.filterMap (lineEntry codec sectionKey) := by
  cases lines <;> rfl

theorem all_modifyHead (ws : Bytes) (lines : List LineState) :
    ((lines.modifyHead (·.behind ws)).all fun ln => ln.equalsPos.isSome) =
      lines.all fun ln => ln.equalsPos.isSome := by
  cases lines <;> rfl

/-- Spaces in front of a section make no difference. -/
theorem section_spaces (rest : Bytes) {ws : Bytes} (h : ∀ b ∈ ws, isSpace b = true) :
    sectionEntries codec sectionKey (ws ++ rest) = sectionEntries codec sectionKey rest ∧
      allKeyed (ws ++ rest) = allKeyed rest := by
  unfold sectionEntries allKeyed
  rw [iniLines_spaces rest h, filterMap_modifyHead, all_modifyHead]
  exact ⟨rfl, rfl⟩

/-! ## The mark -/

theorem readLoop_mark (rest : Bytes) {ws : Bytes} (hws : ∀ b ∈ ws, isBlankByte b = true) :
    readLoop (opening .skipSpaces) (byteOrderMark ++ (ws ++ rest)) =
      readLoop (.scan, (opening .scan).2.indent (byteOrderMark ++ ws)) rest := by
  have hmark : readLoop (opening .skipSpaces) (byteOrderMark ++ (ws ++ rest)) =
      readLoop (.scan, (opening .scan).2.indent byteOrderMark) (ws ++ rest) := rfl
  have hrun := lineRun_ordinary ws ((opening .scan).2.indent byteOrderMark)
    fun b hb => isBlankByte_ordinary (hws b hb)
  have happend : ((opening .scan).2.indent byteOrderMark).append ws =
      (opening .scan).2.indent (byteOrderMark ++ ws) := by
    simp [opening, LineState.append, LineState.indent]
  rw [hmark, readLoop_append ws rest hrun, happend]

theorem iniLines_cons {data : Bytes} (h : (readLoop (opening .skipSpaces) data).1.line ≠ []) :
    (iniLines data).1 = (readLoop (opening .skipSpaces) data).1 ::
      (iniLines (readLoop (opening .skipSpaces) data).2).1 :=
  congrArg Prod.fst (iniLines_step rfl h)

/-- In front of a line end or a comment the mark is a line of its own. -/
theorem iniLines_mark_lineless {ws rest : Bytes} (hws : ∀ b ∈ ws, isBlankByte b = true)
    (hrest : lineless rest = true) :
    (iniLines (byteOrderMark ++ (ws ++ rest))).1 =
      (opening .scan).2.indent (byteOrderMark ++ ws) :: (iniLines rest).1 := by
  have hne : byteOrderMark ++ ws ≠ [] := by simp [byteOrderMark]
  have hread := (readLoop_mark rest hws).trans (readLoop_lineless hne hrest)
  rw [iniLines_cons (by rw [hread]; simp [LineState.indent, byteOrderMark]), hread]

/-- Nothing is skipped any more once the line has begun. -/
theorem readLoop_skipped : ∀ (data : Bytes) {s : LineMode × LineState}, Reached s → s.2.line ≠ [] →
    (readLoop s data).1.skipped = s.2.skipped
  | [], _, _, _ => rfl
  | b :: rest, s, hs, hline => by
    have hturn := lineByte_turn hs b
    rw [readLoop]
    cases h : lineByte s b with
    | none => rfl
    | some s' =>
      have hs' := hs.step h
      rw [h] at hturn
      cases hturn with
      | skips hnil => exact absurd hnil hline
      | takes => exact readLoop_skipped rest hs' (by simp [LineState.push])

theorem skipped_first {b : UInt8} (rest : Bytes) (hb : endsLine b = false) :
    (readLoop (opening .scan) (b :: rest)).1.skipped = [] := by
  obtain ⟨m, inQuotes, h⟩ := scanByte_first hb
  have hs := (reached_opening (.inr (.inl rfl))).step h
  rw [readLoop_cons h]
  exact readLoop_skipped rest hs (by simp)

/-- In front of a line it is the beginning of it. -/
theorem iniLines_mark_line {ws : Bytes} {b : UInt8} (rest : Bytes)
    (hws : ∀ b ∈ ws, isBlankByte b = true) (hb : isBlankByte b = false)
    (hends : endsLine b = false) :
    (iniLines (byteOrderMark ++ (ws ++ b :: rest))).1 =
        (readIniLine (b :: rest)).1.indent (byteOrderMark ++ ws) ::
          (iniLines (readIniLine (b :: rest)).2).1 ∧
      (iniLines (b :: rest)).1 =
        (readIniLine (b :: rest)).1 :: (iniLines (readIniLine (b :: rest)).2).1 := by
  have hopen : readIniLine (b :: rest) = readLoop (opening .scan) (b :: rest) :=
    readLoop_open rest (isSpace_false hb (endsLine_false hends).2)
  have hread := (readLoop_mark (b :: rest) hws).trans
    (readLoop_indentFirst (byteOrderMark ++ ws) rest hends)
  rw [← hopen] at hread
  obtain ⟨⟨more, hmore⟩, -⟩ := readLoop_first rest hends
  rw [← hopen] at hmore
  refine ⟨?_, ?_⟩
  · rw [iniLines_cons (by rw [hread]; simp [LineState.indent, byteOrderMark]), hread]
  · have hline : (readLoop (opening .skipSpaces) (b :: rest)).1.line ≠ [] := by
      intro hnil
      have hmore : (readLoop (opening .skipSpaces) (b :: rest)).1.line = b :: more := hmore
      rw [hnil] at hmore
      cases hmore
    exact iniLines_cons hline

/-! ## What a section says behind the mark -/

theorem firstKeys_lineless {ws rest : Bytes} (hws : ∀ b ∈ ws, isBlankByte b = true)
    (hrest : lineless rest = true) : firstKeys (ws ++ rest) = none := by
  have hread := readIniLine_spaces rest fun b hb => isSpace_blank (hws b hb)
  unfold firstKeys
  simp only [hread]
  cases rest with
  | nil => simp [readIniLine, readLoop, LineState.behind]
  | cons b rest =>
    rw [if_neg]
    intro hall
    have hb : isBlankByte b = false := by
      simp only [lineless, endsLine, isEol, Bool.or_eq_true, beq_iff_eq] at hrest
      rcases hrest with (rfl | rfl) | rfl <;> rfl
    obtain ⟨m, hskip⟩ : ∃ m, lineByte (opening .skipSpaces) b =
        some (m, (opening .skipSpaces).2.behind [b]) := by
      simp only [lineless, endsLine, isEol, Bool.or_eq_true, beq_iff_eq] at hrest
      rcases hrest with (rfl | rfl) | rfl
      · exact ⟨.skipSpaces, rfl⟩
      · exact ⟨.skipSpaces, rfl⟩
      · exact ⟨.comment, rfl⟩
    have hfirst : readLoop (opening .skipSpaces) (b :: rest) =
      readLoop (m, (opening .skipSpaces).2.behind [b]) rest := readLoop_cons hskip
    have hline : readIniLine (b :: rest) = _ := hfirst.trans (readLoop_behind [b] rest m _)
    rw [hline] at hall
    simp [LineState.behind, hb] at hall

theorem iniUnescapedKey_mark (rest : Bytes) :
    iniUnescapedKey (byteOrderMark ++ rest) = latin1 byteOrderMark ++ iniUnescapedKey rest := by
  unfold byteOrderMark
  simp only [List.cons_append, List.nil_append]
  rw [iniUnescapedKey_ordinary _ (by decide) (by decide),
    iniUnescapedKey_ordinary _ (by decide) (by decide),
    iniUnescapedKey_ordinary _ (by decide) (by decide)]
  rfl

/-- The mark is a part of the key. -/
theorem keyOf_mark {ws more : Bytes} {b : UInt8} (hws : ∀ b ∈ ws, isBlankByte b = true)
    (hb : isBlankByte b = false) (e : Nat) :
    iniUnescapedKey (keyOf (b :: more) e) ≠ iniUnescapedKey
      (keyOf (byteOrderMark ++ ws ++ b :: more) ((byteOrderMark ++ ws).length + e)) := by
  intro h
  have hlen := congrArg List.length h
  cases e with
  | zero =>
    have hkey : keyOf (byteOrderMark ++ ws ++ b :: more) (byteOrderMark ++ ws).length =
        [0xEF, 0xBB] ++ (0xBF :: ws).rdropWhile fun b => b == byte ' ' || b == 9 := by
      rw [keyOf, List.take_left]
      exact rdropWhile_append [0xEF, 0xBB] (List.mem_cons_self (l := ws)) (by decide)
    rw [Nat.add_zero, hkey, List.cons_append,
      iniUnescapedKey_ordinary _ (by decide) (by decide)] at hlen
    simp [keyOf, List.rdropWhile, iniUnescapedKey] at hlen
  | succ e =>
    rw [keyOf_indent _ hb, List.append_assoc, iniUnescapedKey_mark, List.length_append,
      iniUnescapedKey_blanks _ hws] at hlen
    have hmark : (latin1 byteOrderMark).length = 3 := rfl
    omega

/-- A section behind the mark: without a key on the first line it assigns the same, and
one more line has no equals sign; else its first key is another one. -/
theorem section_mark (data : Bytes) :
    (firstKeys data = none ∧
        sectionEntries codec sectionKey (byteOrderMark ++ data) =
          sectionEntries codec sectionKey data ∧
        allKeyed (byteOrderMark ++ data) = false) ∨
      ∃ key key' value, firstKeys data = some (key, key') ∧ key ≠ key' ∧
        sectionEntries codec sectionKey data =
          (sectionKey ++ key, value) ::
            sectionEntries codec sectionKey (readIniLine data).2 ∧
        sectionEntries codec sectionKey (byteOrderMark ++ data) =
          (sectionKey ++ key', value) ::
            sectionEntries codec sectionKey (readIniLine data).2 ∧
        allKeyed (byteOrderMark ++ data) = allKeyed data := by
  have hws : ∀ b ∈ data.takeWhile isBlankByte, isBlankByte b = true :=
    fun _ hb => List.mem_takeWhile_imp hb
  have hsplit : data.takeWhile isBlankByte ++ data.dropWhile isBlankByte = data :=
    List.takeWhile_append_dropWhile
  have hhead := List.head?_dropWhile_not isBlankByte data
  generalize data.takeWhile isBlankByte = ws at hws hsplit
  generalize data.dropWhile isBlankByte = rest at hsplit hhead
  subst hsplit
  have hspaces : ∀ b ∈ ws, isSpace b = true := fun b hb => isSpace_blank (hws b hb)
  obtain ⟨hentries, hkeyed⟩ := section_spaces codec sectionKey rest hspaces
  by_cases hrest : lineless rest = true
  · -- a line end, a comment or nothing: the mark is a line of its own
    have hlines := iniLines_mark_lineless hws hrest
    refine .inl ⟨firstKeys_lineless hws hrest, ?_, ?_⟩
    · rw [hentries]
      unfold sectionEntries
      rw [hlines]
      rfl
    · unfold allKeyed
      rw [hlines]
      rfl
  · obtain ⟨b, rest, rfl⟩ : ∃ b tl, rest = b :: tl := by
      cases rest with
      | nil => exact absurd rfl hrest
      | cons b tl => exact ⟨b, tl, rfl⟩
    have hends : endsLine b = false := by simpa [lineless] using hrest
    have hb : isBlankByte b = false := by simpa using hhead
    obtain ⟨hmarked, hplain⟩ := iniLines_mark_line rest hws hb hends
    have hread := readIniLine_spaces (b :: rest) hspaces
    have hopen : readIniLine (b :: rest) = readLoop (opening .scan) (b :: rest) :=
      readLoop_open rest (isSpace_false hb (endsLine_false hends).2)
    obtain ⟨⟨more, hmore⟩, -⟩ := readLoop_first rest hends
    have hskipped := skipped_first rest hends
    rw [← hopen] at hmore hskipped
    have hkeys : firstKeys (ws ++ b :: rest) = (readIniLine (b :: rest)).1.equalsPos.map fun e =>
        (iniUnescapedKey (keyOf (b :: more) e),
          iniUnescapedKey
            (keyOf (byteOrderMark ++ ws ++ b :: more) ((byteOrderMark ++ ws).length + e))) := by
      have hall : ws.all isBlankByte = true := List.all_eq_true.mpr hws
      unfold firstKeys
      simp only [hread, LineState.behind, hskipped, hmore, List.append_nil]
      rw [if_pos hall]
    rw [hentries, hkeyed, hkeys, hread]
    unfold sectionEntries allKeyed
    rw [hmarked, hplain]
    cases he : (readIniLine (b :: rest)).1.equalsPos with
    | none =>
      have hplain : lineEntry codec sectionKey (readIniLine (b :: rest)).1 = none := by
        simp [lineEntry, he]
      have hmarked : lineEntry codec sectionKey
          ((readIniLine (b :: rest)).1.indent (byteOrderMark ++ ws)) = none := by
        simp [lineEntry, LineState.indent, he]
      refine .inl ⟨rfl, ?_, by simp [LineState.indent, he]⟩
      rw [List.filterMap_cons_none hplain, List.filterMap_cons_none hmarked]
    | some e =>
      have hvalue : (byteOrderMark ++ ws ++ b :: more).drop ((byteOrderMark ++ ws).length + e + 1) =
          (b :: more).drop (e + 1) := by rw [Nat.add_assoc, List.drop_length_add_append]
      refine .inr ⟨_, _, readValueCodec codec ((b :: more).drop (e + 1)), rfl,
        keyOf_mark hws hb e, ?_, ?_, ?_⟩
      · simp only [List.filterMap_cons, lineEntry, he, hmore, Option.map_some]
      · simp only [List.filterMap_cons, lineEntry, LineState.indent, he, hmore, Option.map_some,
          hvalue]
      · simp only [List.all_cons, LineState.indent, he, Option.map_some, Option.isSome_some]

end

/-! ## The loop over the lines -/

/-- Line ends in front of a section that begins with one, or nothing in front of it. -/
def BehindEols (x z : Bytes) : Prop :=
  ∃ eols : Bytes, (∀ b ∈ eols, isEol b = true) ∧ z = eols ++ x ∧ (eols = [] ∨ lineless x = true)

/-- The sections without the mark and with it. -/
structure MarkedSections (sections sections' : UnparsedSettingsMap) (x z : Bytes) : Prop where
  default : sections.find [] = some x
  marked : sections' = sections.insert [] (byteOrderMark ++ z)
  behind : BehindEols x z

/-- The variables of `readIniFile` without the mark and with it, in front of `data`. -/
inductive Marked (data : Bytes) : FileState → FileState → Prop
  | first (sectionData : Bytes) (ok : Bool) :
    Marked data ⟨[], sectionData, .empty, ok⟩ ⟨[], byteOrderMark ++ sectionData, .empty, ok⟩
  | later {name : Str} {sectionData x z : Bytes} {sections sections' : UnparsedSettingsMap}
      {ok : Bool} : MarkedSections sections sections' x z →
    lineless (sectionData ++ data) = true →
    Marked data ⟨name, sectionData, sections, ok⟩ ⟨name, sectionData, sections', ok⟩

theorem lineless_append {l : Bytes} (r : Bytes) (h : l ≠ []) : lineless (l ++ r) = lineless l := by
  cases l with
  | nil => exact absurd rfl h
  | cons b l => rfl

theorem lineless_left {l r : Bytes} (h : lineless (l ++ r) = true) : lineless l = true := by
  cases l with
  | nil => rfl
  | cons b l => exact h

/-- A line ends in front of a line end, of a comment or of nothing. -/
theorem readLoop_rest : ∀ (data : Bytes) {s : LineMode × LineState}, Reached s →
    lineless (readLoop s data).2 = true
  | [], _, _ => rfl
  | b :: rest, s, hs => by
    have hturn := lineByte_turn hs b
    rw [readLoop]
    cases h : lineByte s b with
    | some s' => exact readLoop_rest rest (hs.step h)
    | none =>
      rw [h] at hturn
      cases hturn with
      | ends _ _ hends =>
        simp only [lineless, endsLine, Bool.or_eq_true, beq_iff_eq]
        exact hends

theorem BehindEols.append {x z : Bytes} (h : BehindEols x z) (hx : x ≠ []) (more : Bytes) :
    BehindEols (x ++ more) (z ++ more) := by
  obtain ⟨eols, heols, rfl, hlineless⟩ := h
  refine ⟨eols, heols, List.append_assoc _ _ _, hlineless.imp_right fun hl => ?_⟩
  rw [lineless_append _ hx, hl]

/-- Flushing the current section, which begins with a line end or a comment if it is not
the first one. -/
theorem Marked.flush {data skipped : Bytes} {st st' : FileState} (h : Marked data st st')
    (hskipped : skipped <+: data) : ∃ x z, MarkedSections (st.flush skipped).unparsedIniSections
      (st'.flush skipped).unparsedIniSections x z := by
  cases h with
  | first sectionData ok =>
    refine ⟨sectionData ++ skipped, sectionData ++ skipped, ?_, ?_, [], nofun, rfl, .inl rfl⟩
    · simp [FileState.flush, OrdMap.find_insert]
    · simp [FileState.flush, OrdMap.insert_insert]
  | @later name sectionData x z sections sections' ok hs hopens =>
    obtain ⟨hdefault, rfl, hbehind⟩ := hs
    obtain ⟨rest, rfl⟩ := hskipped
    rw [← List.append_assoc] at hopens
    have hopens := lineless_left hopens
    by_cases hname : name = []
    · subst hname
      have hmark : byteOrderMark ++ z ≠ [] := by simp [byteOrderMark]
      have hflush : ∀ (y : Bytes) (m : UnparsedSettingsMap), m.find [] = some y →
          (FileState.flush ⟨[], sectionData, m, ok⟩ skipped).unparsedIniSections = m.insert []
            ((if y = [] then [] else y ++ [10]) ++ sectionData ++ skipped) := by
        intro y m hm
        simp only [FileState.flush, hm, Option.getD_some]
      rw [hflush x sections hdefault, hflush (byteOrderMark ++ z) _ (by simp [OrdMap.find_insert]),
        if_neg hmark]
      refine ⟨(if x = [] then [] else x ++ [10]) ++ sectionData ++ skipped,
        z ++ [10] ++ sectionData ++ skipped, ?_, ?_, ?_⟩
      · rw [OrdMap.find_insert, if_pos rfl]
      · simp only [OrdMap.insert_insert, List.append_assoc]
      · by_cases hx : x = []
        · obtain ⟨eols, heols, rfl, -⟩ := hbehind
          subst hx
          refine ⟨eols ++ [10], ?_, by simp, .inr (by simpa using hopens)⟩
          intro b hb
          rcases List.mem_append.mp hb with hb | hb
          · exact heols b hb
          · rw [List.mem_singleton.mp hb]
            rfl
        · rw [if_neg hx]
          have := hbehind.append hx ([10] ++ sectionData ++ skipped)
          simpa only [List.append_assoc] using this
    · refine ⟨x, z, ?_, ?_, hbehind⟩
      · simp only [FileState.flush]
        rw [OrdMap.find_insert, if_neg hname, hdefault]
      · have hne : ([] : Str) ≠ name := fun h => hname h.symm
        simp only [FileState.flush, OrdMap.find_insert, if_neg hne]
        exact OrdMap.insert_comm _ hne _ _

theorem fileLine_bracket {st : FileState} {ln : LineState} (h : ln.line.head? = some (byte '[')) :
    fileLine st ln = { st.flush ln.skipped with
      currentSection := currentSectionOf (iniSectionName ln.line)
      sectionData := []
      ok := st.ok && decide (byte ']' ∈ ln.line) } := if_pos h

theorem fileLine_other {st : FileState} {ln : LineState} (h : ln.line.head? ≠ some (byte '[')) :
    fileLine st ln = { st with sectionData := st.sectionData ++ ln.skipped ++ ln.line } := if_neg h

/-- One line. -/
theorem Marked.line {data rest : Bytes} {ln : LineState} {st st' : FileState}
    (h : Marked data st st') (hdata : ln.skipped ++ ln.line ++ rest = data)
    (hrest : lineless rest = true) : Marked rest (fileLine st ln) (fileLine st' ln) := by
  by_cases hhead : ln.line.head? = some (byte '[')
  · have hskipped : ln.skipped <+: data := ⟨ln.line ++ rest, by rw [← List.append_assoc, hdata]⟩
    obtain ⟨x, z, hs⟩ := h.flush hskipped
    have hok : st'.ok = st.ok := by cases h <;> rfl
    rw [fileLine_bracket hhead, fileLine_bracket hhead, hok]
    exact .later hs hrest
  · rw [fileLine_other hhead, fileLine_other hhead]
    cases h with
    | first sectionData ok =>
      simp only [List.append_assoc]
      exact .first _ ok
    | later hs hopens =>
      refine .later hs ?_
      rw [← hdata] at hopens
      simpa only [List.append_assoc] using hopens

/-- All of them, and the last section. -/
theorem Marked.lines (data : Bytes) : ∀ {st st' : FileState}, Marked data st st' →
    (∃ x z, MarkedSections
        (((iniLines data).1.foldl fileLine st).flush (iniLines data).2).unparsedIniSections
        (((iniLines data).1.foldl fileLine st').flush (iniLines data).2).unparsedIniSections x z) ∧
      ((iniLines data).1.foldl fileLine st).ok = ((iniLines data).1.foldl fileLine st').ok := by
  induction h : data.length using Nat.strongRecOn generalizing data with
  | ind n ih =>
    intro st st' hm
    have hopen : Reached (opening .skipSpaces) := reached_opening (.inl rfl)
    have hcovers := readLoop_covers data hopen
    have hend := readLoop_end data hopen
    have hrest := readLoop_rest data hopen
    rw [iniLines_eq, linesFrom]
    generalize readLoop (opening .skipSpaces) data = r at hcovers hend hrest
    simp only [opening, List.nil_append] at hcovers
    by_cases hline : r.1.line = []
    · rw [if_pos hline]
      rw [hline, hend hline, List.append_nil, List.append_nil] at hcovers
      refine ⟨hm.flush ⟨[], by rw [← hcovers, List.append_nil]⟩, ?_⟩
      cases hm <;> rfl
    · rw [if_neg hline]
      have hlen := congrArg List.length hcovers
      have hpos := List.length_pos_of_ne_nil hline
      simp only [List.length_append] at hlen
      exact ih r.2.length (by omega) r.2 rfl (hm.line hcovers hrest)

/-! ## All the sections -/

/-- The sections begin with the one without a name, once there is one. -/
theorem entries_default {sections : UnparsedSettingsMap} {x : Bytes}
    (h : sections.find [] = some x) : ∃ others, sections.entries = ([], x) :: others ∧
      (∀ e ∈ others, e.1 ≠ []) ∧ ∀ y, (sections.insert [] y).entries = ([], y) :: others := by
  obtain ⟨l, hs⟩ := sections
  have hmem := OrdMap.find_eq_some.mp h
  simp only at hmem
  cases l with
  | nil => cases hmem
  | cons e l =>
    obtain ⟨hlt, -⟩ := List.pairwise_cons.mp hs
    have he : e = ([], x) := by
      rcases List.mem_cons.mp hmem with rfl | hmem
      · rfl
      · exact absurd (hlt _ hmem) (List.not_lt_nil _)
    subst he
    refine ⟨l, rfl, fun e' he' hnil => ?_, fun y => ?_⟩
    · have := hlt e' he'
      rw [hnil] at this
      exact lt_irrefl _ this
    · simp only [OrdMap.insert, Assoc.insert]
      rw [if_neg (lt_irrefl _), if_pos trivial]

theorem foldl_parse (codec : Option Codec) : ∀ (l : List (Str × Bytes))
    (acc : ParsedSettingsMap × List (Str × Bool)),
    l.foldl (fun acc e =>
      let r := readIniSectionCodec codec e.1 e.2 acc.1
      (r.1, acc.2 ++ [(e.1, r.2)])) acc =
      (acc.1.insertAll (l.flatMap fun e => sectionEntries codec e.1 e.2),
        acc.2 ++ l.map fun e => (e.1, allKeyed e.2))
  | [], acc => by simp [OrdMap.insertAll]
  | e :: l, acc => by
    rw [List.foldl_cons, foldl_parse codec l, readIniSectionCodec_eq, List.flatMap_cons,
      OrdMap.insertAll_append, List.map_cons]
    simp [allKeyed]

/-- All the sections assign their entries, one section after the other. -/
theorem parseSections_eq (codec : Option Codec) (sections : UnparsedSettingsMap) :
    parseSections codec sections =
      (OrdMap.empty.insertAll (sections.entries.flatMap fun e => sectionEntries codec e.1 e.2),
        sections.entries.map fun e => (e.1, allKeyed e.2)) := by
  unfold parseSections
  rw [foldl_parse, List.nil_append]

/-! ## The mark -/

/-- The keys that a section assigns. -/
def sectionKeys (sectionKey : Str) (data : Bytes) : List Str :=
  (sectionEntries none sectionKey data).map Prod.fst

/-- The key is assigned behind the first line of the default section. -/
def AssignedLater (sections : UnparsedSettingsMap) (data : Bytes) (key : Str) : Prop :=
  key ∈ sectionKeys [] (readIniLine data).2 ∨
    ∃ e ∈ sections.entries, e.1 ≠ [] ∧ key ∈ sectionKeys e.1 e.2

/-- A mark is not seen: the first line of the default section has a key, which is
assigned again, with the mark in front and without; or it has none, and another line of
that section has none either. -/
def MarkHarmless (sections : UnparsedSettingsMap) : Prop :=
  let data := (sections.find []).getD []
  match firstKeys data with
  | none => allKeyed data = false
  | some (key, key') => AssignedLater sections data key ∧ AssignedLater sections data key'

theorem map_lineEntry (codec : Option Codec) (sectionKey : Str) (lines : List LineState) :
    (lines.filterMap (lineEntry codec sectionKey)).map Prod.fst =
      (lines.filterMap (lineEntry none sectionKey)).map Prod.fst := by
  rw [List.map_filterMap, List.map_filterMap]
  congr 1
  funext ln
  simp [lineEntry, Function.comp_def]

theorem mem_sectionKeys {codec : Option Codec} {sectionKey key : Str} {data : Bytes} :
    key ∈ (sectionEntries codec sectionKey data).map Prod.fst ↔
      key ∈ sectionKeys sectionKey data := by
  unfold sectionKeys sectionEntries
  rw [map_lineEntry]

theorem readIniFileCodec_mark [Build] (codec : Option Codec) {data : Bytes}
    (h : ¬ byteOrderMark.isPrefixOf data = true) :
    ∃ x z, MarkedSections (readIniFileCodec (some utf8Codec) data).1
        (readIniFileCodec codec (byteOrderMark ++ data)).1 x z ∧
      (readIniFileCodec codec (byteOrderMark ++ data)).2 =
        ((readIniFileCodec (some utf8Codec) data).2.1, some utf8Codec) := by
  have hmark : byteOrderMark.isPrefixOf (byteOrderMark ++ data) = true :=
    List.isPrefixOf_iff_prefix.mpr (List.prefix_append _ _)
  obtain ⟨⟨x, z, hs⟩, hok⟩ := (@Marked.first data [] true).lines
  unfold readIniFileCodec
  rw [if_pos hmark, if_neg h]
  simp only [List.drop_left, List.length_nil, List.drop_zero]
  rw [List.append_nil] at hs hok
  refine ⟨x, z, hs, ?_⟩
  rw [if_neg (by simp [byteOrderMark])]
  exact Prod.ext hok.symm rfl

/-- The default section behind the mark and the line ends that may be between them. -/
theorem section_marked (codec : Option Codec) {x z : Bytes} (h : BehindEols x z) :
    (firstKeys x = none ∧
        sectionEntries codec [] (byteOrderMark ++ z) = sectionEntries codec [] x ∧
        allKeyed (byteOrderMark ++ z) = false) ∨
      ∃ key key' value, firstKeys x = some (key, key') ∧ key ≠ key' ∧
        sectionEntries codec [] x =
          (key, value) :: sectionEntries codec [] (readIniLine x).2 ∧
        sectionEntries codec [] (byteOrderMark ++ z) =
          (key', value) :: sectionEntries codec [] (readIniLine x).2 ∧
        allKeyed (byteOrderMark ++ z) = allKeyed x := by
  obtain ⟨eols, heols, rfl, hlineless⟩ := h
  by_cases hnil : eols = []
  · subst hnil
    have hsection := section_mark codec [] x
    simp only [List.nil_append] at hsection ⊢
    exact hsection
  · -- the mark is in front of a line end
    have hx := hlineless.resolve_left hnil
    obtain ⟨b, eols, rfl⟩ := List.exists_cons_of_ne_nil hnil
    have hz : lineless (b :: eols ++ x) = true := by
      simp [lineless, endsLine, heols b List.mem_cons_self]
    have hblanks : ∀ b ∈ ([] : Bytes), isBlankByte b = true := by simp
    have hnone : firstKeys (b :: eols ++ x) = none := @firstKeys_lineless [] _ hblanks hz
    have hnone' : firstKeys x = none := @firstKeys_lineless [] _ hblanks hx
    have hspaces := section_spaces codec [] x fun c hc => isSpace_eol (heols c hc)
    rcases section_mark codec [] (b :: eols ++ x) with ⟨-, hentries, hkeyed⟩ | ⟨_, _, _, hsome, -⟩
    · exact .inl ⟨hnone', hentries.trans hspaces.1, hkeyed⟩
    · rw [hnone] at hsome
      cases hsome

theorem assignedLater_iff (codec : Option Codec) {sections : UnparsedSettingsMap} {x : Bytes}
    {others : List (Str × Bytes)} (hentries : sections.entries = ([], x) :: others)
    (hothers : ∀ e ∈ others, e.1 ≠ []) (key : Str) :
    AssignedLater sections x key ↔ key ∈ (sectionEntries codec [] (readIniLine x).2 ++
      others.flatMap fun e => sectionEntries codec e.1 e.2).map Prod.fst := by
  unfold AssignedLater
  rw [List.map_append, List.mem_append, mem_sectionKeys, List.map_flatMap, List.mem_flatMap,
    hentries]
  simp only [mem_sectionKeys, List.mem_cons]
  constructor
  · intro h
    rcases h with h | ⟨e, rfl | he, hne, hkey⟩
    · exact .inl h
    · exact absurd rfl hne
    · exact .inr ⟨e, he, hkey⟩
  · intro h
    rcases h with h | ⟨e, he, hkey⟩
    · exact .inl h
    · exact .inr ⟨e, .inr he, hothers e he, hkey⟩

/-- A file with a mark reads as the file without it, read with the UTF-8 codec, exactly
where the mark happens to be harmless. -/
theorem readIniCodec_mark_iff [Build] (codec : Option Codec) (data : Bytes)
    (h : ¬ byteOrderMark.isPrefixOf data = true) :
    readIniCodec codec (byteOrderMark ++ data) = readIniCodec (some utf8Codec) data ↔
      MarkHarmless (readIniFileCodec (some utf8Codec) data).1 := by
  obtain ⟨x, z, ⟨hdefault, hmarked, hbehind⟩, hrest⟩ := readIniFileCodec_mark codec h
  have hcodec : (readIniFileCodec (some utf8Codec) data).2.2 = some utf8Codec := by
    unfold readIniFileCodec
    rw [if_neg h]
    rfl
  unfold readIniCodec
  generalize readIniFileCodec codec (byteOrderMark ++ data) = r' at hmarked hrest
  generalize readIniFileCodec (some utf8Codec) data = r at hdefault hmarked hrest hcodec
  obtain ⟨sections, ok, codec'⟩ := r
  obtain ⟨sections', rest'⟩ := r'
  simp only at hdefault hmarked hrest hcodec
  subst hmarked hrest hcodec
  obtain ⟨others, hentries, hothers, hinsert⟩ := entries_default hdefault
  simp only [parseSections_eq, hinsert, hentries, List.flatMap_cons, List.map_cons,
    IniReading.mk.injEq, true_and, List.cons.injEq, Prod.mk.injEq, and_true]
  unfold MarkHarmless
  simp only [hdefault, Option.getD_some]
  rcases section_marked (some utf8Codec) hbehind with
    ⟨hfirst, hsame, hkeyed⟩ | ⟨key, key', value, hfirst, hne, hplain, hmark, hkeyed⟩
  · simp only [hfirst, hsame, hkeyed, and_true]
    exact eq_comm
  · simp only [hfirst, hplain, hmark, hkeyed, true_and, List.cons_append,
      assignedLater_iff (some utf8Codec) hentries hothers]
    exact (OrdMap.insertAll_cons_eq_iff hne.symm value _).trans and_comm

/-- The keys of a file are those of its sections. -/
theorem isSome_readIniCodec [Build] (codec : Option Codec) (data : Bytes) (key : Str) :
    ((readIniCodec codec data).keys.find key).isSome ↔
      ∃ e ∈ (readIniFileCodec codec data).1.entries, key ∈ sectionKeys e.1 e.2 := by
  unfold readIniCodec
  simp only [parseSections_eq, OrdMap.isSome_insertAll_empty, List.map_flatMap, List.mem_flatMap,
    mem_sectionKeys]

/-! ### Two files of one line -/

theorem iniLines_single {data : Bytes} {ln : LineState} (h : readIniLine data = (ln, []))
    (hline : ln.line ≠ []) : iniLines data = ([ln], []) := by
  have hend : readIniLine [] = (⟨[], [], none, false⟩, []) := rfl
  rw [iniLines_step h hline, iniLines_end hend rfl]

/-- The sections of one line that is no section header. -/
theorem sections_single [Build] (codec : Option Codec) {data : Bytes} {ln : LineState}
    (h : readIniLine data = (ln, [])) (hline : ln.line ≠ [])
    (hhead : ln.line.head? ≠ some (byte '[')) (hmark : ¬ byteOrderMark.isPrefixOf data = true) :
    (readIniFileCodec codec data).1.entries = [([], data)] ∧
      (readIniFileCodec codec (byteOrderMark ++ data)).1.entries =
        [([], byteOrderMark ++ data)] := by
  have hlines := iniLines_single h hline
  have hall := (iniLines_covers data).all
  simp only [hlines, List.flatMap_singleton, List.append_nil] at hall
  have hmarked : byteOrderMark.isPrefixOf (byteOrderMark ++ data) = true :=
    List.isPrefixOf_iff_prefix.mpr (List.prefix_append _ _)
  unfold readIniFileCodec
  rw [if_neg hmark, if_pos hmarked]
  simp only [List.length_nil, List.drop_zero, List.drop_left, hlines, List.foldl_cons,
    List.foldl_nil, fileLine, if_neg hhead, FileState.flush, OrdMap.find_empty, Option.getD_none,
    if_true, List.nil_append, List.append_nil, List.append_assoc, hall]
  exact ⟨rfl, rfl⟩

/-- One line without an equals sign. -/
theorem readIniCodec_mark_error :
    @readIniCodec ⟨false⟩ none (byteOrderMark ++ lit "a") =
      @readIniCodec ⟨false⟩ (some (@utf8Codec ⟨false⟩)) (lit "a") := by
  have hread : readIniLine (lit "a") = (⟨[], lit "a", none, false⟩, []) := rfl
  have hlines := iniLines_single hread (by decide)
  obtain ⟨hsections, -⟩ := @sections_single ⟨false⟩ (some (@utf8Codec ⟨false⟩)) _ _ hread
    (by decide) (by decide) (by decide)
  refine (@readIniCodec_mark_iff ⟨false⟩ none (lit "a") (by decide)).mpr ?_
  have hsection : (@readIniFileCodec ⟨false⟩ (some (@utf8Codec ⟨false⟩)) (lit "a")).1.find [] =
      some (lit "a") := by
    rw [OrdMap.find_eq_some, hsections]
    exact List.mem_singleton_self _
  have hfirst : firstKeys (lit "a") = none := rfl
  unfold MarkHarmless
  simp only [hsection, Option.getD_some, hfirst]
  unfold allKeyed
  rw [hlines]
  rfl

/-- The key on the first line is another one behind the mark. -/
theorem readIniCodec_mark_lost : ¬ ∀ (codec : Option Codec) (data : Bytes),
    ¬ byteOrderMark.isPrefixOf data = true →
    @readIniCodec ⟨false⟩ codec (byteOrderMark ++ data) =
      @readIniCodec ⟨false⟩ (some (@utf8Codec ⟨false⟩)) data := by
  intro h
  have hread : readIniLine (lit "a=1") = (⟨[], lit "a=1", some 1, false⟩, []) := rfl
  have hread' : readIniLine (byteOrderMark ++ lit "a=1") =
    (⟨[], byteOrderMark ++ lit "a=1", some 4, false⟩, []) := rfl
  have hlines := iniLines_single hread (by decide)
  have hlines' := iniLines_single hread' (by decide)
  obtain ⟨hsections, -⟩ := @sections_single ⟨false⟩ (some (@utf8Codec ⟨false⟩)) _ _ hread
    (by decide) (by decide) (by decide)
  obtain ⟨-, hsections'⟩ := @sections_single ⟨false⟩ none _ _ hread (by decide) (by decide)
    (by decide)
  have hkey : iniUnescapedKey (lit "a") = lit16 "a" := iniUnescapedKey_plain rfl
  have hkey' : iniUnescapedKey (byteOrderMark ++ lit "a") = latin1 byteOrderMark ++ lit16 "a" := by
    rw [iniUnescapedKey_mark, hkey]
  have hkeys : sectionKeys [] (lit "a=1") = [lit16 "a"] := by
    rw [← hkey]
    unfold sectionKeys sectionEntries
    rw [hlines]
    rfl
  have hkeys' : sectionKeys [] (byteOrderMark ++ lit "a=1") =
      [latin1 byteOrderMark ++ lit16 "a"] := by
    rw [← hkey']
    unfold sectionKeys sectionEntries
    rw [hlines']
    rfl
  have hfound := congrArg (fun r => (r.keys.find (lit16 "a")).isSome)
    (h none (lit "a=1") (by decide))
  rw [Bool.eq_iff_iff, @isSome_readIniCodec ⟨false⟩, @isSome_readIniCodec ⟨false⟩, hsections,
    hsections'] at hfound
  simp only [List.mem_singleton, exists_eq_left, hkeys, hkeys', iff_true] at hfound
  exact absurd hfound (by decide)

end Libpdk.Settings

import Libpdk.Settings.IniCodecUnits
import Libpdk.Settings.IniLines

/-!
# Values with the UTF-8 codec

Strings and lists that are escaped with the UTF-8 codec and read back. Quotes, commas and the
blanks around a string are what they are without a codec, so each string of a list is read by
itself (`string_read`), as itself or as a shorter one (`ReadAs`).
-/
namespace Libpdk.Settings

open Codecs Character Unicode

section Build

variable [Build] {codec : Option Codec}

/-! ## One string of a list -/

theorem escapeUnitCodec_low (hcodec : WithUtf8 codec) {e : Bool} {ch : UInt16} {b : UInt8}
    (h : b ∈ (escapeUnitCodec codec e ch).1) : 0x20 ≤ b.toNat := by
  have hhex : b ∈ (0x5C : UInt8) :: byte 'x' :: number16 ch.toNat → 0x20 ≤ b.toNat := by
    intro h
    rw [List.mem_cons, List.mem_cons] at h
    rcases h with rfl | rfl | h
    · decide
    · decide
    · have hsome := ulltoa2_hex 64 ch.toNat b h
      rw [hexValue] at hsome
      split_ifs at hsome
      · omega
      · omega
      · omega
      · cases hsome
  cases hplain : isEscaped codec e ch with
  | false =>
    rw [escapeUnitCodec_plain hcodec hplain] at h
    simp only at h
    cases hsur : isSurrogate ch.toNat with
    | true =>
      rw [Utf8.fromUnicode_surrogate hsur] at h
      cases h
    | false =>
      obtain ⟨c, hu, hn, hm⟩ := Utf8.exists_unit hsur
      rw [← hu, Utf8.fromUnicode_char (by rw [hn]; exact ch.toNat_lt) hm] at h
      have hlower := (plainUnit_of hplain).lower
      by_cases hb : b.toNat < 0x80
      · have heq := (bytes_low h hb).2
        omega
      · omega
  | true =>
    unfold escapeUnitCodec at h
    split at h
    · exact hhex h
    rename_i hdigit
    split at h
    · rw [List.mem_cons, List.mem_singleton] at h
      rcases h with rfl | rfl <;> decide
    rename_i hnul
    split at h
    · rename_i b' hb'
      rw [List.mem_cons, List.mem_singleton] at h
      rcases h with rfl | rfl
      · decide
      · have hmem := List.mem_of_find?_eq_some (escapeLetter_find hb')
        have hall : escapeCodes.all (fun p => decide (0x20 ≤ p.1.toNat)) = true := by decide
        exact of_decide_eq_true (List.all_eq_true.mp hall _ hmem)
    rename_i hletter
    split at h
    · exact hhex h
    · rename_i hprint
      rw [not_or, not_and] at hprint
      simp only [isEscaped, hletter, Option.isSome_none, Bool.or_false, Bool.or_eq_true,
        Bool.and_eq_true, beq_iff_eq, decide_eq_true_eq] at hplain hdigit
      rcases hplain with ((h | h) | h) | h
      · exact absurd h hdigit
      · exact absurd h hnul
      · exact absurd h hprint.1
      · exact absurd h.2 (hprint.2 h.1)

theorem escapeUnitsCodec_low (hcodec : WithUtf8 codec) : ∀ (str : Str) {e : Bool} {b : UInt8},
    b ∈ escapeUnitsCodec codec e str → 0x20 ≤ b.toNat
  | [], _, _, h => absurd h List.not_mem_nil
  | ch :: rest, e, b, h => by
    rw [escapeUnitsCodec, List.mem_append] at h
    exact h.elim (escapeUnitCodec_low hcodec) (escapeUnitsCodec_low hcodec rest)

theorem escapeUnitsCodec_getLast (hcodec : WithUtf8 codec) : ∀ (str : Str) (e : Bool),
    str.getLast? = some (unit ' ') →
      (escapeUnitsCodec codec e str).getLast? = some (byte ' ')
  | [], _, h => by cases h
  | ch :: rest, e, h => by
    rw [escapeUnitsCodec, List.getLast?_append]
    by_cases hr : rest = []
    · rw [hr, List.getLast?_singleton, Option.some_inj] at h
      have hplain : isEscaped codec e (unit ' ') = false := by
        rcases hcodec with rfl | rfl <;> cases e <;> rfl
      have hbytes : Utf8.fromUnicode [unit ' '] = [byte ' '] :=
        Utf8.fromUnicode_char (c := ' ') (by decide) (by decide)
      rw [hr, h, escapeUnitCodec_plain hcodec hplain, hbytes]
      rfl
    · rw [List.getLast?_cons_of_ne_nil hr] at h
      rw [escapeUnitsCodec_getLast hcodec rest _ h]
      rfl

/-- The reader behind the bytes of a string, which it started in `st`: whether the bytes end or a
comma follows, `str` is the string it has read. -/
structure ItemRead (st : Unescape) (str : Str) (s : Reading) : Prop where
  stop : (stopModeCodec utf8Codec s).stringResult = str ∧
    (stopModeCodec utf8Codec s).isStringList = st.isStringList ∧
    (stopModeCodec utf8Codec s).stringListResult = st.stringListResult
  comma : ∃ st', unescapeByteCodec utf8Codec s (byte ',') = (.skipSpaces, st', []) ∧
    ItemStart st' ∧ st'.isStringList = true ∧
    st'.stringListResult = (if st.isStringList then st.stringListResult else []) ++ [str]

theorem itemRead_of {st : Unescape} {s : Reading} (st' : Unescape)
    (hcomma : unescapeByteCodec utf8Codec s (byte ',') = (.skipSpaces, st'.comma, []))
    (hstop : (stopModeCodec utf8Codec s).stringResult = st'.chop.stringResult ∧
      (stopModeCodec utf8Codec s).isStringList = st'.isStringList ∧
      (stopModeCodec utf8Codec s).stringListResult = st'.stringListResult)
    (hq : st'.inQuotedString = false)
    (hlist : st'.isStringList = st.isStringList ∧ st'.stringListResult = st.stringListResult) :
    ItemRead st st'.chop.stringResult s := by
  have hchop : st'.chop.inQuotedString = st'.inQuotedString := by
    unfold Unescape.chop
    split <;> rfl
  refine ⟨⟨hstop.1, hstop.2.1.trans hlist.1, hstop.2.2.trans hlist.2⟩, st'.comma, hcomma,
    ⟨rfl, hchop.trans hq, rfl⟩, rfl, ?_⟩
  simp only [Unescape.comma, hlist]

omit [Build] in
theorem normalByteCodec_comma {st : Unescape} (hq : st.inQuotedString = false) :
    normalByteCodec st (byte ',') = (.skipSpaces, st.comma, []) := by
  rw [normalByteCodec, if_neg (by decide), if_neg (by decide),
    if_pos ⟨rfl, by rw [hq]; exact Bool.false_ne_true⟩]

/-- What is read is the string, or a shorter one. -/
def ReadAs (codec : Option Codec) (str read : Str) : Prop :=
  if survives codec false true str = true then read = str else read.length < str.length

theorem quoted_read (hcodec : WithUtf8 codec) {st : Unescape} (hst : ItemStart st) (str : Str) :
    ∃ read, ReadAs codec str read ∧
      ItemRead st read ((0x22 :: (escapeUnitsCodec codec false str ++ [0x22])).foldl
        (unescapeByteCodec utf8Codec) (.skipSpaces, st, [])) := by
  obtain ⟨hr, hq, hv⟩ := hst
  obtain ⟨st₀, hst₀⟩ : ∃ st₀, st₀ =
    { st.limit with currentValueIsQuoted := true, inQuotedString := true } := ⟨_, rfl⟩
  have hopen : unescapeByteCodec utf8Codec (.skipSpaces, st, []) 0x22 = (.normal, st₀, []) := by
    rw [unescapeByteCodec, if_neg (by decide), normalByteCodec, if_neg (by decide), if_pos rfl,
      hst₀]
    simp [Unescape.limit, hq]
  rw [List.foldl_cons, List.foldl_append, hopen]
  have hin : InItem (.normal, st₀, []) := .normal st₀ [] fun _ h => absurd h List.not_mem_nil
  have hset : settled (.normal, st₀, []) = st₀ := decode_nil st₀
  have hquoted : (settled (.normal, st₀, [])).inQuotedString = true := by rw [hset, hst₀]
  obtain ⟨hin', hmore⟩ := units_more hcodec str false hin (.inl hquoted)
  have hexact := units_exact hcodec str (e := false) true
    (s := (.normal, st₀, [])) ⟨hin, .inl rfl, iff_of_true rfl rfl⟩ (.inl hquoted)
  simp only at hexact
  rw [hset] at hmore hexact
  generalize (escapeUnitsCodec codec false str).foldl (unescapeByteCodec utf8Codec) _ = s' at *
  obtain ⟨st₂, hst₂⟩ : ∃ st₂, st₂ =
    { settled s' with currentValueIsQuoted := true, inQuotedString := false } := ⟨_, rfl⟩
  have hclose : [0x22].foldl (unescapeByteCodec utf8Codec) s' = (.skipSpaces, st₂, []) := by
    rw [List.foldl_cons, byte_endsRun hin' rfl, List.foldl_nil, normalByteCodec,
      if_neg (by decide), if_pos rfl, hst₂]
    simp [hmore.inQuoted, hst₀]
  have hchop : st₂.limit.chop = st₂.limit := chop_quoted (by rw [hst₂]; rfl)
  have hres : st₂.limit.chop.stringResult = (settled s').stringResult := by
    rw [hchop, hst₂]
    rfl
  refine ⟨st₂.limit.chop.stringResult, ?_, ?_⟩
  · rw [ReadAs, hres]
    split
    · rename_i hsurvives
      rw [if_pos hsurvives] at hexact
      obtain ⟨limit, heq⟩ := hexact.eq
      rw [heq, hst₀]
      simp [Unescape.limit, hr]
    · rename_i hsurvives
      rw [if_neg hsurvives, hst₀] at hexact
      simpa [Unescape.limit, hr] using hexact
  · rw [hclose]
    refine itemRead_of st₂.limit ?_ ⟨?_, ?_, ?_⟩ ?_ ⟨?_, ?_⟩
    · rw [unescapeByteCodec, if_neg (by decide)]
      exact normalByteCodec_comma (by rw [hst₂]; rfl)
    · rfl
    · rw [stopModeCodec, stopMode, hchop]
      simp
    · rw [stopModeCodec, stopMode, hchop]
      simp
    · rw [hst₂]
      rfl
    · rw [hst₂]
      exact hmore.list.1.trans (by rw [hst₀]; rfl)
    · rw [hst₂]
      exact hmore.list.2.trans (by rw [hst₀]; rfl)

omit [Build] in
theorem iniChop_length (str : Str) (limit : Nat) :
    (iniChopTrailingSpaces str limit).length ≤ str.length := by
  have hle := (List.rdropWhile_prefix isBlank (l := str.drop limit)).length_le
  rw [List.length_drop] at hle
  rw [iniChopTrailingSpaces, List.length_append, List.length_take]
  omega

omit [Build] in
theorem chop_length_le (st : Unescape) : st.chop.stringResult.length ≤ st.stringResult.length := by
  unfold Unescape.chop
  split
  · exact Nat.le_refl _
  · exact iniChop_length _ _

/-- Where the bytes end. -/
theorem stop_chop {s : Reading} (hs : InItem s) :
    (stopModeCodec utf8Codec s).stringResult = (settled s).chop.stringResult ∧
      (stopModeCodec utf8Codec s).isStringList = (settled s).isStringList ∧
      (stopModeCodec utf8Codec s).stringListResult = (settled s).stringListResult := by
  have hchop : ∀ st : Unescape, st.chop.isStringList = st.isStringList ∧
      st.chop.stringListResult = st.stringListResult := by
    intro st
    unfold Unescape.chop
    split <;> exact ⟨rfl, rfl⟩
  have hpush : ∀ (st : Unescape) (ch : UInt16),
      (st.push ch).limit.chop.stringResult = (st.push ch).stringResult := by
    intro st ch
    rw [chop_of_eq (chop_length _)]
    rfl
  cases hs with
  | normal st text h => exact ⟨rfl, hchop _⟩
  | hexEscape st v => exact ⟨(hpush st _).symm, rfl, rfl⟩
  | octEscape st v => exact ⟨(hpush st _).symm, rfl, rfl⟩

theorem unquoted_read (hcodec : WithUtf8 codec) {st : Unescape} (hst : ItemStart st) {str : Str}
    (hcomma : unit ',' ∉ str) (hhead : (escapeUnitsCodec codec false str).head? ≠ some (byte ' '))
    (hlast : (escapeUnitsCodec codec false str).getLast? ≠ some (byte ' ')) :
    ∃ read, ReadAs codec str read ∧
      ItemRead st read ((escapeUnitsCodec codec false str).foldl (unescapeByteCodec utf8Codec)
        (.skipSpaces, st, [])) := by
  obtain ⟨hr, hq, hv⟩ := hst
  have hin : InItem (.normal, st.limit, []) := .normal _ [] fun _ h => absurd h List.not_mem_nil
  have hset : settled (.normal, st.limit, []) = st.limit := decode_nil _
  obtain ⟨hin', hmore⟩ := units_more hcodec str false hin (.inr hcomma)
  have hexact := units_exact hcodec str (e := false) true
    (s := (.normal, st.limit, [])) ⟨hin, .inl rfl, iff_of_true rfl rfl⟩ (.inr hcomma)
  simp only at hexact
  rw [hset] at hmore hexact
  have hstr : str.getLast? ≠ some (unit ' ') := fun h =>
    hlast (escapeUnitsCodec_getLast hcodec str false h)
  have hread : ReadAs codec str (settled ((escapeUnitsCodec codec false str).foldl
      (unescapeByteCodec utf8Codec) (.normal, st.limit, []))).chop.stringResult := by
    rw [ReadAs]
    split
    · rename_i hsurvives
      rw [if_pos hsurvives] at hexact
      obtain ⟨limit, heq⟩ := hexact.eq
      have hres : (settled ((escapeUnitsCodec codec false str).foldl
          (unescapeByteCodec utf8Codec) (.normal, st.limit, []))).stringResult = str := by
        rw [heq]
        simp [Unescape.limit, hr]
      by_cases hnil : str = []
      · have hle := chop_length_le (settled ((escapeUnitsCodec codec false str).foldl
          (unescapeByteCodec utf8Codec) (.normal, st.limit, [])))
        rw [hres, hnil] at hle
        rw [hnil]
        exact List.length_eq_zero_iff.mp (Nat.le_zero.mp hle)
      · rw [chop_of_eq (hexact.keeps hnil hstr), hres]
    · rename_i hsurvives
      rw [if_neg hsurvives] at hexact
      have hlimit : st.limit.stringResult.length = 0 := by
        rw [Unescape.limit, hr]
        rfl
      refine Nat.lt_of_le_of_lt (chop_length_le _) ?_
      omega
  refine ⟨_, hread, ?_⟩
  cases hbytes : escapeUnitsCodec codec false str with
  | nil =>
    refine itemRead_of st.limit ?_ ⟨?_, ?_, ?_⟩ hq ⟨rfl, rfl⟩
    · rw [List.foldl_nil, unescapeByteCodec, if_neg (by decide)]
      exact normalByteCodec_comma hq
    all_goals
      rw [List.foldl_nil, stopModeCodec, stopMode, chop_of_eq (chop_length _)]
      simp
  | cons b rest =>
    rw [hbytes] at hin' hmore hhead
    have hlow := escapeUnitsCodec_low hcodec str (e := false) (b := b) (by
      rw [hbytes]
      exact List.mem_cons_self)
    have hblank : ¬(b = byte ' ' ∨ b = 9) := by
      rintro (rfl | rfl)
      · exact hhead rfl
      · exact absurd hlow (by decide)
    have hskip : unescapeByteCodec utf8Codec (.skipSpaces, st, []) b =
        unescapeByteCodec utf8Codec (.normal, st.limit, []) b := by
      rw [unescapeByteCodec, if_neg hblank, unescapeByteCodec, if_neg (fun h => h.1 rfl),
        decode_nil]
    have hfold : (b :: rest).foldl (unescapeByteCodec utf8Codec) (.skipSpaces, st, []) =
        (b :: rest).foldl (unescapeByteCodec utf8Codec) (.normal, st.limit, []) := by
      rw [List.foldl_cons, hskip, List.foldl_cons]
    rw [hfold]
    refine itemRead_of _ ?_ (stop_chop hin') ?_ hmore.list
    · rw [byte_endsRun hin' rfl]
      exact normalByteCodec_comma (hmore.inQuoted.trans hq)
    · exact hmore.inQuoted.trans hq

/-! ## Whole values -/

theorem useCodec_withUtf8 (str : Str) : WithUtf8 (useCodec utf8Codec str) := by
  unfold useCodec
  split
  · exact .inl rfl
  · exact .inr rfl

theorem string_read {st : Unescape} (hst : ItemStart st) (str : Str) :
    ∃ read, ReadAs (useCodec utf8Codec str) str read ∧
      ItemRead st read ((iniEscapedStringCodec utf8Codec str).foldl (unescapeByteCodec utf8Codec)
        (.skipSpaces, st, [])) := by
  have hcodec := useCodec_withUtf8 str
  unfold iniEscapedStringCodec
  simp only
  split
  · exact quoted_read hcodec hst str
  · rename_i h
    simp only [Bool.or_eq_true, beq_iff_eq, not_or, Bool.not_eq_true] at h
    exact unquoted_read hcodec hst (not_needsQuotes h.1.1).1 h.1.2 h.2

/-- The strings of a list are read one by one. -/
inductive ReadAll : List Str → List Str → Prop
  | nil : ReadAll [] []
  | cons {str read : Str} {strs reads : List Str} : ReadAs (useCodec utf8Codec str) str read →
    ReadAll strs reads → ReadAll (str :: strs) (read :: reads)

theorem ReadAll.eq_iff {strs reads : List Str} (h : ReadAll strs reads) :
    reads = strs ↔ ∀ str ∈ strs, survives (useCodec utf8Codec str) false true str = true := by
  induction h with
  | nil => exact iff_of_true rfl fun _ h => absurd h List.not_mem_nil
  | @cons str read strs reads hread _ ih =>
    rw [List.cons.injEq, List.forall_mem_cons, ih]
    refine and_congr_left fun _ => ?_
    rw [ReadAs] at hread
    split at hread
    · rename_i hsurvives
      exact iff_of_true hread hsurvives
    · rename_i hsurvives
      refine iff_of_false (fun h => ?_) hsurvives
      rw [h] at hread
      exact Nat.lt_irrefl _ hread

/-- Behind a comma and a space the rest of the list is read. -/
theorem rest_read : ∀ (rest : List Str) {st : Unescape} {read : Str} {s : Reading},
    ItemRead st read s → rest ≠ [] →
    let s' := (rest.flatMap fun s => lit ", " ++ iniEscapedStringCodec utf8Codec s).foldl
      (unescapeByteCodec utf8Codec) s
    ∃ reads, ReadAll rest reads ∧ (stopModeCodec utf8Codec s').isStringList = true ∧
      (stopModeCodec utf8Codec s').stringListResult ++ [(stopModeCodec utf8Codec s').stringResult] =
        (if st.isStringList then st.stringListResult else []) ++ read :: reads
  | [], _, _, _, _, hne => absurd rfl hne
  | str' :: rest, st, read, s, hd, _ => by
    obtain ⟨st', hcomma, hstart, hlist, hres⟩ := hd.comma
    obtain ⟨read', hread', hd'⟩ := string_read hstart str'
    have hstep : (lit ", ").foldl (unescapeByteCodec utf8Codec) s = (.skipSpaces, st', []) := by
      show unescapeByteCodec utf8Codec (unescapeByteCodec utf8Codec s (byte ',')) (byte ' ') = _
      rw [hcomma]
      rfl
    simp only [List.flatMap_cons, List.foldl_append, hstep]
    by_cases hr : rest = []
    · subst hr
      obtain ⟨h1, h2, h3⟩ := hd'.stop
      refine ⟨[read'], .cons hread' .nil, ?_⟩
      simp only [List.flatMap_nil, List.foldl_nil, h1, h2, h3, hlist, hres, List.append_assoc]
      exact ⟨trivial, rfl⟩
    · obtain ⟨reads, hreads, hstop⟩ := rest_read rest hd' hr
      simp only [hlist, if_true, hres] at hstop
      refine ⟨read' :: reads, .cons hread' hreads, ?_⟩
      simpa using hstop

theorem list_read {strs : List Str} (h : 2 ≤ strs.length) : ∃ reads, ReadAll strs reads ∧
    iniUnescapedStringListCodec utf8Codec (iniEscapedStringListCodec utf8Codec strs) =
      .stringList reads := by
  obtain ⟨str, rest, rfl⟩ := List.exists_cons_of_ne_nil (l := strs) (by rintro rfl; simp at h)
  have hr : rest ≠ [] := by rintro rfl; simp at h
  have hstart : ItemStart ⟨[], [], false, false, false, 0⟩ := ⟨rfl, rfl, rfl⟩
  obtain ⟨read, hread, hd⟩ := string_read hstart str
  obtain ⟨reads, hreads, hstop⟩ := rest_read rest hd hr
  refine ⟨read :: reads, .cons hread hreads, ?_⟩
  simp only at hstop
  simp only [iniUnescapedStringListCodec, iniEscapedStringListCodec, List.foldl_append, hstop.1,
    if_true, hstop.2]
  rfl

/-- What is written for units that are not escaped. -/
theorem escapeUnitsCodec_plain : ∀ run : Str,
    (∀ u ∈ run, isEscaped (some utf8Codec) false u = false) →
      escapeUnitsCodec (some utf8Codec) false run = Utf8.unitBytes run
  | [], _ => rfl
  | u :: run, h => by
    rw [List.forall_mem_cons] at h
    rw [escapeUnitsCodec, escapeUnitCodec_plain (.inr rfl) h.1, escapeUnitsCodec_plain run h.2]
    rfl

/-- With the UTF-8 codec a list of two or more strings is read back exactly where nothing of them
is lost, and the bytes of a run of plain units are those of the whole run exactly where no unit but
the last one is or is taken for a surrogate. -/
theorem iniStringLists_utf8 :
    (∀ strs : List Str, 2 ≤ strs.length →
      (iniUnescapedStringListCodec utf8Codec (iniEscapedStringListCodec utf8Codec strs) =
          .stringList strs ↔
        ∀ str ∈ strs, survives (useCodec utf8Codec str) false true str = true)) ∧
    ∀ run : Str, (∀ u ∈ run, isEscaped (some utf8Codec) false u = false) →
      (escapeUnitsCodec (some utf8Codec) false run = utf8Codec.fromUnicode run ↔
        ∀ u ∈ run.dropLast, isSurrogate u.toNat = false) := by
  refine ⟨fun strs h => ?_, fun run h => ?_⟩
  · obtain ⟨reads, hreads, heq⟩ := list_read h
    rw [heq, Unescaped.stringList.injEq]
    exact hreads.eq_iff
  · rw [escapeUnitsCodec_plain run h]
    exact Utf8.fromUnicode_units_iff run

end Build

theorem iniStringLists_latin :
    letI : Build := ⟨true⟩
    iniUnescapedStringListCodec utf8Codec
        (iniEscapedStringListCodec utf8Codec [[0xe9, unit ' '], [unit 'b']]) =
      .stringList [[0xe9, unit ' '], [unit 'b']] :=
  letI : Build := ⟨true⟩
  (iniStringLists_utf8.1 [[0xe9, unit ' '], [unit 'b']] (by decide)).mpr (by decide)

/-- U+1F600 is lost. -/
theorem iniStringLists_astral :
    letI : Build := ⟨true⟩
    iniUnescapedStringListCodec utf8Codec
        (iniEscapedStringListCodec utf8Codec [utf16 ['😀'], [unit 'a']]) ≠
      .stringList [utf16 ['😀'], [unit 'a']] := by
  decide

end Libpdk.Settings

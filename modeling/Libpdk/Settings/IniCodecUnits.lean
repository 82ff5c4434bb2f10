import Libpdk.Settings.IniCodec

/-!
# Units with the UTF-8 codec

What the reader makes of the units of a string that was escaped with the UTF-8 codec. The writer
converts each unit by itself and so loses what is or is taken for a surrogate; the reader converts
each run by itself and loses U+FEFF at the beginning of a run. A string with nothing of this comes
back (`survives`), and any other one gets shorter: of a unit there is never more than one unit in
the result (`unit_more`).
-/
namespace Libpdk.Settings

open Codecs Character Unicode

/-! ## Plain units -/

/-- A unit that is written with a backslash. -/
def isEscaped (codec : Option Codec) (e : Bool) (ch : UInt16) : Bool :=
  (e && isHexUnit ch) || ch == 0 || (escapeLetter ch).isSome || decide (ch ≤ 0x1F) ||
    (decide (0x7F ≤ ch) && codec.isNone)

/-- Nothing of the string is lost: no unit of it is or is taken for a surrogate, and no U+FEFF is
the first unit or behind one that is escaped. -/
def survives (codec : Option Codec) : (escapeNextIfDigit fresh : Bool) → Str → Bool
  | _, _, [] => true
  | e, fresh, ch :: rest =>
    if isEscaped codec e ch then survives codec (escapeUnitCodec codec e ch).2 true rest
    else !isSurrogate ch.toNat && !(fresh && ch == byteOrderMark) &&
      survives codec false false rest

/-- The bytes of a character are ASCII only where it is. -/
theorem bytes_low {c : Char} {b : UInt8} (h : b ∈ bytes c) (hb : b.toNat < 0x80) :
    bytes c = [b] ∧ c.toNat = b.toNat := by
  rcases bytes_cases c with ⟨hlt, e⟩ | ⟨hge, hlt, e⟩ | ⟨hge, hlt, e⟩ | ⟨hge, hlt, e⟩
  · rw [e, List.mem_singleton] at h
    rw [e, h, toNat_ofNat8 (by omega)]
    exact ⟨rfl, rfl⟩
  all_goals
    exfalso
    rw [e] at h
    simp only [List.mem_cons, List.not_mem_nil, or_false] at h
    revert hb
    rcases h with rfl | rfl | rfl | rfl <;> rw [toNat_ofNat8 (by omega)] <;> omega

/-- What is written for a unit that is not escaped. -/
structure PlainUnit (ch : UInt16) : Prop where
  lower : 0x20 ≤ ch.toNat
  quote : ch.toNat ≠ 0x22
  backslash : ch.toNat ≠ 0x5C

theorem plainUnit_of {codec : Option Codec} {e : Bool} {ch : UInt16}
    (h : isEscaped codec e ch = false) : PlainUnit ch := by
  simp only [isEscaped, Bool.or_eq_false_iff, beq_eq_false_iff_ne, ne_eq,
    Option.isSome_eq_false_iff, Option.isNone_iff_eq_none, decide_eq_false_iff_not] at h
  obtain ⟨⟨⟨⟨-, -⟩, hletter⟩, hlow⟩, -⟩ := h
  have hlow : ¬ch.toNat ≤ 31 := fun hle => hlow (UInt16.le_iff_toNat_le.mpr hle)
  refine ⟨by omega, fun hq => ?_, fun hb => ?_⟩
  · rw [UInt16.toNat_inj.mp (show ch.toNat = (0x22 : UInt16).toNat from hq)] at hletter
    cases hletter
  · rw [UInt16.toNat_inj.mp (show ch.toNat = (0x5C : UInt16).toNat from hb)] at hletter
    cases hletter

/-- No byte of a plain unit but a comma ends a run. -/
theorem PlainUnit.bytes {ch : UInt16} (h : PlainUnit ch) {c : Char} (hc : c.toNat = ch.toNat)
    (hcomma : ch ≠ unit ',') : ∀ b ∈ bytes c, endsRun b = false := by
  intro b hb
  have hne : ∀ x : UInt8, x.toNat < 0x80 → ch.toNat ≠ x.toNat → b ≠ x := by
    rintro x hx hne rfl
    exact hne (hc.symm.trans (bytes_low hb hx).2)
  simp only [endsRun, Bool.or_eq_false_iff, beq_eq_false_iff_ne, ne_eq]
  refine ⟨⟨hne 0x5C (by decide) h.backslash, hne 0x22 (by decide) h.quote⟩,
    hne (byte ',') (by decide) fun he => hcomma ?_⟩
  exact UInt16.toNat_inj.mp he

/-! ## What is read of a string -/

/-- The reader is in the same string, and has at most `n` units more. -/
structure More (n : Nat) (st st' : Unescape) : Prop where
  inQuoted : st'.inQuotedString = st.inQuotedString
  isQuoted : st'.currentValueIsQuoted = st.currentValueIsQuoted
  list : st'.isStringList = st.isStringList ∧ st'.stringListResult = st.stringListResult
  length : st'.stringResult.length ≤ st.stringResult.length + n

theorem More.refl (n : Nat) (st : Unescape) : More n st st :=
  ⟨rfl, rfl, ⟨rfl, rfl⟩, Nat.le_add_right _ _⟩

theorem More.trans {m n : Nat} {st st' st'' : Unescape} (h : More m st st') (h' : More n st' st'') :
    More (m + n) st st'' := by
  refine ⟨h'.inQuoted.trans h.inQuoted, h'.isQuoted.trans h.isQuoted,
    ⟨h'.list.1.trans h.list.1, h'.list.2.trans h.list.2⟩, ?_⟩
  have := h.length
  have := h'.length
  omega

theorem more_push (st : Unescape) (ch : UInt16) : More 1 st (st.push ch).limit := by
  refine ⟨rfl, rfl, ⟨rfl, rfl⟩, ?_⟩
  simp [Unescape.push, Unescape.limit]

theorem withoutBom_append (text : List Char) (c : Char) :
    utf16 (Utf8.withoutBom (text ++ [c])) = utf16 (Utf8.withoutBom text) ++
      if text = [] ∧ c = Utf8.bom then [] else units c := by
  unfold Utf8.withoutBom
  cases text with
  | nil =>
    by_cases hc : c = Utf8.bom
    · simp [hc]
    · simp [hc]
  | cons d text =>
    by_cases hd : d = Utf8.bom
    · simp [hd]
    · simp [hd]

section Build

variable [Build]

/-- The writer with the UTF-8 codec or, for bytes, without one. -/
def WithUtf8 (codec : Option Codec) : Prop := codec = none ∨ codec = some utf8Codec

theorem escapeUnitCodec_plain {codec : Option Codec} (hcodec : WithUtf8 codec) {e : Bool}
    {ch : UInt16} (h : isEscaped codec e ch = false) :
    escapeUnitCodec codec e ch = (Utf8.fromUnicode [ch], false) := by
  have hplain := plainUnit_of h
  simp only [isEscaped, Bool.or_eq_false_iff, beq_eq_false_iff_ne, ne_eq,
    Option.isSome_eq_false_iff, Option.isNone_iff_eq_none, decide_eq_false_iff_not,
    Bool.and_eq_false_iff] at h
  obtain ⟨⟨⟨⟨hhex, hnul⟩, hletter⟩, hlow⟩, hhigh⟩ := h
  have hhex : (e && isHexUnit ch) = false := by
    rw [Bool.and_eq_false_iff]
    exact hhex
  unfold escapeUnitCodec
  rw [hhex, if_neg Bool.false_ne_true, if_neg hnul, hletter]
  simp only
  rcases hcodec with rfl | rfl
  · have hlt : ¬(0x7F : UInt16) ≤ ch := hhigh.resolve_right (by simp)
    have hlt' : ch.toNat < 127 := by
      rw [UInt16.le_iff_toNat_le] at hlt
      exact Nat.lt_of_not_le hlt
    have hs : isSurrogate ch.toNat = false := by
      rw [← Bool.not_eq_true, isSurrogate_iff (by omega)]
      omega
    obtain ⟨c, hu, hc, hm⟩ := Utf8.exists_unit hs
    rw [if_neg (by simp [hlow, hlt]), ← hu, Utf8.fromUnicode_char (by omega) hm,
      bytes_one (by omega), hc]
    rfl
  · rw [if_neg (by simp [hlow])]
    rfl

/-! ## Where the reader is -/

/-- The variables once the run, or a numeric escape that may still go on, has ended. -/
def settled : Reading → Unescape
  | (.hexEscape v, st, _) => (st.push (.ofNat v)).limit
  | (.octEscape v, st, _) => (st.push (.ofNat v)).limit
  | (_, st, run) => st.decode utf8Codec run

/-- The reader is behind the bytes of a unit. -/
inductive InItem : Reading → Prop
  | normal (st : Unescape) (text : List Char) (h : ∀ c ∈ text, ¬Mistaken c) :
    InItem (.normal, st, utf8 text)
  | hexEscape (st : Unescape) (v : Nat) : InItem (.hexEscape v, st, [])
  | octEscape (st : Unescape) (v : Nat) : InItem (.octEscape v, st, [])

theorem decode_nil (st : Unescape) : st.decode utf8Codec [] = st := if_pos rfl

theorem decode_utf8 (st : Unescape) {text : List Char} (h : ∀ c ∈ text, ¬Mistaken c) :
    st.decode utf8Codec (utf8 text) =
      { st with stringResult := st.stringResult ++ utf16 (Utf8.withoutBom text) } := by
  rw [Unescape.decode]
  split
  · rename_i hnil
    have htext : text = [] := by
      cases text with
      | nil => rfl
      | cons c tl => exact absurd hnil (by simp [bytes_ne_nil])
    rw [htext]
    simp [Utf8.withoutBom]
  · rw [show utf8Codec.toUnicode (utf8 text) = Utf8.toUnicode (utf8 text) from rfl,
      Utf8.toUnicode_utf8 h]

/-- A byte that ends a run ends the numeric escapes too. -/
theorem byte_endsRun {s : Reading} (hs : InItem s) {b : UInt8} (hb : endsRun b = true) :
    unescapeByteCodec utf8Codec s b = normalByteCodec (settled s) b := by
  have hcases : b = 0x5C ∨ b = 0x22 ∨ b = byte ',' := by
    simpa [endsRun, or_assoc] using hb
  have hhex : hexValue b.toNat = none := by
    rcases hcases with rfl | rfl | rfl <;> rfl
  have hoct : ¬(byte '0' ≤ b ∧ b ≤ byte '7') := by
    rcases hcases with rfl | rfl | rfl <;> decide
  cases hs with
  | normal st text h =>
    rw [unescapeByteCodec, if_neg (fun hh => hh.2 hb)]
    rfl
  | hexEscape st v =>
    rw [unescapeByteCodec, hhex]
    rfl
  | octEscape st v =>
    rw [unescapeByteCodec, if_neg hoct]
    rfl

theorem byte_backslash {s : Reading} (hs : InItem s) :
    unescapeByteCodec utf8Codec s 0x5C = (.escape, settled s, []) :=
  byte_endsRun hs rfl

/-- Bytes that end no run go on with it. -/
theorem foldl_run (st : Unescape) : ∀ (w run : Bytes), (∀ b ∈ w, endsRun b = false) → run ≠ [] →
    w.foldl (unescapeByteCodec utf8Codec) (.normal, st, run) = (.normal, st, run ++ w)
  | [], run, _, _ => by rw [List.foldl_nil, List.append_nil]
  | b :: w, run, h, hrun => by
    have hb : unescapeByteCodec utf8Codec (.normal, st, run) b = (.normal, st, run ++ [b]) := by
      rw [unescapeByteCodec,
        if_pos ⟨hrun, by rw [h b List.mem_cons_self]; exact Bool.false_ne_true⟩]
    rw [List.foldl_cons, hb,
      foldl_run st w (run ++ [b]) (fun c hc => h c (List.mem_cons_of_mem _ hc)) (by simp),
      List.append_assoc, List.singleton_append]

omit [Build] in
theorem normalByteCodec_run (st : Unescape) {b : UInt8} (h : endsRun b = false) :
    normalByteCodec st b = (.normal, st, [b]) := by
  simp only [endsRun, Bool.or_eq_false_iff, beq_eq_false_iff_ne, ne_eq] at h
  rw [normalByteCodec, if_neg h.1.1, if_neg h.1.2, if_neg fun hh => h.2 hh.1]

/-- Bytes that end no run begin one behind a run that has ended. -/
theorem foldl_new_run (st : Unescape) {w : Bytes} (h : ∀ b ∈ w, endsRun b = false) :
    w.foldl (unescapeByteCodec utf8Codec) (.normal, st, []) = (.normal, st, w) := by
  cases w with
  | nil => rfl
  | cons b w =>
    have hb : unescapeByteCodec utf8Codec (.normal, st, []) b = (.normal, st, [b]) := by
      rw [unescapeByteCodec, if_neg (fun hh => hh.1 rfl), decode_nil]
      exact normalByteCodec_run st (h b List.mem_cons_self)
    rw [List.foldl_cons, hb, foldl_run st w [b] (fun c hc => h c (List.mem_cons_of_mem _ hc))
      (List.cons_ne_nil _ _), List.singleton_append]

/-! ## One unit -/

/-- A plain unit goes on with the run, or begins one behind a numeric escape that it ends. -/
theorem plain_run {s : Reading} (hs : InItem s) {c : Char} (hc : ¬Mistaken c)
    (hplain : ∀ b ∈ bytes c, endsRun b = false) (hdigit : s.1 = .normal ∨ hexValue c.toNat = none) :
    ∃ st text, (bytes c).foldl (unescapeByteCodec utf8Codec) s = (.normal, st, utf8 (text ++ [c])) ∧
      settled s = st.decode utf8Codec (utf8 text) ∧ s.2.2 = utf8 text ∧
      ∀ d ∈ text ++ [c], ¬Mistaken d := by
  have hone : ∀ d ∈ ([] : List Char) ++ [c], ¬Mistaken d := by
    intro d hd
    rw [List.nil_append, List.mem_singleton] at hd
    rw [hd]
    exact hc
  have hutf8 : utf8 ([] ++ [c]) = bytes c := by simp
  obtain ⟨b, w, hbw⟩ := List.exists_cons_of_ne_nil (bytes_ne_nil c)
  have hb : endsRun b = false := hplain b (by rw [hbw]; exact List.mem_cons_self)
  have hw : ∀ x ∈ w, endsRun x = false := fun x hx =>
    hplain x (by rw [hbw]; exact List.mem_cons_of_mem _ hx)
  have hnohex : hexValue c.toNat = none → hexValue b.toNat = none := by
    intro hnone
    by_cases hlow : b.toNat < 0x80
    · rw [← (bytes_low (by rw [hbw]; exact List.mem_cons_self) hlow).2]
      exact hnone
    · rw [hexValue, if_neg (by omega), if_neg (by omega), if_neg (by omega)]
  have hnew : ∀ st : Unescape, w.foldl (unescapeByteCodec utf8Codec) (normalByteCodec st b) =
      (.normal, st, utf8 ([] ++ [c])) := by
    intro st
    rw [normalByteCodec_run st hb, foldl_run st w [b] hw (List.cons_ne_nil _ _), hutf8, hbw,
      List.singleton_append]
  cases hs with
  | normal st text htext =>
    refine ⟨st, text, ?_, rfl, rfl, ?_⟩
    · rw [utf8_append]
      by_cases hrun : utf8 text = []
      · rw [hrun, foldl_new_run st hplain, List.nil_append]
        simp
      · rw [foldl_run st _ _ hplain hrun]
        simp
    · intro d hd
      rcases List.mem_append.mp hd with hd | hd
      · exact htext d hd
      · exact hone d hd
  | hexEscape st v =>
    have hnone := hnohex (hdigit.resolve_left (by simp))
    have hstep : unescapeByteCodec utf8Codec (.hexEscape v, st, []) b =
        normalByteCodec (st.push (.ofNat v)).limit b := by
      rw [unescapeByteCodec, hnone]
    refine ⟨(st.push (.ofNat v)).limit, [], ?_, (decode_nil _).symm, rfl, hone⟩
    rw [hbw, List.foldl_cons, hstep, hnew]
  | octEscape st v =>
    have hnone := hnohex (hdigit.resolve_left (by simp))
    have hoct : ¬(byte '0' ≤ b ∧ b ≤ byte '7') := fun h => by
      have hsome := octal_hexValue h
      rw [hnone] at hsome
      cases hsome
    have hstep : unescapeByteCodec utf8Codec (.octEscape v, st, []) b =
        normalByteCodec (st.push (.ofNat v)).limit b := by
      rw [unescapeByteCodec, if_neg hoct]
    refine ⟨(st.push (.ofNat v)).limit, [], ?_, (decode_nil _).symm, rfl, hone⟩
    rw [hbw, List.foldl_cons, hstep, hnew]

/-- What a plain unit adds to the run. -/
theorem settled_run {s : Reading} {st : Unescape} {text : List Char} {c : Char}
    (hs : settled s = st.decode utf8Codec (utf8 text)) (hgood : ∀ d ∈ text ++ [c], ¬Mistaken d) :
    settled (.normal, st, utf8 (text ++ [c])) = { settled s with
      stringResult := (settled s).stringResult ++
        if text = [] ∧ c = Utf8.bom then [] else units c } := by
  have htext : ∀ d ∈ text, ¬Mistaken d := fun d hd => hgood d (List.mem_append_left _ hd)
  rw [hs, decode_utf8 st htext]
  show st.decode utf8Codec (utf8 (text ++ [c])) = _
  rw [decode_utf8 st hgood, withoutBom_append]
  simp only [List.append_assoc]

/-- A plain unit is one unit more at most. -/
theorem plain_more {s : Reading} (hs : InItem s) {c : Char} {ch : UInt16} (hu : units c = [ch])
    (hc : ¬Mistaken c) (hplain : ∀ b ∈ bytes c, endsRun b = false) :
    InItem ((bytes c).foldl (unescapeByteCodec utf8Codec) s) ∧
      More 1 (settled s) (settled ((bytes c).foldl (unescapeByteCodec utf8Codec) s)) := by
  have hrun : s.1 = .normal ∨ hexValue c.toNat = none →
      InItem ((bytes c).foldl (unescapeByteCodec utf8Codec) s) ∧
        More 1 (settled s) (settled ((bytes c).foldl (unescapeByteCodec utf8Codec) s)) := by
    intro hdigit
    obtain ⟨st, text, hs', hset, -, hgood⟩ := plain_run hs hc hplain hdigit
    rw [hs']
    refine ⟨.normal st _ hgood, ?_⟩
    rw [settled_run hset hgood]
    refine ⟨rfl, rfl, ⟨rfl, rfl⟩, ?_⟩
    rw [List.length_append, hu]
    split <;> simp
  cases hv : hexValue c.toNat with
  | none => exact hrun (.inr hv)
  | some d =>
    have hlow : c.toNat < 0x80 := by
      rw [hexValue] at hv
      split_ifs at hv <;> omega
    have hbytes := bytes_one hlow
    have hd : hexValue (UInt8.ofNat c.toNat).toNat = some d := by
      rw [toNat_ofNat8 (by omega), hv]
    cases hs with
    | normal st text htext => exact hrun (.inl rfl)
    | hexEscape st v =>
      have hstep : unescapeByteCodec utf8Codec (.hexEscape v, st, []) (UInt8.ofNat c.toNat) =
          (.hexEscape (16 * v + d), st, []) := by
        rw [unescapeByteCodec, hd]
      rw [hbytes, List.foldl_cons, hstep]
      exact ⟨.hexEscape _ _, rfl, rfl, ⟨rfl, rfl⟩, by simp [settled, Unescape.push, Unescape.limit]⟩
    | octEscape st v =>
      by_cases hoct : byte '0' ≤ UInt8.ofNat c.toNat ∧ UInt8.ofNat c.toNat ≤ byte '7'
      · rw [hbytes, List.foldl_cons, unescapeByteCodec, if_pos hoct]
        exact ⟨.octEscape _ _, rfl, rfl, ⟨rfl, rfl⟩,
          by simp [settled, Unescape.push, Unescape.limit]⟩
      · have hb : endsRun (UInt8.ofNat c.toNat) = false :=
          hplain _ (by rw [hbytes]; exact List.mem_singleton_self _)
        have hone : ∀ d ∈ [c], ¬Mistaken d := by
          intro d hd
          rw [List.mem_singleton.mp hd]
          exact hc
        rw [hbytes, List.foldl_cons, unescapeByteCodec, if_neg hoct, normalByteCodec_run _ hb,
          List.foldl_nil]
        have hutf8 : [UInt8.ofNat c.toNat] = utf8 [c] := by
          simp [hbytes]
        rw [hutf8]
        refine ⟨.normal _ [c] hone, ?_⟩
        show More 1 _ (Unescape.decode utf8Codec _ (utf8 [c]))
        rw [decode_utf8 _ hone]
        refine ⟨rfl, rfl, ⟨rfl, rfl⟩, ?_⟩
        have hlen := withoutBom_append [] c
        rw [List.nil_append] at hlen
        rw [hlen, hu]
        simp only [settled, List.length_append]
        split <;> simp [Utf8.withoutBom]

/-! ## Escaped units -/

theorem foldl_hexEscape {s : Reading} (hs : InItem s) (ch : UInt16) :
    (0x5C :: byte 'x' :: number16 ch.toNat).foldl (unescapeByteCodec utf8Codec) s =
      (.hexEscape ch.toNat, settled s, []) := by
  rw [List.foldl_cons, byte_backslash hs, List.foldl_cons]
  refine foldl_hexDigits (unescapeByteCodec utf8Codec) (.escapeX, settled s, [])
    (fun n => (.hexEscape n, settled s, [])) ?_ ?_ 63 ch.toNat
    (Nat.lt_trans ch.toNat_lt (by decide))
  · intro b d hd
    simp only [unescapeByteCodec, hd]
  · intro n b d hd
    simp only [unescapeByteCodec, hd]

/-- Behind a unit with a backslash the reader has exactly this unit more. -/
structure Escaped (e' : Bool) (ch : UInt16) (s s' : Reading) : Prop where
  inItem : InItem s'
  settled : settled s' = ((settled s).push ch).limit
  run : s'.2.2 = []
  digits : s'.1 = .normal ∨ e' = true

theorem escaped_unit {codec : Option Codec} {e : Bool} {ch : UInt16} {s : Reading} (hs : InItem s)
    (h : isEscaped codec e ch = true) : Escaped (escapeUnitCodec codec e ch).2 ch s
      ((escapeUnitCodec codec e ch).1.foldl (unescapeByteCodec utf8Codec) s) := by
  have hhex : Escaped true ch s (.hexEscape ch.toNat, Settings.settled s, []) := by
    refine ⟨.hexEscape _ _, ?_, rfl, .inr rfl⟩
    show ((Settings.settled s).push (.ofNat ch.toNat)).limit = _
    rw [UInt16.ofNat_toNat]
  unfold escapeUnitCodec
  split
  · simp only
    rw [foldl_hexEscape hs]
    exact hhex
  rename_i hdigit
  split
  · rename_i hnul
    simp only [List.foldl_cons, List.foldl_nil]
    rw [byte_backslash hs, hnul]
    exact ⟨.octEscape _ 0, rfl, rfl, .inr rfl⟩
  rename_i hnul
  split
  · rename_i b hb
    simp only [List.foldl_cons, List.foldl_nil]
    rw [byte_backslash hs]
    simp only [unescapeByteCodec, escapeLetter_find hb]
    have hnormal := InItem.normal ((Settings.settled s).push ch).limit []
      fun _ hd => absurd hd List.not_mem_nil
    exact ⟨hnormal, decode_nil _, rfl, .inl rfl⟩
  rename_i hletter
  split
  · simp only
    rw [foldl_hexEscape hs]
    exact hhex
  · rename_i hprint
    rw [not_or, not_and] at hprint
    simp only [isEscaped, hletter, Option.isSome_none, Bool.or_false, Bool.or_eq_true,
      Bool.and_eq_true, beq_iff_eq, decide_eq_true_eq] at h hdigit
    rcases h with ((h | h) | h) | h
    · exact absurd h hdigit
    · exact absurd h hnul
    · exact absurd h hprint.1
    · exact absurd h.2 (hprint.2 h.1)

/-! ## One string -/

/-- A comma in quotes begins a run. -/
theorem quoted_comma {s : Reading} (hs : InItem s) (hq : (settled s).inQuotedString = true) :
    [byte ','].foldl (unescapeByteCodec utf8Codec) s =
      (.normal, settled s, utf8 ([] ++ [','])) := by
  rw [List.foldl_cons, byte_endsRun hs rfl, List.foldl_nil, normalByteCodec, if_neg (by decide),
    if_neg (by decide), if_neg (fun h => h.2 hq)]
  rfl

omit [Build] in
theorem comma_good : ∀ d ∈ ([] : List Char) ++ [','], ¬Mistaken d := by
  intro d hd
  rw [List.nil_append, List.mem_singleton] at hd
  rw [hd]
  decide

theorem fromUnicode_comma : Utf8.fromUnicode [unit ','] = [byte ','] := by
  have hcomma := Utf8.fromUnicode_char (c := ',') (by decide) (by decide)
  exact hcomma

variable {codec : Option Codec}

/-- A unit that is not escaped: it is lost, or it goes on with the run or begins one. -/
theorem unescaped_cases (hcodec : WithUtf8 codec) {e : Bool} {ch : UInt16} {s : Reading}
    (hs : InItem s) (hplain : isEscaped codec e ch = false)
    (hc : (settled s).inQuotedString = true ∨ ch ≠ unit ',') :
    (isSurrogate ch.toNat = true ∧
      (escapeUnitCodec codec e ch).1.foldl (unescapeByteCodec utf8Codec) s = s) ∨
    (isSurrogate ch.toNat = false ∧ InItem
        ((escapeUnitCodec codec e ch).1.foldl (unescapeByteCodec utf8Codec) s) ∧
      More 1 (settled s)
        (settled ((escapeUnitCodec codec e ch).1.foldl (unescapeByteCodec utf8Codec) s)) ∧
      (s.1 = .normal ∨ e = true → ∃ st text c, units c = [ch] ∧
        (escapeUnitCodec codec e ch).1.foldl (unescapeByteCodec utf8Codec) s =
          (.normal, st, utf8 (text ++ [c])) ∧
        settled s = st.decode utf8Codec (utf8 text) ∧ (∀ d ∈ text ++ [c], ¬Mistaken d) ∧
        (c ≠ Utf8.bom ∨ s.2.2 = utf8 text))) := by
  rw [escapeUnitCodec_plain hcodec hplain]
  cases hsur : isSurrogate ch.toNat with
  | true =>
    rw [Utf8.fromUnicode_surrogate hsur]
    exact .inl ⟨rfl, rfl⟩
  | false =>
    refine .inr ⟨rfl, ?_⟩
    by_cases hcomma : ch = unit ','
    · have hq := hc.resolve_right fun h => h hcomma
      have hset : settled s = (settled s).decode utf8Codec (utf8 []) := (decode_nil _).symm
      rw [hcomma, fromUnicode_comma, quoted_comma hs hq, settled_run hset comma_good]
      refine ⟨.normal _ _ comma_good, ⟨rfl, rfl, ⟨rfl, rfl⟩, ?_⟩, fun _ =>
        ⟨settled s, [], ',', rfl, rfl, hset, comma_good, .inl (by decide)⟩⟩
      rw [List.length_append]
      exact Nat.add_le_add_left (by decide) _
    · obtain ⟨c, hu, hn, hm⟩ := Utf8.exists_unit hsur
      have hends := (plainUnit_of hplain).bytes hn hcomma
      have hbytes : Utf8.fromUnicode [ch] = bytes c := by
        rw [← hu]
        exact Utf8.fromUnicode_char (by rw [hn]; exact ch.toNat_lt) hm
      rw [hbytes]
      obtain ⟨hin, hmore⟩ := plain_more hs hu hm hends
      refine ⟨hin, hmore, fun hdigits => ?_⟩
      have hdigit : s.1 = .normal ∨ hexValue c.toNat = none := by
        refine hdigits.imp_right fun he => ?_
        simp only [isEscaped, he, Bool.true_and, Bool.or_eq_false_iff] at hplain
        have hhex := hplain.1.1.1.1
        rw [isHexUnit, ← hn] at hhex
        exact Option.isSome_eq_false_iff.mp hhex |> Option.isNone_iff_eq_none.mp
      obtain ⟨st, text, hs', hset, hrun, hgood⟩ := plain_run hs hm hends hdigit
      exact ⟨st, text, c, hu, hs', hset, hgood, .inr hrun⟩

/-- Of a unit there is at most one unit more. -/
theorem unit_more (hcodec : WithUtf8 codec) (e : Bool) {ch : UInt16} {s : Reading} (hs : InItem s)
    (hc : (settled s).inQuotedString = true ∨ ch ≠ unit ',') :
    InItem ((escapeUnitCodec codec e ch).1.foldl (unescapeByteCodec utf8Codec) s) ∧
      More 1 (settled s)
        (settled ((escapeUnitCodec codec e ch).1.foldl (unescapeByteCodec utf8Codec) s)) := by
  cases hplain : isEscaped codec e ch with
  | true =>
    have hescaped := escaped_unit hs hplain
    refine ⟨hescaped.inItem, ?_⟩
    rw [hescaped.settled]
    exact more_push _ _
  | false =>
    rcases unescaped_cases hcodec hs hplain hc with ⟨-, heq⟩ | ⟨-, hin, hmore, -⟩
    · rw [heq]
      exact ⟨hs, .refl 1 _⟩
    · exact ⟨hin, hmore⟩

theorem units_more (hcodec : WithUtf8 codec) : ∀ (str : Str) (e : Bool) {s : Reading}, InItem s →
    ((settled s).inQuotedString = true ∨ unit ',' ∉ str) →
    InItem ((escapeUnitsCodec codec e str).foldl (unescapeByteCodec utf8Codec) s) ∧
      More str.length (settled s)
        (settled ((escapeUnitsCodec codec e str).foldl (unescapeByteCodec utf8Codec) s))
  | [], e, s, hs, _ => ⟨hs, .refl 0 _⟩
  | ch :: rest, e, s, hs, hc => by
    have hch : (settled s).inQuotedString = true ∨ ch ≠ unit ',' :=
      hc.imp_right fun h => by rintro rfl; exact h List.mem_cons_self
    obtain ⟨hs₁, hmore₁⟩ := unit_more hcodec e hs hch
    rw [escapeUnitsCodec, List.foldl_append]
    have hrest := hc.imp_right fun h hm => h (List.mem_cons_of_mem ch hm)
    rw [← hmore₁.inQuoted] at hrest
    obtain ⟨hs', hmore⟩ := units_more hcodec rest (escapeUnitCodec codec e ch).2 hs₁ hrest
    refine ⟨hs', ?_⟩
    rw [List.length_cons, Nat.add_comm]
    exact hmore₁.trans hmore

/-- What the writer knows of the reader as long as nothing was lost. -/
structure Exact (e fresh : Bool) (s : Reading) : Prop where
  inItem : InItem s
  digits : s.1 = .normal ∨ e = true
  fresh : fresh = true ↔ s.2.2 = []

omit [Build] in
theorem utf8_eq_nil {text : List Char} : utf8 text = [] ↔ text = [] := by
  cases text with
  | nil => exact ⟨fun _ => rfl, fun _ => rfl⟩
  | cons c text => simp [bytes_ne_nil]

omit [Build] in
theorem units_eq_bom {c : Char} {ch : UInt16} (h : units c = [ch]) :
    c = Utf8.bom ↔ ch = byteOrderMark := by
  constructor
  · rintro rfl
    rw [Utf8.units_bom, List.cons.injEq] at h
    exact h.1.symm
  · rintro rfl
    rw [← Utf8.units_bom] at h
    exact (units_append_inj (congrArg (· ++ []) h)).1

/-- A unit that is neither escaped nor lost is read as it is, but for U+FEFF where a run begins. -/
theorem unit_exact (hcodec : WithUtf8 codec) {e fresh : Bool} {ch : UInt16} {s : Reading}
    (hs : Exact e fresh s) (hplain : isEscaped codec e ch = false)
    (hsur : isSurrogate ch.toNat = false)
    (hc : (settled s).inQuotedString = true ∨ ch ≠ unit ',') :
    let s' := (escapeUnitCodec codec e ch).1.foldl (unescapeByteCodec utf8Codec) s
    Exact false false s' ∧ settled s' = { settled s with
      stringResult := (settled s).stringResult ++
        if (fresh && ch == byteOrderMark) = true then [] else [ch] } := by
  rcases unescaped_cases hcodec hs.inItem hplain hc with ⟨hsur', -⟩ | ⟨-, -, -, hrun⟩
  · rw [hsur] at hsur'
    cases hsur'
  · obtain ⟨st, text, c, hu, hs', hset, hgood, hbom⟩ := hrun hs.digits
    simp only
    rw [hs']
    refine ⟨⟨.normal st _ hgood, .inl rfl, ?_⟩, ?_⟩
    · refine iff_of_false Bool.false_ne_true fun h => ?_
      exact List.append_ne_nil_of_right_ne_nil text (List.cons_ne_nil c []) (utf8_eq_nil.mp h)
    · rw [settled_run hset hgood, hu]
      have hiff : (text = [] ∧ c = Utf8.bom) ↔ (fresh && ch == byteOrderMark) = true := by
        rw [Bool.and_eq_true, beq_iff_eq, ← units_eq_bom hu]
        refine and_congr_left fun hcbom => ?_
        rw [hs.fresh, hbom.resolve_left fun h => h hcbom, utf8_eq_nil]
      simp only [hiff]

/-- The reader has what was there and `str`, and it would chop trailing spaces only when `str` ends
with one. -/
structure Gained (str : Str) (st st' : Unescape) : Prop where
  eq : ∃ limit, st' = { st with stringResult := st.stringResult ++ str, chopLimit := limit }
  keeps : str ≠ [] → str.getLast? ≠ some (unit ' ') →
    iniChopTrailingSpaces st'.stringResult st'.chopLimit = st'.stringResult

omit [Build] in
theorem Gained.cons (ch : UInt16) {rest : Str} {st st₁ st' : Unescape}
    (h₁ : ∃ limit, st₁ = { st.push ch with chopLimit := limit })
    (hkeep : ch ≠ unit ' ' →
      iniChopTrailingSpaces st₁.stringResult st₁.chopLimit = st₁.stringResult)
    (h : Gained rest st₁ st') (hnil : rest = [] → st' = st₁) : Gained (ch :: rest) st st' := by
  obtain ⟨limit₁, heq₁⟩ := h₁
  obtain ⟨limit, heq⟩ := h.eq
  refine ⟨⟨limit, ?_⟩, fun _ hlast => ?_⟩
  · rw [heq, heq₁]
    simp [Unescape.push]
  · by_cases hrest : rest = []
    · rw [hrest, List.getLast?_singleton] at hlast
      rw [hnil hrest]
      exact hkeep fun hsp => hlast (congrArg some hsp)
    · rw [List.getLast?_cons_of_ne_nil hrest] at hlast
      exact h.keeps hrest hlast

/-- A string of which nothing is lost is read as it is, and any other one is read as a shorter
one. -/
theorem units_exact (hcodec : WithUtf8 codec) :
    ∀ (str : Str) {e : Bool} (fresh : Bool) {s : Reading}, Exact e fresh s →
    ((settled s).inQuotedString = true ∨ unit ',' ∉ str) →
    let s' := (escapeUnitsCodec codec e str).foldl (unescapeByteCodec utf8Codec) s
    if survives codec e fresh str = true then Gained str (settled s) (settled s')
    else (settled s').stringResult.length < (settled s).stringResult.length + str.length
  | [], e, fresh, s, hs, _ => ⟨⟨(settled s).chopLimit, by simp [escapeUnitsCodec]⟩,
      fun h => absurd rfl h⟩
  | ch :: rest, e, fresh, s, hs, hc => by
    have hch : (settled s).inQuotedString = true ∨ ch ≠ unit ',' :=
      hc.imp_right fun h => by rintro rfl; exact h List.mem_cons_self
    have hrest := hc.imp_right fun h hm => h (List.mem_cons_of_mem ch hm)
    obtain ⟨hin₁, hmore₁⟩ := unit_more hcodec e hs.inItem hch
    rw [← hmore₁.inQuoted] at hrest
    obtain ⟨-, hmore⟩ := units_more hcodec rest (escapeUnitCodec codec e ch).2 hin₁ hrest
    simp only
    rw [escapeUnitsCodec, List.foldl_append, survives, List.length_cons]
    have hnil : rest = [] → settled
        ((escapeUnitsCodec codec (escapeUnitCodec codec e ch).2 rest).foldl
          (unescapeByteCodec utf8Codec)
          ((escapeUnitCodec codec e ch).1.foldl (unescapeByteCodec utf8Codec) s)) =
        settled ((escapeUnitCodec codec e ch).1.foldl (unescapeByteCodec utf8Codec) s) := by
      rintro rfl
      rfl
    cases hplain : isEscaped codec e ch with
    | true =>
      have hescaped := escaped_unit hs.inItem hplain
      have hexact : Exact (escapeUnitCodec codec e ch).2 true
          ((escapeUnitCodec codec e ch).1.foldl (unescapeByteCodec utf8Codec) s) :=
        ⟨hescaped.inItem, hescaped.digits, iff_of_true rfl hescaped.run⟩
      have ih := units_exact hcodec rest _ hexact hrest
      simp only at ih
      rw [if_pos rfl]
      split
      · rename_i hsurvives
        rw [if_pos hsurvives] at ih
        refine Gained.cons ch ⟨_, hescaped.settled⟩ (fun _ => ?_) ih hnil
        rw [hescaped.settled]
        exact chop_length _
      · rename_i hsurvives
        rw [if_neg hsurvives, hescaped.settled] at ih
        simp only [Unescape.push, Unescape.limit, List.length_append, List.length_singleton] at ih
        omega
    | false =>
      rw [if_neg Bool.false_ne_true]
      have hshort := hmore.length
      cases hsur : isSurrogate ch.toNat with
      | true =>
        rcases unescaped_cases hcodec hs.inItem hplain hch with ⟨-, heq⟩ | ⟨hsur', -⟩
        · rw [heq] at hshort ⊢
          simp only [Bool.not_true, Bool.false_and, Bool.false_eq_true, if_false]
          omega
        · rw [hsur] at hsur'
          cases hsur'
      | false =>
        obtain ⟨hexact, heq⟩ := unit_exact hcodec hs hplain hsur hch
        simp only at hexact heq
        have hfalse : (escapeUnitCodec codec e ch).2 = false := by
          rw [escapeUnitCodec_plain hcodec hplain]
        by_cases hbom : (fresh && ch == byteOrderMark) = true
        · rw [if_pos hbom, List.append_nil] at heq
          rw [heq] at hshort
          simp only at hshort
          simp only [hbom, Bool.not_true, Bool.and_false, Bool.false_and, Bool.false_eq_true,
            if_false]
          omega
        · rw [if_neg hbom] at heq
          rw [hfalse] at hnil ⊢
          have ih := units_exact hcodec rest _ hexact hrest
          simp only at ih
          have hbom : (fresh && ch == byteOrderMark) = false := by simpa using hbom
          simp only [hbom, Bool.not_false, Bool.true_and]
          split
          · rename_i hsurvives
            rw [if_pos hsurvives] at ih
            refine Gained.cons ch ⟨_, heq⟩ (fun hsp => ?_) ih hnil
            rw [heq]
            refine chop_nonblank _ ?_ _
            simp only [isBlank, Bool.or_eq_false_iff, beq_eq_false_iff_ne, ne_eq]
            refine ⟨hsp, ?_⟩
            rintro rfl
            exact absurd (plainUnit_of hplain).lower (by decide)
          · rename_i hsurvives
            rw [if_neg hsurvives, heq] at ih
            simp only [List.length_append, List.length_singleton] at ih
            omega

end Build

end Libpdk.Settings

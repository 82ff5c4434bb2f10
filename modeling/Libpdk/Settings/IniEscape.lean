import Libpdk.Settings.IniText

/-!
# Escaping is undone

* `iniUnescapedKey_escaped`: a key read back is the key.
* `iniUnescapedStringList_string`: a value read back is the value.
* `iniUnescapedStringList_list`: a list of two or more strings, written with
  `iniEscapedStringList`, is read back as that list.

For values the invariant goes along the bytes of one string: behind the bytes
of each code unit the reader has exactly that code unit more
(`foldl_escapeUnits`), provided no digit follows a numeric escape.
-/
namespace Libpdk.Settings

/-! ## Digits -/

theorem hexValue_digit (n : Nat) (h : n < 16) :
    hexValue (UInt8.ofNat (if n < 10 then n + 48 else n + 87)).toNat = some n := by
  revert n
  decide

theorem hexValue_hexDigit (n : Nat) (h : n < 16) : hexValue (hexDigit n).toNat = some n := by
  revert n
  decide

/-- The digits of `n`, for a reader that makes a number of them. -/
theorem foldl_hexDigits {S : Type} (step : S → UInt8 → S) (first : S) (seen : Nat → S)
    (hfirst : ∀ b d, hexValue b.toNat = some d → step first b = seen d)
    (hseen : ∀ n b d, hexValue b.toNat = some d → step (seen n) b = seen (16 * n + d)) :
    ∀ (fuel n : Nat), n < 16 ^ (fuel + 1) →
      (ulltoa2 (fuel + 1) n 16).foldl step first = seen n := by
  intro fuel
  induction fuel with
  | zero =>
    intro n h
    have hd := hexValue_digit (n % 16) (Nat.mod_lt _ (by decide))
    have h0 : n / 16 = 0 := by omega
    rw [ulltoa2, if_pos h0, List.nil_append, List.foldl_cons, List.foldl_nil, hfirst _ _ hd,
      show n % 16 = n by omega]
  | succ fuel ih =>
    intro n h
    have hd := hexValue_digit (n % 16) (Nat.mod_lt _ (by decide))
    rw [ulltoa2]
    by_cases h0 : n / 16 = 0
    · rw [if_pos h0, List.nil_append, List.foldl_cons, List.foldl_nil, hfirst _ _ hd,
        show n % 16 = n by omega]
    · have hdigits := ih (n / 16) (by rw [Nat.pow_succ] at h; omega)
      rw [if_neg h0, List.foldl_append, hdigits, List.foldl_cons, List.foldl_nil,
        hseen _ _ _ hd, show 16 * (n / 16) + n % 16 = n by omega]

theorem foldl_number16 (st : Unescape) (ch : UInt16) :
    (number16 ch.toNat).foldl unescapeByte (.escapeX, st) = (.hexEscape ch.toNat, st) := by
  refine foldl_hexDigits unescapeByte (.escapeX, st) (fun n => (.hexEscape n, st)) ?_ ?_ 63
    ch.toNat (Nat.lt_trans ch.toNat_lt (by decide))
  · intro b d hd
    simp only [unescapeByte, hd]
  · intro n b d hd
    simp only [unescapeByte, hd]

/-! ## Keys -/

/-- What the readers rely on in an upper-case hexadecimal digit. -/
theorem hexDigit_plain (n : Nat) (h : n < 16) : hexDigit n ≠ 0 ∧ isCSpace (hexDigit n) = false ∧
    hexDigit n ≠ byte '-' ∧ hexDigit n ≠ byte '+' ∧ hexDigit n ≠ byte 'x' ∧
    hexDigit n ≠ byte 'X' ∧ hexDigit n ≠ byte 'U' := by
  revert n
  decide

theorem strtollDigits_hexDigits : ∀ (l : List Nat) (n : Nat) (any : Bool), (∀ d ∈ l, d < 16) →
    (l = [] → any = true) →
    strtollDigits (l.map hexDigit) n any = some (l.foldl (fun n d => 16 * n + d) n)
  | [], n, any, _, hany => by simp [strtollDigits, hany rfl]
  | d :: l, n, any, h, _ => by
    rw [List.map_cons, strtollDigits, hexValue_hexDigit d (h d List.mem_cons_self)]
    exact strtollDigits_hexDigits l _ true (fun d' hd => h d' (List.mem_cons_of_mem _ hd)) (fun _ => rfl)

theorem strtollPrefix_hexDigits (l : List Nat) (h : ∀ d ∈ l, d < 16) :
    strtollPrefix (l.map hexDigit) = l.map hexDigit := by
  match l with
  | [] => rfl
  | [_] => rfl
  | [_, _] => rfl
  | z :: x :: d :: l =>
    obtain ⟨-, -, -, -, h1, h2, -⟩ := hexDigit_plain x (h x (by simp))
    simp only [List.map_cons, strtollPrefix]
    rw [if_neg fun hh => hh.2.1.elim h1 h2]

theorem toInt16_hexDigits (l : List Nat) (h : ∀ d ∈ l, d < 16) (hne : l ≠ []) :
    toInt16 (l.map hexDigit) = some ((l.foldl (fun n d => 16 * n + d) 0 : Nat) : Int) := by
  have htake : (l.map hexDigit).takeWhile (· ≠ 0) = l.map hexDigit := by
    rw [List.takeWhile_eq_self_iff]
    simp only [List.mem_map]
    rintro _ ⟨d, hd, rfl⟩
    simpa using (hexDigit_plain d (h d hd)).1
  obtain ⟨d, l, rfl⟩ := List.exists_cons_of_ne_nil hne
  obtain ⟨-, h1, h2, h3, -⟩ := hexDigit_plain d (h d List.mem_cons_self)
  unfold toInt16
  rw [htake, List.map_cons, List.dropWhile_cons_of_neg (by simp [h1])]
  simp only [if_neg h2, if_neg h3]
  rw [← List.map_cons, strtollPrefix_hexDigits _ h, strtollDigits_hexDigits _ 0 false h (by simp)]
  rfl

theorem characterOfInt_toNat (ch : UInt16) : characterOfInt (ch.toNat : Int) = ch := by
  have := ch.toNat_lt
  unfold characterOfInt
  rw [show ((ch.toNat : Int) % 65536).toNat = ch.toNat by omega, UInt16.ofNat_toNat]

theorem isPlainKeyUnit_byte {ch : UInt16} (h : isPlainKeyUnit ch = true) :
    ch.toUInt8.toUInt16 = ch := by
  have hr : ch.toNat < 127 := by
    unfold isPlainKeyUnit at h
    simp only [Bool.or_eq_true, Bool.and_eq_true, decide_eq_true_eq, beq_iff_eq,
      UInt16.le_iff_toNat_le, ← UInt16.toNat_inj] at h
    simp at h
    omega
  apply UInt16.toNat_inj.mp
  rw [UInt8.toNat_toUInt16, UInt16.toNat_toUInt8]
  omega

/-- The byte of such a character is no other byte. -/
theorem isPlainKeyUnit_ne {ch : UInt16} (h : isPlainKeyUnit ch = true) {b : UInt8}
    (hb : isPlainKeyUnit b.toUInt16 = false) : ch.toUInt8 ≠ b := by
  rintro rfl
  rw [isPlainKeyUnit_byte h, h] at hb
  cases hb

/-- The bytes of one code unit of a key, in front of any other bytes. -/
theorem iniUnescapedKey_unit (ch : UInt16) (rest : Bytes) :
    iniUnescapedKey (escapeKeyUnit ch ++ rest) = ch :: iniUnescapedKey rest := by
  have hn := ch.toNat_lt
  unfold escapeKeyUnit
  split
  · rename_i h
    subst h
    rw [List.singleton_append, iniUnescapedKey, if_pos rfl]
  split
  · rename_i h
    rw [List.singleton_append, iniUnescapedKey, if_neg (isPlainKeyUnit_ne h (by decide)),
      if_pos (.inl (isPlainKeyUnit_ne h (by decide))), isPlainKeyUnit_byte h]
  split
  · rename_i hle
    have hle : ch.toNat ≤ 255 := UInt16.le_iff_toNat_le.mp hle
    have hd : ∀ d ∈ [ch.toNat / 16, ch.toNat % 16], d < 16 := by simp; omega
    have hU := (hexDigit_plain (ch.toNat / 16) (by omega)).2.2.2.2.2.2
    have hint := toInt16_hexDigits _ hd (by simp)
    simp only [List.map_cons, List.map_nil, List.foldl_cons, List.foldl_nil] at hint
    rw [List.cons_append, iniUnescapedKey, if_neg (by decide), if_neg (by simp)]
    simp only [List.cons_append, List.nil_append, List.head?_cons, Option.some.injEq, hU, if_false,
      List.length_cons, List.drop_zero, List.take_succ_cons, List.take_zero, hint, Nat.zero_add,
      List.drop_succ_cons]
    rw [if_neg (by omega), show 16 * (16 * 0 + ch.toNat / 16) + ch.toNat % 16 = ch.toNat by omega,
      characterOfInt_toNat]
  · have hd : ∀ d ∈ [ch.toNat / 4096 % 16, ch.toNat / 256 % 16, ch.toNat / 16 % 16, ch.toNat % 16],
        d < 16 := by simp; omega
    have hint := toInt16_hexDigits _ hd (by simp)
    simp only [List.map_cons, List.map_nil, List.foldl_cons, List.foldl_nil] at hint
    rw [List.cons_append, iniUnescapedKey, if_neg (by decide), if_neg (by simp)]
    simp only [List.cons_append, List.nil_append, List.head?_cons, if_true,
      List.length_cons, List.take_succ_cons, List.take_zero, hint, List.drop_succ_cons, List.drop_zero]
    rw [if_neg (by omega), show 16 * (16 * (16 * (16 * 0 + ch.toNat / 4096 % 16) + ch.toNat / 256 % 16) +
      ch.toNat / 16 % 16) + ch.toNat % 16 = ch.toNat by omega, characterOfInt_toNat]

theorem iniUnescapedKey_escaped (key : Str) : iniUnescapedKey (iniEscapedKey key) = key := by
  induction key with
  | nil => simp [iniEscapedKey, iniUnescapedKey]
  | cons ch key ih =>
    unfold iniEscapedKey at ih ⊢
    rw [List.flatMap_cons, iniUnescapedKey_unit, ih]

/-! ## One code unit -/

/-- The variables once a numeric escape that may still go on has ended. -/
def settle : Mode × Unescape → Unescape
  | (.hexEscape v, st) => (st.push (.ofNat v)).limit
  | (.octEscape v, st) => (st.push (.ofNat v)).limit
  | (_, st) => st

/-- The reader is behind a code unit; it may be in a numeric escape only where
the writer escapes the next digit. -/
def Ready (e : Bool) (s : Mode × Unescape) : Prop :=
  s.1 = .normal ∨ (e = true ∧ ∃ v, s.1 = .hexEscape v ∨ s.1 = .octEscape v)

theorem octal_hexValue {b : UInt8} (h : byte '0' ≤ b ∧ b ≤ byte '7') :
    (hexValue b.toNat).isSome := by
  obtain ⟨h1, h2⟩ := h
  simp only [UInt8.le_iff_toNat_le] at h1 h2
  have h1 : 48 ≤ b.toNat := h1
  have h2 : b.toNat ≤ 55 := h2
  rw [hexValue, if_pos ⟨h1, by omega⟩]
  rfl

/-- A byte that is no digit ends a numeric escape. -/
theorem unescapeByte_ready {e : Bool} {s : Mode × Unescape} (hs : Ready e s) {b : UInt8}
    (hb : e = true → hexValue b.toNat = none) : unescapeByte s b = normalByte (settle s) b := by
  obtain ⟨m, st⟩ := s
  rcases hs with hs | ⟨he, v, hs | hs⟩ <;> simp only at hs <;> subst hs
  · rfl
  · simp only [unescapeByte, hb he, settle]
  · have hn : ¬ (byte '0' ≤ b ∧ b ≤ byte '7') := fun h => by
      have := octal_hexValue h
      rw [hb he] at this
      cases this
    simp only [unescapeByte, if_neg hn, settle]

/-- A backslash starts an escape wherever the reader is. -/
theorem unescapeByte_backslash {e : Bool} {s : Mode × Unescape} (hs : Ready e s) :
    unescapeByte s 0x5C = (.escape, settle s) :=
  unescapeByte_ready hs fun _ => by decide

theorem chop_length (r : Str) : iniChopTrailingSpaces r r.length = r := by
  simp [iniChopTrailingSpaces]

theorem chop_nonblank (r : Str) {ch : UInt16} (h : isBlank ch = false) (limit : Nat) :
    iniChopTrailingSpaces (r ++ [ch]) limit = r ++ [ch] := by
  unfold iniChopTrailingSpaces
  by_cases hl : limit ≤ r.length
  · rw [List.drop_append_of_le_length hl, List.rdropWhile_concat_neg _ _ _ (by simp [h]),
      ← List.drop_append_of_le_length hl, List.take_append_drop]
  · rw [List.drop_eq_nil_of_le (by simp; omega), List.take_of_length_le (by simp; omega)]
    simp

/-- What the reader has behind the bytes of `ch`: `ch` more, and trailing
spaces would be chopped only when `ch` is one. -/
structure Added (st st' : Unescape) (ch : UInt16) : Prop where
  eq : ∃ limit, st' = { st.push ch with chopLimit := limit }
  keeps : ch ≠ unit ' ' → iniChopTrailingSpaces st'.stringResult st'.chopLimit = st'.stringResult

theorem added_limit (st : Unescape) (ch : UInt16) : Added st (st.push ch).limit ch :=
  ⟨⟨_, rfl⟩, fun _ => chop_length _⟩

theorem escapeLetter_find {ch : UInt16} {b : UInt8} (h : escapeLetter ch = some b) :
    escapeCodes.find? (·.1 == b) = some (b, ch) := by
  unfold escapeLetter at h
  split at h
  · rename_i e; subst e; cases h; rfl
  split at h
  · rename_i e; subst e; cases h; rfl
  split at h
  · rename_i e; subst e; cases h; rfl
  split at h
  · rename_i e; subst e; cases h; rfl
  split at h
  · rename_i e; subst e; cases h; rfl
  split at h
  · rename_i e; subst e; cases h; rfl
  split at h
  · rename_i e; subst e; cases h; rfl
  split at h
  · rename_i e; subst e; cases h; rfl
  split at h
  · rename_i e; subst e; cases h; rfl
  · cases h

theorem foldl_hex {e : Bool} {s : Mode × Unescape} (hs : Ready e s) (ch : UInt16) :
    (0x5C :: byte 'x' :: number16 ch.toNat).foldl unescapeByte s = (.hexEscape ch.toNat, settle s) := by
  rw [List.foldl_cons, unescapeByte_backslash hs, List.foldl_cons]
  exact foldl_number16 (settle s) ch

/-- What the `default` branch of `iniEscapedString` writes as it is. -/
structure Plain (ch : UInt16) : Prop where
  lower : 0x20 ≤ ch.toNat
  upper : ch.toNat < 0x7F
  quote : ch ≠ 0x22
  backslash : ch ≠ 0x5C

theorem plain_of {ch : UInt16} (hl : escapeLetter ch = none) (hp : ¬ (ch ≤ 0x1F ∨ 0x7F ≤ ch)) :
    Plain ch := by
  have h1 : ¬ ch.toNat ≤ 31 := fun h => hp (.inl (UInt16.le_iff_toNat_le.mpr h))
  have h2 : ¬ 127 ≤ ch.toNat := fun h => hp (.inr (UInt16.le_iff_toNat_le.mpr h))
  refine ⟨by omega, by omega, ?_, ?_⟩
  · rintro rfl; exact absurd hl (by decide)
  · rintro rfl; exact absurd hl (by decide)

theorem Plain.toNat {ch : UInt16} (h : Plain ch) : ch.toUInt8.toNat = ch.toNat := by
  have := h.upper
  rw [UInt16.toNat_toUInt8]
  omega

theorem Plain.toUInt16 {ch : UInt16} (h : Plain ch) : ch.toUInt8.toUInt16 = ch := by
  apply UInt16.toNat_inj.mp
  rw [UInt8.toNat_toUInt16, h.toNat]

theorem Plain.ne {ch : UInt16} (h : Plain ch) {b : UInt8} (hb : ch ≠ b.toUInt16) :
    ch.toUInt8 ≠ b := by
  rintro rfl
  exact hb h.toUInt16.symm

theorem Plain.normalByte {ch : UInt16} (h : Plain ch) {st : Unescape}
    (hc : st.inQuotedString = true ∨ ch ≠ unit ',') :
    normalByte st ch.toUInt8 = (.normal, st.push ch) := by
  have hcomma : ¬ (ch.toUInt8 = byte ',' ∧ ¬ st.inQuotedString) := by
    rintro ⟨e, hq⟩
    rcases hc with hc | hc
    · exact hq hc
    · exact h.ne (b := byte ',') hc e
  rw [Settings.normalByte, if_neg (h.ne (b := 0x5C) h.backslash),
    if_neg (h.ne (b := 0x22) h.quote), if_neg hcomma, h.toUInt16]

theorem settle_inQuoted (s : Mode × Unescape) : (settle s).inQuotedString = s.2.inQuotedString := by
  obtain ⟨m, st⟩ := s
  cases m <;> rfl

theorem escapeUnit_added {e : Bool} {s : Mode × Unescape} (hs : Ready e s) {ch : UInt16}
    (hc : s.2.inQuotedString = true ∨ ch ≠ unit ',') :
    Ready (escapeUnit e ch).2 ((escapeUnit e ch).1.foldl unescapeByte s) ∧
      Added (settle s) (settle ((escapeUnit e ch).1.foldl unescapeByte s)) ch := by
  have hhex : Ready true (Mode.hexEscape ch.toNat, settle s) ∧
      Added (settle s) (settle (Mode.hexEscape ch.toNat, settle s)) ch := by
    refine ⟨.inr ⟨rfl, _, .inl rfl⟩, ?_⟩
    simp only [settle, UInt16.ofNat_toNat]
    exact added_limit _ _
  unfold escapeUnit
  split
  · simp only
    rw [foldl_hex hs]
    exact hhex
  rename_i hnd
  split
  · rename_i h0
    subst h0
    simp only [List.foldl_cons, List.foldl_nil]
    rw [unescapeByte_backslash hs]
    exact ⟨.inr ⟨rfl, 0, .inr rfl⟩, added_limit _ _⟩
  rename_i h0
  split
  · rename_i b hb
    simp only [List.foldl_cons, List.foldl_nil]
    rw [unescapeByte_backslash hs]
    simp only [unescapeByte, escapeLetter_find hb]
    exact ⟨.inl rfl, added_limit _ _⟩
  rename_i hl
  split
  · simp only
    rw [foldl_hex hs]
    exact hhex
  · rename_i hp
    simp only [List.foldl_cons, List.foldl_nil]
    have hplain := plain_of hl hp
    rw [unescapeByte_ready hs, hplain.normalByte (by rw [settle_inQuoted]; exact hc)]
    · refine ⟨.inl rfl, ⟨_, rfl⟩, fun hsp => ?_⟩
      refine chop_nonblank _ ?_ _
      simp only [isBlank, Bool.or_eq_false_iff, beq_eq_false_iff_ne, ne_eq]
      refine ⟨hsp, ?_⟩
      rintro rfl
      exact absurd hl (by decide)
    · rintro rfl
      rw [hplain.toNat]
      simpa [isHexUnit] using hnd

/-! ## One string -/

/-- Behind the bytes of `str` the reader has exactly `str` more, and it would
chop trailing spaces only when `str` ends with one. -/
theorem escapeUnits_added : ∀ (str : Str) {e : Bool} {s : Mode × Unescape}, Ready e s →
    (s.2.inQuotedString = true ∨ unit ',' ∉ str) → ∃ e' limit,
      Ready e' ((escapeUnits e str).foldl unescapeByte s) ∧
      settle ((escapeUnits e str).foldl unescapeByte s) =
        { settle s with stringResult := (settle s).stringResult ++ str, chopLimit := limit } ∧
      (str ≠ [] → str.getLast? ≠ some (unit ' ') →
        iniChopTrailingSpaces ((settle s).stringResult ++ str) limit = (settle s).stringResult ++ str)
  | [], e, s, hs, _ => ⟨e, (settle s).chopLimit, hs, by simp [escapeUnits], fun h => absurd rfl h⟩
  | ch :: rest, e, s, hs, hc => by
    have hch : s.2.inQuotedString = true ∨ ch ≠ unit ',' :=
      hc.imp_right fun h => by rintro rfl; exact h List.mem_cons_self
    obtain ⟨hs₁, ⟨limit₁, heq⟩, hkeep⟩ := escapeUnit_added hs hch
    rw [escapeUnits, List.foldl_append]
    generalize (escapeUnit e ch).1.foldl unescapeByte s = s₁ at hs₁ heq hkeep
    have hq : s₁.2.inQuotedString = s.2.inQuotedString := by
      rw [← settle_inQuoted, heq]
      exact settle_inQuoted s
    have hrest : s₁.2.inQuotedString = true ∨ unit ',' ∉ rest := by
      rw [hq]
      exact hc.imp_right fun h hm => h (List.mem_cons_of_mem _ hm)
    obtain ⟨e', limit, hs', heq', hkeep'⟩ := escapeUnits_added rest hs₁ hrest
    refine ⟨e', limit, hs', ?_, fun _ hlast => ?_⟩
    · rw [heq', heq]
      simp [Unescape.push]
    · by_cases hr : rest = []
      · subst hr
        simp only [escapeUnits, List.foldl_nil] at heq'
        rw [heq] at heq' hkeep
        simp only [Unescape.push, List.append_nil, Unescape.mk.injEq, true_and] at heq' hkeep
        rw [← heq']
        exact hkeep (by simpa using hlast)
      · have := hkeep' hr (by rwa [List.getLast?_cons_of_ne_nil hr] at hlast)
        rw [heq] at this
        simpa [Unescape.push] using this

theorem escapeUnits_getLast : ∀ (str : Str) (e : Bool), str.getLast? = some (unit ' ') →
    (escapeUnits e str).getLast? = some (byte ' ')
  | [], _, h => by simp at h
  | ch :: rest, e, h => by
    rw [escapeUnits, List.getLast?_append]
    by_cases hr : rest = []
    · subst hr
      simp only [List.getLast?_singleton, Option.some.injEq] at h
      subst h
      cases e <;> decide
    · rw [List.getLast?_cons_of_ne_nil hr] at h
      rw [escapeUnits_getLast rest _ h]
      rfl

/-- Where a code unit's bytes start. -/
theorem escapeUnit_head (e : Bool) (ch : UInt16) : ∃ b l, (escapeUnit e ch).1 = b :: l ∧
    (b = 0x5C ∨ 0x20 ≤ b.toNat) := by
  unfold escapeUnit
  split
  · exact ⟨_, _, rfl, .inl rfl⟩
  split
  · exact ⟨_, _, rfl, .inl rfl⟩
  split
  · exact ⟨_, _, rfl, .inl rfl⟩
  rename_i hl
  split
  · exact ⟨_, _, rfl, .inl rfl⟩
  · rename_i hp
    have hplain := plain_of hl hp
    exact ⟨_, _, rfl, .inr (by rw [hplain.toNat]; exact hplain.lower)⟩

/-- The reader at the start of a string. -/
structure ItemStart (st : Unescape) : Prop where
  result : st.stringResult = []
  inQuoted : st.inQuotedString = false
  quoted : st.currentValueIsQuoted = false

/-- The reader behind the bytes of the string `str`, which it started in `st`:
whether the bytes end or a comma follows, `str` is the string it has read. -/
structure ItemDone (st : Unescape) (str : Str) (s : Mode × Unescape) : Prop where
  stop : (stopMode s).stringResult = str ∧ (stopMode s).isStringList = st.isStringList ∧
    (stopMode s).stringListResult = st.stringListResult
  comma : ∃ st', unescapeByte s (byte ',') = (.skipSpaces, st') ∧ ItemStart st' ∧
    st'.isStringList = true ∧
    st'.stringListResult = (if st.isStringList then st.stringListResult else []) ++ [str]

/-- A string that has been read, with nothing to chop. -/
theorem itemDone_of {st : Unescape} {str : Str} {s : Mode × Unescape} (st' : Unescape)
    (hcomma : unescapeByte s (byte ',') = (.skipSpaces, st'.comma))
    (hstop : (stopMode s).stringResult = str ∧ (stopMode s).isStringList = st.isStringList ∧
      (stopMode s).stringListResult = st.stringListResult)
    (hchop : st'.chop = st') (hres : st'.stringResult = str) (hq : st'.inQuotedString = false)
    (hlist : st'.isStringList = st.isStringList ∧ st'.stringListResult = st.stringListResult) :
    ItemDone st str s := by
  refine ⟨hstop, st'.comma, hcomma, ⟨rfl, ?_, rfl⟩, rfl, ?_⟩
  · simp only [Unescape.comma, hchop, hq]
  · simp only [Unescape.comma, hchop, hres, hlist]

theorem normalByte_comma {st : Unescape} (hq : st.inQuotedString = false) :
    normalByte st (byte ',') = (.skipSpaces, st.comma) := by
  simp [normalByte, hq]

theorem chop_quoted {st : Unescape} (h : st.currentValueIsQuoted = true) : st.chop = st := by
  simp [Unescape.chop, h]

theorem chop_of_eq {st : Unescape}
    (h : iniChopTrailingSpaces st.stringResult st.chopLimit = st.stringResult) : st.chop = st := by
  unfold Unescape.chop
  split
  · rfl
  · rw [h]

theorem quoted_done {st : Unescape} (hst : ItemStart st) (str : Str) :
    ItemDone st str ((0x22 :: (escapeUnits false str ++ [0x22])).foldl unescapeByte
      (.skipSpaces, st)) := by
  obtain ⟨hr, hq, hv⟩ := hst
  rw [List.foldl_cons, List.foldl_append]
  have h1 : unescapeByte (.skipSpaces, st) 0x22 =
      (.normal, { st.limit with currentValueIsQuoted := true, inQuotedString := true }) := by
    simp [unescapeByte, normalByte, Unescape.limit, hq]
  rw [h1]
  obtain ⟨e', limit, hs', heq, -⟩ := escapeUnits_added str (e := false)
    (s := (.normal, { st.limit with currentValueIsQuoted := true, inQuotedString := true }))
    (.inl rfl) (.inl rfl)
  generalize (escapeUnits false str).foldl unescapeByte _ = s' at hs' heq
  have h2 : [0x22].foldl unescapeByte s' = (.skipSpaces, { st with
      stringResult := str, currentValueIsQuoted := true, chopLimit := limit }) := by
    rw [List.foldl_cons, List.foldl_nil, unescapeByte_ready hs' fun _ => by decide, heq]
    simp [normalByte, settle, Unescape.limit, hr, hq]
  rw [h2]
  refine itemDone_of { st with
    stringResult := str, currentValueIsQuoted := true, chopLimit := str.length } ?_ ?_
    (chop_quoted rfl) rfl hq ⟨rfl, rfl⟩
  · simp only [unescapeByte]
    rw [if_neg (by decide)]
    exact normalByte_comma hq
  · simp [stopMode, Unescape.limit, Unescape.chop]

/-- An unquoted string does not start with a space or tab, so the reader is
past `StSkipSpaces` at once. -/
theorem foldl_unquoted {st : Unescape} {str : Str} (hne : str ≠ [])
    (hhead : (escapeUnits false str).head? ≠ some (byte ' ')) :
    (escapeUnits false str).foldl unescapeByte (.skipSpaces, st) =
      (escapeUnits false str).foldl unescapeByte (.normal, st.limit) := by
  obtain ⟨ch, rest, rfl⟩ := List.exists_cons_of_ne_nil hne
  obtain ⟨b, l, hb, hlow⟩ := escapeUnit_head false ch
  rw [escapeUnits, hb, List.cons_append] at hhead ⊢
  rw [List.foldl_cons, List.foldl_cons]
  congr 1
  have hblank : ¬ (b = byte ' ' ∨ b = 9) := by
    rintro (rfl | rfl)
    · simp at hhead
    · rcases hlow with hlow | hlow <;> revert hlow <;> decide
  simp only [unescapeByte, if_neg hblank]

theorem unquoted_done {st : Unescape} (hst : ItemStart st) {str : Str} (hcomma : unit ',' ∉ str)
    (hhead : (escapeUnits false str).head? ≠ some (byte ' '))
    (hlast : (escapeUnits false str).getLast? ≠ some (byte ' ')) :
    ItemDone st str ((escapeUnits false str).foldl unescapeByte (.skipSpaces, st)) := by
  obtain ⟨hr, hq, hv⟩ := hst
  by_cases hne : str = []
  · subst hne
    have hchop : st.limit.chop = st.limit := chop_of_eq (chop_length _)
    refine itemDone_of st.limit ?_ ?_ hchop hr hq ⟨rfl, rfl⟩
    · simp only [escapeUnits, List.foldl_nil, unescapeByte]
      rw [if_neg (by decide)]
      exact normalByte_comma hq
    · simp only [escapeUnits, List.foldl_nil, stopMode, hchop]
      exact ⟨hr, rfl, rfl⟩
  · rw [foldl_unquoted hne hhead]
    obtain ⟨e', limit, hs', heq, hkeep⟩ := escapeUnits_added str (e := false)
      (s := (.normal, st.limit)) (.inl rfl) (.inr hcomma)
    have hkeep := hkeep hne fun h => hlast (escapeUnits_getLast str false h)
    generalize (escapeUnits false str).foldl unescapeByte _ = s' at hs' heq
    have hsettle : settle s' = { st with stringResult := str, chopLimit := limit } := by
      rw [heq]
      simp [settle, Unescape.limit, hr]
    have hchop : (settle s').chop = settle s' := by
      refine chop_of_eq ?_
      rw [hsettle]
      simpa [settle, Unescape.limit, hr] using hkeep
    refine itemDone_of (settle s') ?_ ?_ hchop (by rw [hsettle]) (by rw [hsettle]; exact hq)
      (by rw [hsettle]; exact ⟨rfl, rfl⟩)
    · rw [unescapeByte_ready hs' fun _ => by decide]
      exact normalByte_comma (by rw [hsettle]; exact hq)
    · have hstop : (stopMode s').stringResult = (settle s').stringResult ∧
          (stopMode s').isStringList = (settle s').isStringList ∧
          (stopMode s').stringListResult = (settle s').stringListResult := by
        obtain ⟨m, st'⟩ := s'
        rcases hs' with hs' | ⟨-, v, hs' | hs'⟩ <;> simp only at hs' <;> subst hs'
        · simp only [settle] at hchop
          simp only [stopMode, settle, hchop, and_self]
        · exact ⟨rfl, rfl, rfl⟩
        · exact ⟨rfl, rfl, rfl⟩
      rw [hsettle] at hstop
      exact hstop

theorem not_needsQuotes {str : Str} (h : needsQuotes str = false) :
    unit ',' ∉ str ∧ unit ';' ∉ str ∧ unit '=' ∉ str := by
  unfold needsQuotes at h
  simp only [List.any_eq_false, Bool.or_eq_true, beq_iff_eq, not_or] at h
  exact ⟨fun hm => (h _ hm).1.2 rfl, fun hm => (h _ hm).1.1 rfl, fun hm => (h _ hm).2 rfl⟩

theorem iniEscapedString_done {st : Unescape} (hst : ItemStart st) (str : Str) :
    ItemDone st str ((iniEscapedString str).foldl unescapeByte (.skipSpaces, st)) := by
  unfold iniEscapedString
  simp only
  split
  · exact quoted_done hst str
  · rename_i h
    simp only [Bool.or_eq_true, beq_iff_eq, not_or, Bool.not_eq_true] at h
    exact unquoted_done hst (not_needsQuotes h.1.1).1 h.1.2 h.2

/-! ## Whole values -/

theorem iniUnescapedStringList_string (str : Str) :
    iniUnescapedStringList (iniEscapedString str) = .string str := by
  have hstart : ItemStart ⟨[], [], false, false, false, 0⟩ := ⟨rfl, rfl, rfl⟩
  obtain ⟨⟨h1, h2, h3⟩, -⟩ := iniEscapedString_done hstart str
  simp only [iniUnescapedStringList, h2]
  simp [h1]

/-- Behind a comma and a space the rest of the list is read. -/
theorem foldl_rest : ∀ (rest : List Str) {st : Unescape} {str : Str} {s : Mode × Unescape},
    ItemDone st str s → rest ≠ [] →
    let s' := (rest.flatMap fun s => lit ", " ++ iniEscapedString s).foldl unescapeByte s
    (stopMode s').isStringList = true ∧ (stopMode s').stringListResult ++
      [(stopMode s').stringResult] = (if st.isStringList then st.stringListResult else []) ++
        str :: rest
  | [], _, _, _, _, hne => absurd rfl hne
  | str' :: rest, st, str, s, hd, _ => by
    obtain ⟨st', hcomma, hstart, hlist, hres⟩ := hd.comma
    have hd' := iniEscapedString_done hstart str'
    have hstep : (lit ", ").foldl unescapeByte s = (.skipSpaces, st') := by
      show unescapeByte (unescapeByte s (byte ',')) (byte ' ') = _
      rw [hcomma]
      rfl
    simp only [List.flatMap_cons, List.foldl_append, hstep]
    by_cases hr : rest = []
    · subst hr
      obtain ⟨h1, h2, h3⟩ := hd'.stop
      simp only [List.flatMap_nil, List.foldl_nil, h1, h2, h3, hlist, hres, List.append_assoc]
      exact ⟨trivial, rfl⟩
    · have := foldl_rest rest hd' hr
      simp only [hlist, if_true, hres] at this
      simpa using this

theorem iniUnescapedStringList_list {strs : List Str} (h : 2 ≤ strs.length) :
    iniUnescapedStringList (iniEscapedStringList strs) = .stringList strs := by
  obtain ⟨str, rest, rfl⟩ := List.exists_cons_of_ne_nil (l := strs) (by rintro rfl; simp at h)
  have hr : rest ≠ [] := by rintro rfl; simp at h
  have hstart : ItemStart ⟨[], [], false, false, false, 0⟩ := ⟨rfl, rfl, rfl⟩
  have hd := iniEscapedString_done hstart str
  obtain ⟨h1, h2⟩ := foldl_rest rest hd hr
  simp only [iniUnescapedStringList, iniEscapedStringList, List.foldl_append, h1, if_true, h2]
  rfl

end Libpdk.Settings

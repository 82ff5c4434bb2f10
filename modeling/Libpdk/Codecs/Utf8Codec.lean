import Libpdk.Codecs.Utf8Chunks
import Libpdk.Codecs.Utf8EncodeChunks

/-!
# Runs of the UTF-8 decoder

The chunks of a text through one state. `decodeChunks_open`, `_cut` and `_closed` are
the runs from a state without a header, with a character that was cut before the header
was done, and with the header done. `chunks_iff`: the run is the decoding of the whole
exactly where no scalar value is taken for a surrogate and no later U+FEFF for the
header.
-/
namespace Libpdk.Codecs.Utf8

section

open Character Unicode

/-! ## How far the scan goes -/

section Scan

variable {α β : Type} (plain : α → Bool) (copy : α → β)

/-- The scan passes a plain front whole where it ends with a block, or where there is enough
behind it to fill the last one. -/
theorem scanAscii_passes (nextAscii : Nat) : ∀ (rounds : Nat) {a m : List α},
    (∀ x ∈ a, plain x = true) → (∀ y m', m = y :: m' → plain y = false) →
    (a ++ m).length ≤ rounds →
    ((scanAscii plain copy nextAscii rounds (a ++ m)).src.length ≤ m.length ↔
      a.length % 16 = 0 ∨ 16 ≤ a.length % 16 + m.length)
  | 0, a, m, _, _, hr => by
    rw [List.length_append] at hr
    simp only [scanAscii, List.length_append]
    omega
  | rounds + 1, a, m, ha, hm, hr => by
    rw [scanAscii]
    rw [List.length_append] at hr
    split
    · rename_i hlt
      rw [List.length_append] at hlt
      simp only [List.length_append]
      omega
    rename_i hge
    rw [List.length_append] at hge
    rcases Nat.lt_or_ge a.length 16 with hshort | hlong
    · -- the block ends the front
      obtain ⟨y, m', rfl⟩ : ∃ y m', m = y :: m' := by
        cases m with
        | nil => simp only [List.length_nil] at hge; omega
        | cons y m' => exact ⟨y, m', rfl⟩
      have hy := hm y m' rfl
      have hblock : (a ++ y :: m').take 16 = a ++ y :: m'.take (15 - a.length) := by
        rw [List.take_append, List.take_of_length_le (by omega),
          show 16 - a.length = 15 - a.length + 1 by omega, List.take_succ_cons]
      have hall : ((a ++ y :: m').take 16).all plain = false := by
        rw [hblock, List.all_append, List.all_cons, hy, Bool.false_and, Bool.and_false]
      have hfront : ((a ++ y :: m').take 16).takeWhile plain = a := by
        rw [hblock, List.takeWhile_append_of_pos ha, List.takeWhile_cons, hy]
        simp
      simp only [hall, hfront, Bool.false_eq_true, if_false, List.drop_left]
      omega
    · have hblock : (a ++ m).take 16 = a.take 16 := List.take_append_of_le_length hlong
      have hall : ((a ++ m).take 16).all plain = true := by
        rw [hblock, List.all_eq_true]
        exact fun x hx => ha x (List.mem_of_mem_take hx)
      have hdrop : (a ++ m).drop 16 = a.drop 16 ++ m := List.drop_append_of_le_length hlong
      simp only [hall, if_true, hdrop]
      rw [scanAscii_passes nextAscii rounds (fun x hx => ha x (List.mem_of_mem_drop hx)) hm
        (by rw [List.length_append, List.length_drop]; omega), List.length_drop]
      omega

end Scan

/-! ## Fronts of ASCII -/

/-- What is left where all bytes have come. -/
theorem cut_end {p : Bytes} {text : List Char} (hcut : Cut p text) (h : p = utf8 text) :
    p = [] ∧ text = [] := by
  by_cases hp : p = []
  · refine ⟨hp, ?_⟩
    cases text with
    | nil => rfl
    | cons c text =>
      rw [hp, utf8_cons] at h
      exact absurd (List.append_eq_nil_iff.mp h.symm).1 (bytes_ne_nil c)
  · obtain ⟨c, text', r, ht, hr, hne⟩ := hcut hp
    have hlen := congrArg List.length h
    have hlen' := congrArg List.length hr
    have hpos := List.length_pos_iff.mpr hne
    rw [ht, utf8_cons, List.length_append] at hlen
    rw [List.length_append] at hlen'
    omega

theorem ascii_utf8 : ∀ {ta : List Char}, (∀ c ∈ ta, c.toNat < 0x80) →
    ∀ b ∈ utf8 ta, ascii b = true
  | [], _ => by simp
  | c :: ta, h => by
    rw [List.forall_mem_cons] at h
    rw [utf8_cons, bytes_one h.1, List.forall_mem_append]
    refine ⟨?_, ascii_utf8 h.2⟩
    rw [List.forall_mem_singleton, ascii, toNat_ofNat8 (by omega), decide_eq_true_eq]
    exact h.1

theorem bytes_ascii (c : Char) :
    ∃ b s, bytes c = b :: s ∧ (ascii b = true ↔ c.toNat < 0x80) := by
  obtain ⟨b, s, hb⟩ := List.exists_cons_of_ne_nil (bytes_ne_nil c)
  refine ⟨b, s, hb, fun h => (ascii_lead hb h).1, fun h => ?_⟩
  rw [bytes_one h, List.cons.injEq] at hb
  rw [← hb.1, ascii, toNat_ofNat8 (by omega), decide_eq_true_eq]
  exact h

theorem ascii_cut {q : Bytes} {text : List Char} (hq : Cut q text) :
    q.takeWhile ascii = [] ∧ q.dropWhile ascii = q := by
  cases q with
  | nil => exact ⟨rfl, rfl⟩
  | cons b s =>
    obtain ⟨c, -, r, -, hc, hr⟩ := hq (by simp)
    have hb : ascii b = false := by
      rw [← Bool.not_eq_true]
      intro h
      exact hr (List.append_eq_nil_iff.mp (ascii_lead hc h).2).2
    simp [hb]

theorem erase_bom {ta : List Char} (h : ∀ c ∈ ta, c.toNat < 0x80) (text : List Char) :
    (ta ++ text).erase bom = ta ++ text.erase bom :=
  List.erase_append_right _ fun hb => absurd (h bom hb) (by decide)

section Build

variable [Build]

/-- Whether the scan passes `n` bytes of ASCII with `more` bytes behind them in the chunk. -/
def passes (n more : Nat) : Bool :=
  n = 0 || (Build.simd && (n % 16 = 0 || decide (16 ≤ n % 16 + more)))

theorem simdDecodeAscii_passes {a m : Bytes} (ha : ∀ x ∈ a, ascii x = true)
    (hm : ∀ y m', m = y :: m' → ascii y = false) (nextAscii : Nat) :
    (simdDecodeAscii nextAscii (a ++ m)).src.length ≤ m.length ↔
      passes a.length m.length = true := by
  rw [simdDecodeAscii, passes]
  split
  · rename_i hs
    have := scanAscii_passes ascii UInt8.toUInt16 nextAscii (a ++ m).length ha hm (le_refl _)
    rw [show (fun b : UInt8 => decide (b.toNat < 0x80)) = ascii from rfl, this, hs]
    simp only [Bool.true_and, Bool.or_eq_true, decide_eq_true_eq]
    omega
  · rename_i hs
    simp only [hs, Bool.false_and, Bool.or_false, decide_eq_true_eq, List.length_append]
    omega

/-! ## Runs -/

/-- The chunks one after another with one state. -/
def decodeChunks : List Bytes → ConverterState Bytes → Str × ConverterState Bytes
  | [], st => ([], st)
  | x :: chunks, st =>
    let (units, st) := convertToUnicodeState x st
    let (rest, st) := decodeChunks chunks st
    (units ++ rest, st)

/-- `ConverterState()` -/
def freshState : ConverterState Bytes := ⟨false, false, 0, 0, List.replicate 12 0⟩

/-- The header stays open over chunks of ASCII that are scanned whole; what comes next is
U+FEFF and is taken for the header, as it starts its chunk or is cut by the end of it. -/
def takesForHeader : List Bytes → Bool
  | [] => false
  | x :: chunks =>
    let a := x.takeWhile ascii
    let m := x.dropWhile ascii
    passes a.length m.length &&
      (if m = [] then takesForHeader chunks
      else (a = [] || decide (m.length < 3)) && utf8bom.isPrefixOf (m ++ chunks.flatten))

theorem decodeChunks_mono : ∀ (chunks : List Bytes) (st : ConverterState Bytes),
    st.invalidChars ≤ (decodeChunks chunks st).2.invalidChars
  | [], _ => le_refl _
  | x :: chunks, st => (call_mono x st).trans (decodeChunks_mono chunks _)

/-- A run counts a scalar value that is taken for a surrogate. -/
theorem decodeChunks_bad : ∀ (chunks : List Bytes) {st : ConverterState Bytes} {p : Bytes}
    {text : List Char}, Holds st p → Cut p text → p ++ chunks.flatten = utf8 text →
    [] ∉ chunks → (∃ c ∈ text, Mistaken c) →
    st.invalidChars < (decodeChunks chunks st).2.invalidChars
  | [], st, p, text, _, hcut, he, _, hbad => by
    rw [List.flatten_nil, List.append_nil] at he
    obtain ⟨-, rfl⟩ := cut_end hcut he
    simp at hbad
  | x :: chunks, st, p, text, h, hcut, he, hne, hbad => by
    rw [List.mem_cons, not_or] at hne
    rw [List.flatten_cons, ← List.append_assoc] at he
    obtain ⟨ts, ts', q, rfl, hx, hrest, hq⟩ := exists_cut he
    by_cases hb : ∃ c ∈ ts, Mistaken c
    · exact (call_bad h hcut hx hb).trans_le (decodeChunks_mono chunks _)
    · have hgood : ∀ c ∈ ts, ¬ Mistaken c := fun c hc hm => hb ⟨c, hc, hm⟩
      obtain ⟨hq', hinv, -⟩ := call_good h hcut hq (Ne.symm hne.1) hx hgood
      have hbad' : ∃ c ∈ ts', Mistaken c := by
        obtain ⟨c, hc, hm⟩ := hbad
        rcases List.mem_append.mp hc with hc | hc
        · exact absurd hm (hgood c hc)
        · exact ⟨c, hc, hm⟩
      have ih := decodeChunks_bad chunks hq' hq hrest hne.2 hbad'
      rw [hinv] at ih
      exact ih

/-- What a run of good characters comes to. -/
structure Ends (st : ConverterState Bytes) (run : Str × ConverterState Bytes) (s : Str) : Prop where
  units : run.1 = s
  invalid : run.2.invalidChars = st.invalidChars
  remaining : run.2.remainingChars = 0

theorem Ends.cons {st : ConverterState Bytes} {x : Bytes} {chunks : List Bytes} {s s' : Str}
    (hunits : (convertToUnicodeState x st).1 = s)
    (hinv : (convertToUnicodeState x st).2.invalidChars = st.invalidChars)
    (h : Ends (convertToUnicodeState x st).2 (decodeChunks chunks (convertToUnicodeState x st).2) s') :
    Ends st (decodeChunks (x :: chunks) st) (s ++ s') where
  units := by
    rw [decodeChunks]
    change (convertToUnicodeState x st).1 ++ (decodeChunks chunks _).1 = _
    rw [hunits, h.units]
  invalid := h.invalid.trans hinv
  remaining := h.remaining

theorem Ends.nil {st : ConverterState Bytes} {p : Bytes} {text : List Char} (h : Holds st p)
    (hcut : Cut p text) (he : p ++ ([] : List Bytes).flatten = utf8 text) :
    p = [] ∧ text = [] ∧ Ends st (decodeChunks [] st) [] := by
  rw [List.flatten_nil, List.append_nil] at he
  obtain ⟨rfl, rfl⟩ := cut_end hcut he
  exact ⟨rfl, rfl, rfl, rfl, h.remaining⟩

theorem decodeChunks_closed : ∀ (chunks : List Bytes) {st : ConverterState Bytes} {p : Bytes}
    {text : List Char}, Holds st p → Cut p text → p ++ chunks.flatten = utf8 text →
    [] ∉ chunks → (∀ c ∈ text, ¬ Mistaken c) → st.ignoreHeader = true →
    Ends st (decodeChunks chunks st) (utf16 text)
  | [], st, p, text, h, hcut, he, _, _, _ => by
    obtain ⟨-, rfl, hends⟩ := Ends.nil h hcut he
    exact hends
  | x :: chunks, st, p, text, h, hcut, he, hne, hgood, hh => by
    rw [List.mem_cons, not_or] at hne
    rw [List.flatten_cons, ← List.append_assoc] at he
    obtain ⟨ts, ts', q, rfl, hx, hrest, hq⟩ := exists_cut he
    rw [List.forall_mem_append] at hgood
    obtain ⟨hq', hinv, hdone, -⟩ := call_good h hcut hq (Ne.symm hne.1) hx hgood.1
    rw [utf16_append]
    exact Ends.cons (hdone hh).1 hinv
      (decodeChunks_closed chunks hq' hq hrest hne.2 hgood.2 (hdone hh).2)

/-- A character that was cut with the header open is the header if it is U+FEFF. -/
theorem decodeChunks_cut : ∀ (chunks : List Bytes) {st : ConverterState Bytes} {p : Bytes}
    {text : List Char}, Holds st p → Cut p text → p ++ chunks.flatten = utf8 text →
    [] ∉ chunks → (∀ c ∈ text, ¬ Mistaken c) → st.ignoreHeader = false → p ≠ [] →
    Ends st (decodeChunks chunks st) (utf16 (if text.head? = some bom then text.tail else text))
  | [], st, p, text, h, hcut, he, _, _, _, hp => by
    obtain ⟨hnil, -⟩ := Ends.nil h hcut he
    exact absurd hnil hp
  | x :: chunks, st, p, text, h, hcut, he, hne, hgood, hh, hp => by
    rw [List.mem_cons, not_or] at hne
    rw [List.flatten_cons, ← List.append_assoc] at he
    obtain ⟨ts, ts', q, rfl, hx, hrest, hq⟩ := exists_cut he
    rw [List.forall_mem_append] at hgood
    obtain ⟨hq', hinv, -, hopen, -⟩ := call_good h hcut hq (Ne.symm hne.1) hx hgood.1
    obtain ⟨hunits, hheader⟩ := hopen hh hp
    cases ts with
    | nil =>
      have hq0 : q ≠ [] := by
        rw [utf8_nil, List.nil_append] at hx
        rw [← hx]
        simp [hp]
      have ih := decodeChunks_cut chunks hq' hq hrest hne.2 hgood.2 (by simpa using hheader) hq0
      have := Ends.cons hunits hinv ih
      simpa using this
    | cons c tl =>
      have ih := decodeChunks_closed chunks hq' hq hrest hne.2 hgood.2 (by simpa using hheader)
      have := Ends.cons hunits hinv ih
      rw [← utf16_append] at this
      simp only [List.head?_cons, List.tail_cons, List.cons_append, Option.some_inj] at this ⊢
      by_cases hc : c = bom
      · rw [if_pos hc] at this ⊢
        exact this
      · rw [if_neg hc] at this ⊢
        exact this

section Header

variable {x q : Bytes} {chunks : List Bytes} {ta tb ts' : List Char}

/-- Whether the scan passed the ASCII in front of a chunk. -/
theorem passes_iff (hscan : (simdDecodeAscii x.length x).src = utf8 tb ++ q) :
    passes (x.takeWhile ascii).length (x.dropWhile ascii).length = true ↔
      (utf8 tb ++ q).length ≤ (x.dropWhile ascii).length := by
  have hsplit : x.takeWhile ascii ++ x.dropWhile ascii = x := List.takeWhile_append_dropWhile
  rw [← simdDecodeAscii_passes (fun y hy => List.all_eq_true.mp List.all_takeWhile y hy)
    (fun y m' hm => ?_) x.length, hsplit, hscan]
  have hnot := List.head_dropWhile_not ascii (l := x) (by rw [hm]; simp)
  simpa [hm] using hnot

theorem takesForHeader_scanned (hta : ∀ c ∈ ta, c.toNat < 0x80) (hq : Cut q ts')
    (hx : x = utf8 ta ++ q) (hscan : (simdDecodeAscii x.length x).src = q)
    (hrest : q ++ chunks.flatten = utf8 ts') :
    takesForHeader (x :: chunks) =
      if q = [] then takesForHeader chunks else decide (ts'.head? = some bom) := by
  have hdrop : x.dropWhile ascii = q := by
    rw [hx, List.dropWhile_append_of_pos (ascii_utf8 hta), (ascii_cut hq).2]
  have hpass : passes (x.takeWhile ascii).length (x.dropWhile ascii).length = true := by
    rw [(passes_iff hscan : _ ↔ (utf8 [] ++ _).length ≤ _), hdrop]
    exact le_refl _
  rw [takesForHeader, hpass, hdrop]
  simp only [Bool.true_and]
  split
  · rfl
  rename_i hne
  rw [hrest, Bool.eq_iff_iff, Bool.and_eq_true, isPrefixOf_utf8, decide_eq_true_eq, and_iff_right_iff_imp]
  intro hbom
  obtain ⟨c, tl, r, rfl, hr, hrne⟩ := hq hne
  rw [List.head?_cons, Option.some_inj] at hbom
  have hlen := congrArg List.length hr
  have hpos := List.length_pos_iff.mpr hrne
  rw [hbom, bytes_bom, List.length_append] at hlen
  simp only [utf8bom, List.length_cons, List.length_nil] at hlen
  rw [Bool.or_eq_true, decide_eq_true_eq, decide_eq_true_eq]
  omega

theorem takesForHeader_stopped {c : Char} (hta : ∀ c ∈ ta, c.toNat < 0x80)
    (hx : x = utf8 ta ++ (utf8 (c :: tb) ++ q))
    (hscan : (simdDecodeAscii x.length x).src = utf8 (c :: tb) ++ q)
    (hrest : q ++ chunks.flatten = utf8 ts') :
    takesForHeader (x :: chunks) = decide (ta = [] ∧ c = bom) := by
  obtain ⟨b, s, hb, hascii⟩ := bytes_ascii c
  have hdrop : x.dropWhile ascii = (utf8 (c :: tb) ++ q).dropWhile ascii := by
    rw [hx, List.dropWhile_append_of_pos (ascii_utf8 hta)]
  have hcons : utf8 (c :: tb) ++ q = b :: (s ++ utf8 tb ++ q) := by
    rw [utf8_cons, hb, List.cons_append, List.cons_append]
  rw [Bool.eq_iff_iff, decide_eq_true_eq, takesForHeader]
  simp only [Bool.and_eq_true]
  rw [passes_iff hscan]
  by_cases hlt : c.toNat < 0x80
  · -- the scan stopped at ASCII, which is no header
    have hmore : (x.dropWhile ascii).length < (utf8 (c :: tb) ++ q).length := by
      rw [hdrop, hcons, List.dropWhile_cons, if_pos (hascii.mpr hlt), List.length_cons]
      exact Nat.lt_succ_of_le (List.dropWhile_suffix ascii).length_le
    refine ⟨fun h => by omega, fun h => ?_⟩
    rw [h.2] at hlt
    exact absurd hlt (by decide)
  · have hdrop' : x.dropWhile ascii = utf8 (c :: tb) ++ q := by
      rw [hdrop, hcons, List.dropWhile_cons, if_neg (fun h => hlt (hascii.mp h))]
    have htake : x.takeWhile ascii = utf8 ta := by
      rw [hx, List.takeWhile_append_of_pos (ascii_utf8 hta), hcons, List.takeWhile_cons,
        if_neg (fun h => hlt (hascii.mp h)), List.append_nil]
    have hprefix : utf8bom.isPrefixOf (utf8 (c :: tb) ++ q ++ chunks.flatten) = true ↔ c = bom := by
      rw [List.append_assoc, hrest, ← utf8_append, isPrefixOf_utf8]
      simp
    have hnil : utf8 ta = [] ↔ ta = [] := by
      cases ta <;> simp [bytes_ne_nil]
    rw [hdrop', htake, if_neg (by rw [hcons]; simp), Bool.and_eq_true, hprefix, Bool.or_eq_true,
      decide_eq_true_eq, decide_eq_true_eq, hnil]
    constructor
    · rintro ⟨-, hor, rfl⟩
      refine ⟨hor.resolve_right ?_, rfl⟩
      rw [utf8_cons, bytes_bom]
      simp only [utf8bom, List.length_append, List.length_cons, List.length_nil]
      omega
    · rintro ⟨h, h'⟩
      exact ⟨le_refl _, .inl h, h'⟩

end Header

theorem decodeChunks_open : ∀ (chunks : List Bytes) {st : ConverterState Bytes} {text : List Char},
    Holds st [] → chunks.flatten = utf8 text → [] ∉ chunks → (∀ c ∈ text, ¬ Mistaken c) →
    st.ignoreHeader = false →
    Ends st (decodeChunks chunks st) (utf16 (if takesForHeader chunks then text.erase bom else text))
  | [], st, text, h, he, _, _, _ => by
    obtain ⟨-, rfl, hends⟩ := Ends.nil h (Cut.nil _) he
    exact hends
  | x :: chunks, st, text, h, he, hne, hgood, hh => by
    rw [List.mem_cons, not_or] at hne
    rw [List.flatten_cons] at he
    obtain ⟨ts, ts', q, rfl, hx, hrest, hq⟩ := exists_cut he
    rw [List.forall_mem_append] at hgood
    obtain ⟨hq', hinv, -, -, hopen⟩ :=
      call_good h (Cut.nil _) hq (Ne.symm hne.1) ((List.nil_append _).trans hx) hgood.1
    obtain ⟨ta, tb, rfl, hta, hscan, hunits, hheader⟩ := hopen hh rfl
    rw [utf8_append, List.append_assoc] at hx
    cases tb with
    | nil =>
      -- the header stays open
      rw [takesForHeader_scanned hta hq hx hscan hrest, List.append_nil]
      rw [if_neg (by simp), List.append_nil] at hunits
      have hopen' : (convertToUnicodeState x st).2.ignoreHeader = false := by simpa using hheader
      by_cases hq0 : q = []
      · subst hq0
        have ih := decodeChunks_open chunks hq' hrest hne.2 hgood.2 hopen'
        have hends := Ends.cons hunits hinv ih
        rw [← utf16_append] at hends
        simp only [if_true, erase_bom hta]
        split at ih <;> rename_i htakes
        · rw [if_pos htakes] at hends ⊢
          exact hends
        · rw [if_neg htakes] at hends ⊢
          exact hends
      · have ih := decodeChunks_cut chunks hq' hq hrest hne.2 hgood.2 hopen' hq0
        have hends := Ends.cons hunits hinv ih
        rw [← utf16_append] at hends
        simp only [if_neg hq0, decide_eq_true_eq, erase_bom hta]
        by_cases hbom : ts'.head? = some bom
        · obtain ⟨tl, rfl⟩ := List.head?_eq_some_iff.mp hbom
          rw [if_pos hbom] at hends ⊢
          rw [List.erase_cons_head]
          exact hends
        · rw [if_neg hbom] at hends ⊢
          exact hends
    | cons c tb =>
      -- the first character behind what was scanned closes it
      rw [takesForHeader_stopped hta hx hscan hrest]
      have hdone : (convertToUnicodeState x st).2.ignoreHeader = true := by simpa using hheader
      have ih := decodeChunks_closed chunks hq' hq hrest hne.2 hgood.2 hdone
      have hends := Ends.cons hunits hinv ih
      rw [← utf16_append] at hends
      simp only [List.head?_cons, Option.some_inj, List.tail_cons, decide_eq_true_eq] at hends ⊢
      by_cases hbom : ta = [] ∧ c = bom
      · rw [if_pos hbom] at hends ⊢
        rw [hbom.1, hbom.2, List.nil_append, List.cons_append, List.erase_cons_head]
        exact hends
      · rw [if_neg hbom] at hends ⊢
        exact hends

/-- The chunks of a valid byte sequence, none of them empty. -/
abbrev Cuts (text : List Char) :=
  { chunks : List Bytes // chunks.flatten = utf8 text ∧ [] ∉ chunks }

theorem takesForHeader_bom {text : List Char} (chunks : Cuts text) (h : text.head? = some bom) :
    takesForHeader chunks.1 = true := by
  obtain ⟨chunks, he, hne⟩ := chunks
  obtain ⟨tl, rfl⟩ := List.head?_eq_some_iff.mp h
  cases chunks with
  | nil => exact absurd he.symm (by simp [bytes_ne_nil])
  | cons x chunks =>
    rw [List.mem_cons, not_or] at hne
    obtain ⟨b, x, rfl⟩ := List.exists_cons_of_ne_nil (Ne.symm hne.1)
    have hb : ascii b = false := by
      rw [List.flatten_cons, List.cons_append, utf8_cons, bytes_bom, utf8bom, List.cons_append,
        List.cons.injEq] at he
      rw [he.1]
      rfl
    have hprefix : utf8bom.isPrefixOf (b :: x ++ chunks.flatten) = true := by
      rw [List.flatten_cons] at he
      rw [he, isPrefixOf_utf8]
      rfl
    rw [takesForHeader, List.takeWhile_cons, List.dropWhile_cons, hb]
    simpa [passes] using hprefix

/-- What is taken for the header is a U+FEFF of the text. -/
theorem takesForHeader_occurs : ∀ {chunks : List Bytes}, takesForHeader chunks = true →
    utf8bom <:+: chunks.flatten
  | [], h => absurd h (by simp [takesForHeader])
  | x :: chunks, h => by
    have hsplit : x.takeWhile ascii ++ x.dropWhile ascii = x := List.takeWhile_append_dropWhile
    rw [takesForHeader] at h
    simp only [Bool.and_eq_true] at h
    obtain ⟨-, h⟩ := h
    rw [List.flatten_cons]
    split at h
    · exact (takesForHeader_occurs h).trans (List.suffix_append _ _).isInfix
    · rw [Bool.and_eq_true, List.isPrefixOf_iff_prefix] at h
      refine h.2.isInfix.trans (List.IsSuffix.isInfix ⟨x.takeWhile ascii, ?_⟩)
      rw [← List.append_assoc, hsplit]

/-- The run decodes what is decoded at once, with no error and no rest, exactly where no scalar
value is taken for a surrogate and what is taken for the header is in front. -/
theorem chunks_iff (text : List Char) (chunks : Cuts text) :
    ((decodeChunks chunks.1 freshState).1 = convertToUnicode chunks.1.flatten ∧
      (decodeChunks chunks.1 freshState).2.invalidChars = 0 ∧
      (decodeChunks chunks.1 freshState).2.remainingChars = 0) ↔
    (∀ c ∈ text, ¬ Mistaken c) ∧ (takesForHeader chunks.1 = true → text.head? = some bom) := by
  have hfresh : Holds freshState [] := ⟨rfl, rfl⟩
  by_cases hgood : ∀ c ∈ text, ¬ Mistaken c
  · obtain ⟨hunits, hinv, hrem⟩ :=
      decodeChunks_open chunks.1 hfresh chunks.2.1 chunks.2.2 hgood rfl
    rw [hunits, hinv, hrem, chunks.2.1]
    by_cases hbom : text.head? = some bom
    · refine iff_of_true ⟨?_, rfl, rfl⟩ ⟨hgood, fun _ => hbom⟩
      rw [takesForHeader_bom chunks hbom]
      obtain ⟨tl, rfl⟩ := List.head?_eq_some_iff.mp hbom
      rw [convertToUnicode_eq, body_utf8_bom, decodeAll_utf8, flatMap_decoded,
        shown_eq_self.mpr fun c hc => hgood c (by simp [hc]), if_pos rfl, List.erase_cons_head]
    · rw [convertToUnicode_utf8 hbom, shown_eq_self.mpr hgood]
      by_cases htakes : takesForHeader chunks.1 = true
      · refine iff_of_false (fun h => ?_) fun h => hbom (h.2 htakes)
        have herase := utf16_inj h.1
        rw [if_pos htakes] at herase
        have hmem : bom ∈ text := by
          refine mem_of_occurs ?_
          rw [bytes_bom, ← chunks.2.1]
          exact takesForHeader_occurs htakes
        have hlen := List.length_erase_of_mem hmem
        have hpos := List.length_pos_of_mem hmem
        rw [herase] at hlen
        omega
      · refine iff_of_true ⟨by rw [if_neg htakes], rfl, rfl⟩ ⟨hgood, fun h => absurd h htakes⟩
  · have hbad : ∃ c ∈ text, Mistaken c := by simpa using hgood
    have hlt := decodeChunks_bad chunks.1 hfresh (Cut.nil _) chunks.2.1 chunks.2.2 hbad
    refine ⟨fun h => absurd h.2.1 ?_, fun h => absurd h.1 hgood⟩
    simp only [freshState] at hlt ⊢
    omega

end Build

/-- Sixteen characters and then U+FEFF, in two chunks: the U+FEFF is lost. The bytes of U+E000 are
three errors. -/
theorem chunks_false :
    letI : Build := ⟨true⟩
    (decodeChunks [List.replicate 16 0x61, utf8bom] freshState).1 ≠
        convertToUnicode (List.replicate 16 0x61 ++ utf8bom) ∧
      (decodeChunks [bytes '\uE000'] freshState).2.invalidChars = 3 := by
  decide

end

/-!
## The codec without a state

`fromUnicode` and `toUnicode` of the UTF-8 codec where no state is passed: the conversions with a
state, whose `state` is null. A unit that is or is taken for a surrogate is held at the end and
lost, so what is made of the units one at a time is what is made of all of them only where there
are no such units (`fromUnicode_units_iff`).
-/

open Character Unicode

section Build

variable [Build]

/-- mirrors text/codecs/UtfCodec.cpp:179-246 and 680-683 -/
def fromUnicode (uc : Str) : Bytes :=
  (encodeLoop (byte '?') (uc.length + 1) ⟨none, uc, uc.length, [], 0⟩).out

/-- A character that is not complete becomes as many replacement characters as it has bytes.
mirrors text/codecs/UtfCodec.cpp:319-433 and 690-693 -/
def toUnicode (chars : Bytes) : Str :=
  let (d, endOfString) := decodeLoop replacement chars.length chars.length
    ⟨[], chars, chars.length, false, 0⟩
  d.dst ++ if endOfString then List.replicate d.src.length replacement else []

theorem fromUnicode_eq (uc : Str) : fromUnicode uc = (encodeSteps (byte '?') uc).1 := by
  have hloop := encodeLoop_encodes (byte '?') (uc.length + 1) (e := ⟨none, uc, uc.length, [], 0⟩)
    (fun p hp => by cases hp) (by simp)
  exact hloop.out

/-! ## One unit -/

theorem fromUnicode_surrogate {u : UInt16} (h : isSurrogate u.toNat = true) :
    fromUnicode [u] = [] := by
  rw [fromUnicode_eq, encodeSteps_held _ h]

theorem fromUnicode_char {c : Char} (hlt : c.toNat < 0x10000) (h : ¬Mistaken c) :
    fromUnicode (units c) = bytes c := by
  obtain ⟨u, s, hu, hdone⟩ := toUtf8_units h
  rw [units_of_lt hlt, List.cons.injEq] at hu
  obtain ⟨rfl, rfl⟩ := hu
  have hone := hdone []
  rw [List.append_nil] at hone
  rw [units_of_lt hlt, fromUnicode_eq, encodeSteps_done _ hone, encodeSteps_nil, List.append_nil]

omit [Build] in
/-- A unit that is no surrogate to the code is a scalar value. -/
theorem exists_unit {u : UInt16} (h : isSurrogate u.toNat = false) :
    ∃ c : Char, units c = [u] ∧ c.toNat = u.toNat ∧ ¬Mistaken c := by
  have hlt := u.toNat_lt
  have hnot : ¬(0xd800 ≤ u.toNat ∧ u.toNat < 0xf848) := by
    rw [← isSurrogate_iff (by omega), h]
    exact Bool.false_ne_true
  obtain ⟨c, hc⟩ := exists_char (n := u.toNat) (by omega)
  refine ⟨c, ?_, hc, ?_⟩
  · rw [units_of_lt (by omega), hc, UInt16.ofNat_toNat]
  · rw [mistaken_iff, hc]
    omega

/-! ## Units one at a time and all of them -/

theorem fromUnicode_cons {u : UInt16} (h : isSurrogate u.toNat = false) (run : Str) :
    fromUnicode (u :: run) = fromUnicode [u] ++ fromUnicode run := by
  obtain ⟨bytes, hdone, -⟩ := toUtf8_single h
  rw [fromUnicode_eq, fromUnicode_eq, fromUnicode_eq, encodeSteps_done _ (hdone run),
    encodeSteps_done _ (hdone []), encodeSteps_nil, List.append_nil]

/-- The bytes of the units one at a time. -/
def unitBytes (run : Str) : Bytes := run.flatMap fun u => fromUnicode [u]

theorem unitBytes_surrogate {u : UInt16} (h : isSurrogate u.toNat = true) (run : Str) :
    unitBytes (u :: run) = unitBytes run := by
  rw [unitBytes, List.flatMap_cons, fromUnicode_surrogate h]
  rfl

theorem unitBytes_length : ∀ run : Str, (unitBytes run).length ≤ (fromUnicode run).length ∧
    ∀ u, isSurrogate u.toNat = true → run ≠ [] →
      (unitBytes run).length < (fromUnicode (u :: run)).length
  | [] => ⟨Nat.zero_le _, fun _ _ h => absurd rfl h⟩
  | low :: run => by
    obtain ⟨ih, ihs⟩ := unitBytes_length run
    have hfirst : (unitBytes (low :: run)).length ≤ (fromUnicode (low :: run)).length := by
      cases hs : isSurrogate low.toNat with
      | false =>
        rw [fromUnicode_cons hs, unitBytes, List.flatMap_cons, List.length_append,
          List.length_append]
        exact Nat.add_le_add_left ih _
      | true =>
        rw [unitBytes_surrogate hs]
        by_cases hrun : run = []
        · rw [hrun]
          exact Nat.zero_le _
        · exact Nat.le_of_lt (ihs low hs hrun)
    refine ⟨hfirst, fun u hu _ => ?_⟩
    cases hp : isPair u low with
    | true =>
      obtain ⟨bytes, hdone, hfour⟩ := toUtf8_pair hp
      have hlow : isSurrogate low.toNat = true := by
        rw [isPair, Bool.and_eq_true] at hp
        have hlt := low.toNat_lt
        have hrange := (isLowSurrogate_iff (by omega)).mp hp.2
        rw [isSurrogate_iff (by omega)]
        omega
      rw [unitBytes_surrogate hlow, fromUnicode_eq, encodeSteps_done _ (hdone run),
        List.length_append, ← fromUnicode_eq]
      omega
    | false =>
      rw [fromUnicode_eq (u :: low :: run), encodeSteps_error _ (toUtf8_broken hu hp run),
        List.length_cons, ← fromUnicode_eq]
      exact Nat.lt_succ_of_le hfirst

/-- All the units but the last one must be no surrogates to the code. -/
theorem fromUnicode_units_iff : ∀ run : Str, unitBytes run = fromUnicode run ↔
    ∀ u ∈ run.dropLast, isSurrogate u.toNat = false
  | [] => by
    rw [unitBytes, List.flatMap_nil, fromUnicode_eq, encodeSteps_nil]
    exact iff_of_true rfl fun _ h => absurd h List.not_mem_nil
  | [u] => by
    rw [unitBytes, List.flatMap_singleton]
    exact iff_of_true rfl fun _ h => absurd h List.not_mem_nil
  | u :: low :: run => by
    have ih := fromUnicode_units_iff (low :: run)
    rw [List.dropLast_cons_cons, List.forall_mem_cons]
    cases hs : isSurrogate u.toNat with
    | false =>
      rw [fromUnicode_cons hs, unitBytes, List.flatMap_cons, List.append_right_inj]
      exact ih.trans ⟨fun h => ⟨rfl, h⟩, fun h => h.2⟩
    | true =>
      have hlt := (unitBytes_length (low :: run)).2 u hs (List.cons_ne_nil _ _)
      refine iff_of_false (fun h => ?_) fun h => Bool.noConfusion h.1
      rw [unitBytes_surrogate hs] at h
      rw [h] at hlt
      exact Nat.lt_irrefl _ hlt

/-! ## Decoding -/

/-- U+FEFF in front is taken for the header. -/
def withoutBom (text : List Char) : List Char := if text.head? = some bom then text.tail else text

theorem toUnicode_utf8 {text : List Char} (h : ∀ c ∈ text, ¬Mistaken c) :
    toUnicode (utf8 text) = utf16 (withoutBom text) := by
  have hloop := decodeLoop_looped replacement (utf8 text).length (utf8 text).length
    ⟨[], utf8 text, (utf8 text).length, false, 0⟩ (le_refl _)
  have hsteps := decodeSteps_good replacement (Cut.nil []) h
  rw [List.append_nil] at hsteps
  have hflag : (decodeLoop replacement (utf8 text).length (utf8 text).length
      ⟨[], utf8 text, (utf8 text).length, false, 0⟩).2 = false := by
    rw [← Bool.not_eq_true, hloop.flag, hsteps, not_not]
  rw [toUnicode]
  simp only [hflag, Bool.false_eq_true, if_false, List.append_nil]
  by_cases hnil : text = []
  · rw [hnil]
    rfl
  · have hne : utf8 text ≠ [] := by
      obtain ⟨c, tl, rfl⟩ := List.exists_cons_of_ne_nil hnil
      rw [utf8_cons]
      exact List.append_ne_nil_of_left_ne_nil (bytes_ne_nil c) _
    have hlen : (utf8 text).length = (utf8 text).length - 1 + 1 := by
      have hpos := List.length_pos_iff.mpr hne
      omega
    obtain ⟨ta, tb, hts, hta, -, -, hdst⟩ :=
      decodeLoop_open replacement (Cut.nil []) (List.append_nil (utf8 text)).symm h hne
        ((utf8 text).length - 1) (by omega)
    rw [← hlen] at hdst
    rw [hdst]
    congr 1
    rw [withoutBom]
    cases ta with
    | nil =>
      rw [List.nil_append] at hts
      simp only [true_and, hts]
    | cons c ta =>
      have hc : c ≠ bom := by
        rintro rfl
        exact absurd (hta bom List.mem_cons_self) (by decide)
      rw [if_neg (fun h => List.cons_ne_nil c ta h.1), if_neg]
      rw [hts]
      exact fun h => hc (Option.some.inj h)

end Build

end Libpdk.Codecs.Utf8

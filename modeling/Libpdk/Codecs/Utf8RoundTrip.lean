import Libpdk.Codecs.Utf8Exact

/-!
# UTF-8 conversion round trips

Texts come through both conversions, and any bytes are decoded as they should be,
except for the scalar values that `isSurrogate` takes for surrogates: each is encoded
as a question mark, and each of its three bytes is replaced when it is decoded.
`exact_iff` says that these are the only exceptions.
-/
namespace Libpdk.Codecs.Utf8

open Character Unicode

/-- What a scalar value becomes in UTF-8. -/
def encoded (c : Char) : Bytes := if Mistaken c then [byte '?'] else bytes c

/-- What the bytes of a scalar value become. -/
def decoded (c : Char) : Str :=
  if Mistaken c then [replacement, replacement, replacement] else units c

theorem encodeAll_units (c : Char) (src : Str) :
    encodeAll (units c ++ src) = encoded c ++ encodeAll src := by
  by_cases hm : Mistaken c
  · obtain ⟨u, hu, hs, hh⟩ := mistaken_units hm
    have hnot : toUtf8 u src = .endOfString ∨ toUtf8 u src = .error := by
      rw [toUtf8_not_pair hs (fun _ _ _ => by simp [hh])]
      split
      · exact .inl rfl
      · exact .inr rfl
    rw [hu, List.singleton_append, encodeAll_cons, encoded, if_pos hm, encodeNext]
    rcases hnot with h | h <;> rw [h]
  · obtain ⟨u, s, hu, hdone⟩ := toUtf8_units hm
    rw [hu, List.cons_append, encodeAll_cons, encodeNext, hdone, encoded, if_neg hm]

theorem encodeAll_utf16 : ∀ text : List Char, encodeAll (utf16 text) = text.flatMap encoded
  | [] => by rw [utf16_nil, encodeAll, List.flatMap_nil]
  | c :: text => by
    rw [utf16_cons, encodeAll_units, encodeAll_utf16 text, List.flatMap_cons]

/-- The bytes behind the first one of a scalar value. -/
theorem continuations_bytes {c : Char} {b : UInt8} {s : Bytes} (h : bytes c = b :: s) :
    ∀ x ∈ s, isContinuationByte x = true := by
  have hcont {x : Nat} : isContinuationByte (UInt8.ofNat (0x80 + x % 0x40)) = true :=
    isContinuationByte_ofNat (Nat.mod_lt _ (by decide))
  rcases bytes_cases c with ⟨-, e⟩ | ⟨-, -, e⟩ | ⟨-, -, e⟩ | ⟨-, -, e⟩ <;>
    rw [e, List.cons.injEq] at h <;> rw [← h.2] <;>
    simp only [List.forall_mem_cons, List.not_mem_nil, false_implies, implies_true, and_true, hcont]

theorem mistaken_length {c : Char} (h : Mistaken c) : (bytes c).length = 3 := by
  rw [mistaken_iff] at h
  rw [bytes_three (by omega) (by omega)]
  rfl

theorem decodeAll_error {b : UInt8} {src : Bytes} (h : fromUtf8 b src = .error) :
    decodeAll (b :: src) = replacement :: decodeAll src := by
  rw [decodeAll_cons, decodeNext, h]
  rfl

theorem decodeAll_bytes (c : Char) (src : Bytes) :
    decodeAll (bytes c ++ src) = decoded c ++ decodeAll src := by
  obtain ⟨b, s, hb, hfrom⟩ := fromUtf8_bytes c
  by_cases hm : Mistaken c
  · simp only [if_pos hm] at hfrom
    have hlen := mistaken_length hm
    have hcont := continuations_bytes hb
    rw [hb] at hlen
    match s, hlen with
    | [x, y], _ =>
      have hx := fromUtf8_continuation (hcont x (by simp)) (y :: src)
      have hy := fromUtf8_continuation (hcont y (by simp)) src
      rw [hb, decoded, if_pos hm]
      calc decodeAll (b :: x :: y :: src)
          = replacement :: decodeAll (x :: y :: src) := decodeAll_error (hfrom src)
        _ = replacement :: replacement :: decodeAll (y :: src) := by rw [decodeAll_error hx]
        _ = [replacement, replacement, replacement] ++ decodeAll src := by
          rw [decodeAll_error hy]
          rfl
  · simp only [if_neg hm] at hfrom
    rw [hb, decoded, if_neg hm, List.cons_append, decodeAll_cons, decodeNext, hfrom, hb]
    simp

theorem decodeAll_utf8 : ∀ text : List Char, decodeAll (utf8 text) = text.flatMap decoded
  | [] => by rw [utf8_nil, decodeAll, List.flatMap_nil]
  | c :: text => by
    rw [utf8_cons, decodeAll_bytes, decodeAll_utf8 text, List.flatMap_cons]

/-! ## The byte order mark -/

def bom : Char := Char.ofNat 0xfeff

theorem bytes_bom : bytes bom = utf8bom := by decide

theorem units_bom : units bom = [byteOrderMark] := by decide

theorem isPrefixOf_utf8 (text : List Char) :
    utf8bom.isPrefixOf (utf8 text) = true ↔ text.head? = some bom := by
  rw [List.isPrefixOf_iff_prefix, ← bytes_bom]
  cases text with
  | nil => simp [bytes_ne_nil]
  | cons c text =>
    rw [utf8_cons, List.head?_cons, Option.some_inj]
    constructor
    · exact fun h => (bytes_prefix_inj h (List.prefix_append _ _)).symm
    · rintro rfl
      exact List.prefix_append _ _

theorem body_utf8 {text : List Char} (h : text.head? ≠ some bom) :
    body (utf8 text) = utf8 text := by
  rw [body, if_neg]
  rwa [isPrefixOf_utf8]

theorem body_utf8_bom (text : List Char) : body (utf8 (bom :: text)) = utf8 text := by
  rw [body, if_pos ((isPrefixOf_utf8 _).mpr rfl), utf8_cons, bytes_bom]
  rfl

/-! ## Texts -/

/-- What is left of a text that is encoded. -/
def asked (text : List Char) : List Char := text.map fun c => if Mistaken c then '?' else c

/-- What is made of a text that is decoded. -/
def shown (text : List Char) : List Char :=
  text.flatMap fun c => if Mistaken c then ['\uFFFD', '\uFFFD', '\uFFFD'] else [c]

theorem encoded_eq (c : Char) : encoded c = bytes (if Mistaken c then '?' else c) := by
  rw [encoded]
  split <;> rfl

theorem decoded_eq (c : Char) :
    decoded c = utf16 (if Mistaken c then ['\uFFFD', '\uFFFD', '\uFFFD'] else [c]) := by
  rw [decoded]
  split
  · decide
  · simp

theorem flatMap_encoded (text : List Char) : text.flatMap encoded = utf8 (asked text) := by
  rw [utf8, asked, List.flatMap_map]
  exact List.flatMap_congr fun c _ => encoded_eq c

theorem flatMap_decoded (text : List Char) : text.flatMap decoded = utf16 (shown text) := by
  rw [utf16, shown, List.flatMap_assoc]
  exact List.flatMap_congr fun c _ => decoded_eq c

theorem asked_eq_self {text : List Char} : asked text = text ↔ ∀ c ∈ text, ¬ Mistaken c := by
  conv_lhs => rhs; rw [← List.map_id text]
  rw [asked, List.map_inj_left]
  refine forall₂_congr fun c _ => ?_
  have hq : ¬ Mistaken '?' := by decide
  constructor
  · intro h hm
    rw [if_pos hm, id_eq] at h
    exact hq (h ▸ hm)
  · intro hm
    rw [if_neg hm, id_eq]

theorem asked_not_mistaken (text : List Char) : ∀ c ∈ asked text, ¬ Mistaken c := by
  intro c hc
  obtain ⟨d, -, rfl⟩ := List.mem_map.mp hc
  split
  · decide
  · assumption

theorem shown_not_mistaken (text : List Char) : ∀ c ∈ shown text, ¬ Mistaken c := by
  intro c hc
  obtain ⟨d, -, hd⟩ := List.mem_flatMap.mp hc
  split at hd
  · simp only [List.mem_cons, List.not_mem_nil, or_false, or_self] at hd
    rw [hd]
    decide
  · rename_i hm
    rw [List.mem_singleton.mp hd]
    exact hm

/-- What is replaced makes the text longer. -/
theorem shown_length (text : List Char) :
    text.length ≤ (shown text).length ∧
      ((shown text).length = text.length → ∀ c ∈ text, ¬ Mistaken c) := by
  induction text with
  | nil => exact ⟨le_refl _, by simp⟩
  | cons c text ih =>
    obtain ⟨hle, hno⟩ := ih
    have hcons : shown (c :: text) =
      (if Mistaken c then ['\uFFFD', '\uFFFD', '\uFFFD'] else [c]) ++ shown text :=
      List.flatMap_cons
    rw [hcons, List.length_append, List.length_cons]
    split
    · simp only [List.length_cons, List.length_nil]
      exact ⟨by omega, fun h => by omega⟩
    · rename_i hm
      simp only [List.length_cons, List.length_nil]
      exact ⟨by omega, fun h => List.forall_mem_cons.mpr ⟨hm, hno (by omega)⟩⟩

theorem shown_eq_self {text : List Char} : shown text = text ↔ ∀ c ∈ text, ¬ Mistaken c := by
  constructor
  · exact fun h => (shown_length text).2 (congrArg List.length h)
  · intro h
    rw [shown, List.flatMap_congr fun c hc => if_neg (h c hc), List.flatMap_singleton']

theorem asked_head {text : List Char} (h : text.head? ≠ some bom) :
    (asked text).head? ≠ some bom := by
  have hq : '?' ≠ bom := by decide
  cases text with
  | nil => exact h
  | cons c text =>
    rw [List.head?_cons, Ne, Option.some_inj] at h
    rw [asked, List.map_cons, List.head?_cons, Ne, Option.some_inj]
    split
    · exact hq
    · exact h

/-! ## Any bytes -/

theorem bytes_head {c : Char} {b : UInt8} {s : Bytes} (h : bytes c = b :: s) :
    isContinuationByte b = false := by
  have hc := scalar c
  rw [← Bool.not_eq_true, isContinuationByte_iff]
  rcases bytes_cases c with ⟨_, e⟩ | ⟨_, _, e⟩ | ⟨_, _, e⟩ | ⟨_, _, e⟩ <;>
    rw [e, List.cons.injEq] at h <;> rw [← h.1, toNat_ofNat8 (by omega)] <;> omega

theorem bytes_infix_continuations {d : Char} (b : Bytes) : ∀ {s : Bytes},
    (∀ x ∈ s, isContinuationByte x = true) → bytes d <:+: s ++ b → bytes d <:+: b
  | [], _, h => h
  | x :: s, hs, h => by
    rcases List.infix_cons_iff.mp h with hp | h
    · obtain ⟨y, t, hy⟩ := List.exists_cons_of_ne_nil (bytes_ne_nil d)
      rw [hy] at hp
      have hp := List.cons_prefix_cons.mp hp
      have hx := hs x (by simp)
      rw [← hp.1, bytes_head hy] at hx
      exact absurd hx (by simp)
    · exact bytes_infix_continuations b (fun z hz => hs z (by simp [hz])) h

/-- A scalar value is not encoded across others. -/
theorem bytes_infix_append {c d : Char} (b : Bytes) :
    bytes d <:+: bytes c ++ b ↔ d = c ∨ bytes d <:+: b := by
  constructor
  · intro h
    obtain ⟨x, s, hx⟩ := List.exists_cons_of_ne_nil (bytes_ne_nil c)
    rw [hx, List.cons_append] at h
    rcases List.infix_cons_iff.mp h with hp | h
    · rw [← List.cons_append, ← hx] at hp
      exact .inl (bytes_prefix_inj hp (List.prefix_append _ _))
    · exact .inr (bytes_infix_continuations b (continuations_bytes hx) h)
  · rintro (rfl | h)
    · exact (List.prefix_append _ _).isInfix
    · exact h.trans (List.suffix_append _ _).isInfix

theorem mem_of_occurs {d : Char} : ∀ {text : List Char}, bytes d <:+: utf8 text → d ∈ text
  | [], h => absurd (List.infix_nil.mp h) (bytes_ne_nil d)
  | c :: text, h => by
    rw [utf8_cons] at h
    rcases (bytes_infix_append _).mp h with rfl | h
    · exact List.mem_cons_self
    · exact List.mem_cons_of_mem _ (mem_of_occurs h)

theorem decoded_length (c : Char) : (units c).length ≤ (decoded c).length ∧
    ((decoded c).length = (units c).length → ¬ Mistaken c) := by
  rw [decoded]
  split
  · rename_i hm
    obtain ⟨u, hu, -⟩ := mistaken_units hm
    rw [hu]
    exact ⟨by simp, fun h => absurd h (by simp)⟩
  · rename_i hm
    exact ⟨le_refl _, fun _ => hm⟩

/-- Every byte sequence can be read. -/
theorem exists_reads (b : Bytes) : ∃ s, Reads b s := by
  induction hn : b.length using Nat.strongRecOn generalizing b with
  | ind n ih =>
    cases b with
    | nil => exact ⟨[], .nil⟩
    | cons x b =>
      by_cases hx : ∃ c, bytes c <+: x :: b
      · obtain ⟨c, rest, hc⟩ := hx
        have hlen := congrArg List.length hc
        have hpos := List.length_pos_iff.mpr (bytes_ne_nil c)
        rw [List.length_append] at hlen
        obtain ⟨s, hs⟩ := ih rest.length (by omega) rest rfl
        rw [← hc]
        exact ⟨_, .char c hs⟩
      · obtain ⟨s, hs⟩ := ih b.length (by rw [← hn, List.length_cons]; omega) b rfl
        exact ⟨_, .invalid (fun c hc => hx ⟨c, hc⟩) hs⟩

theorem decodeAll_invalid {x : UInt8} {b : Bytes} (hx : ∀ c, ¬ bytes c <+: x :: b) :
    decodeAll (x :: b) = replacement :: decodeAll b := by
  rw [decodeAll_cons, decodeNext]
  split
  · rename_i h
    obtain ⟨c, -, hc, -⟩ := fromUtf8_done h
    exact absurd hc (hx c)
  · rfl

/-- What is read is what is decoded, unless a scalar value that is taken for a surrogate is
encoded; then more is decoded. -/
theorem reads_decodeAll {b : Bytes} {s : Str} (h : Reads b s) :
    s.length ≤ (decodeAll b).length ∧
      (decodeAll b = s ↔ ∀ c, Mistaken c → ¬ bytes c <:+: b) := by
  induction h with
  | nil =>
    rw [decodeAll]
    refine ⟨le_refl _, fun _ c _ hc => bytes_ne_nil c (List.infix_nil.mp hc), fun _ => rfl⟩
  | char c h ih =>
    obtain ⟨hle, hiff⟩ := ih
    have hc := decoded_length c
    rw [decodeAll_bytes]
    refine ⟨by rw [List.length_append, List.length_append]; omega, fun he => ?_, fun hno => ?_⟩
    · have hlen := congrArg List.length he
      rw [List.length_append, List.length_append] at hlen
      have hm := hc.2 (by omega)
      rw [decoded, if_neg hm, List.append_cancel_left_eq, hiff] at he
      intro d hd hin
      rcases (bytes_infix_append _).mp hin with rfl | hin
      · exact hm hd
      · exact he d hd hin
    · have hm : ¬ Mistaken c := fun hm => hno c hm ((bytes_infix_append _).mpr (.inl rfl))
      have hrest := hiff.mpr fun d hd hin => hno d hd ((bytes_infix_append _).mpr (.inr hin))
      rw [decoded, if_neg hm, hrest]
  | invalid hx h ih =>
    obtain ⟨hle, hiff⟩ := ih
    rw [decodeAll_invalid hx, List.length_cons, List.length_cons, List.cons.injEq, hiff]
    refine ⟨by omega, fun he d hd hin => ?_, fun hno => ⟨rfl, fun d hd hin => ?_⟩⟩
    · rcases List.infix_cons_iff.mp hin with hp | hin
      · exact hx d hp
      · exact he.2 d hd hin
    · exact hno d hd (List.infix_cons_iff.mpr (.inr hin))

/-! ## Results -/

section Build

variable [Build]

theorem convertFromUnicode_utf16 (text : List Char) :
    convertFromUnicode (utf16 text) = utf8 (asked text) := by
  rw [convertFromUnicode_eq, encodeAll_utf16, flatMap_encoded]

theorem convertToUnicode_utf8 {text : List Char} (h : text.head? ≠ some bom) :
    convertToUnicode (utf8 text) = utf16 (shown text) := by
  rw [convertToUnicode_eq, body_utf8 h, decodeAll_utf8, flatMap_decoded]

theorem decode_encode_iff {text : List Char} (h : text.head? ≠ some bom) :
    convertToUnicode (convertFromUnicode (utf16 text)) = utf16 text ↔
      ∀ c ∈ text, ¬ Mistaken c := by
  rw [convertFromUnicode_utf16, convertToUnicode_utf8 (asked_head h),
    shown_eq_self.mpr (asked_not_mistaken text), ← asked_eq_self]
  exact ⟨utf16_inj, fun h => by rw [h]⟩

theorem encode_decode_iff {text : List Char} (h : text.head? ≠ some bom) :
    convertFromUnicode (convertToUnicode (utf8 text)) = utf8 text ↔
      ∀ c ∈ text, ¬ Mistaken c := by
  rw [convertToUnicode_utf8 h, convertFromUnicode_utf16,
    asked_eq_self.mpr (shown_not_mistaken text), ← shown_eq_self]
  exact ⟨utf8_inj, fun h => by rw [h]⟩

theorem reads_iff (b : Bytes) :
    Reads (body b) (convertToUnicode b) ↔ ∀ c, Mistaken c → ¬ bytes c <:+: body b := by
  rw [convertToUnicode_eq]
  constructor
  · exact fun h => (reads_decodeAll h).2.mp rfl
  · intro hno
    obtain ⟨s, hs⟩ := exists_reads (body b)
    rwa [(reads_decodeAll hs).2.mpr hno]

/-- Texts come through, and any bytes are read as what is encoded there, exactly where no scalar
value is taken for a surrogate. -/
theorem exact_iff :
    (∀ text : List Char, text.head? ≠ some bom →
      (convertToUnicode (convertFromUnicode (utf16 text)) = utf16 text ↔
        ∀ c ∈ text, ¬ Mistaken c)) ∧
    (∀ text : List Char, text.head? ≠ some bom →
      (convertFromUnicode (convertToUnicode (utf8 text)) = utf8 text ↔
        ∀ c ∈ text, ¬ Mistaken c)) ∧
    (∀ b : Bytes, Reads (body b) (convertToUnicode b) ↔
      ∀ c, Mistaken c → ¬ bytes c <:+: body b) :=
  ⟨fun _ h => decode_encode_iff h, fun _ h => encode_decode_iff h, reads_iff⟩

end Build

/-- U+E000 becomes a question mark, and its bytes three replacement characters. -/
theorem exact_false :
    letI : Build := ⟨true⟩
    convertToUnicode (convertFromUnicode (utf16 ['\uE000'])) ≠ utf16 ['\uE000'] ∧
      convertFromUnicode (convertToUnicode (utf8 ['\uE000'])) ≠ utf8 ['\uE000'] ∧
      ¬ Reads (body (utf8 ['\uE000'])) (convertToUnicode (utf8 ['\uE000'])) := by
  let _ : Build := ⟨true⟩
  refine ⟨by decide, by decide, ?_⟩
  rw [reads_iff]
  intro h
  refine h '\uE000' (by decide) ?_
  rw [body_utf8 (by decide)]
  exact List.infix_refl _

end Libpdk.Codecs.Utf8

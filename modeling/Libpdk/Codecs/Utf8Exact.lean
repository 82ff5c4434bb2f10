import Libpdk.Codecs.Utf8

/-!
# What UTF-8 conversion does to a text

`toUtf8` and `fromUtf8` against the encodings of a scalar value: a scalar value that is
not taken for a surrogate is converted as it should be, one that is is an error. From
there the conversions of whole texts, and of any bytes.
-/
namespace Libpdk.Codecs.Utf8

open Character Unicode

/-! ## Bits -/

theorem or_eq_add {k x y : Nat} (h : y < 2 ^ k) : 2 ^ k * x ||| y = 2 ^ k * x + y :=
  (Nat.two_pow_add_eq_or_of_lt h x).symm

theorem continuation_eq (n : Nat) : continuation n = UInt8.ofNat (0x80 + n % 0x40) := by
  rw [continuation, show (0x3f : Nat) = 2 ^ 6 - 1 from rfl, Nat.and_two_pow_sub_one_eq_mod,
    show (0x80 : Nat) = 2 ^ 6 * 2 from rfl, or_eq_add (Nat.mod_lt _ (by decide))]
  congr 2
  omega

theorem lead_two {n : Nat} (h : n < 0x800) :
    UInt8.ofNat (0xc0 ||| (n >>> 6) % 256) = UInt8.ofNat (0xc0 + n / 0x40) := by
  rw [Nat.shiftRight_eq_div_pow, show (0xc0 : Nat) = 2 ^ 6 * 3 from rfl, or_eq_add (by omega)]
  congr 2
  omega

theorem lead_three {n : Nat} (h : n < 0x10000) :
    UInt8.ofNat (0xe0 ||| (n >>> 12) % 256) = UInt8.ofNat (0xe0 + n / 0x1000) := by
  rw [Nat.shiftRight_eq_div_pow, show (0xe0 : Nat) = 2 ^ 4 * 14 from rfl, or_eq_add (by omega)]
  congr 2
  omega

theorem lead_four {n : Nat} (h : n < 0x110000) :
    UInt8.ofNat (0xf0 ||| ((n >>> 18) % 256 &&& 0xf)) = UInt8.ofNat (0xf0 + n / 0x40000) := by
  rw [Nat.shiftRight_eq_div_pow, show (0xf : Nat) = 2 ^ 4 - 1 from rfl,
    Nat.and_two_pow_sub_one_eq_mod, show (0xf0 : Nat) = 2 ^ 4 * 15 from rfl, or_eq_add (by omega)]
  congr 2
  omega

theorem isContinuationByte_iff (b : UInt8) :
    isContinuationByte b = true ↔ 0x80 ≤ b.toNat ∧ b.toNat < 0xc0 := by
  have hb := b.toNat_lt
  have hdiv : (b.toNat &&& 0xc0) / 2 ^ 6 = b.toNat / 2 ^ 6 := by
    rw [Nat.and_div_two_pow, show (0xc0 : Nat) / 2 ^ 6 = 2 ^ 2 - 1 from rfl,
      Nat.and_two_pow_sub_one_eq_mod, Nat.mod_eq_of_lt (by omega)]
  have hmod : (b.toNat &&& 0xc0) % 2 ^ 6 = 0 := by
    rw [Nat.and_mod_two_pow, show (0xc0 : Nat) % 2 ^ 6 = 0 from rfl, Nat.and_zero]
  rw [isContinuationByte, beq_iff_eq]
  omega

/-- A continuation byte adds six bits. -/
theorem continuations_cons {b : UInt8} (h : isContinuationByte b = true) (n uc : Nat)
    (src : Bytes) :
    continuations (n + 1) uc (b :: src) = continuations n (uc * 0x40 + (b.toNat - 0x80)) src := by
  have hb := (isContinuationByte_iff b).mp h
  have hbits : uc <<< 6 ||| (b.toNat &&& 0x3f) = uc * 0x40 + (b.toNat - 0x80) := by
    rw [Nat.shiftLeft_eq, show (0x3f : Nat) = 2 ^ 6 - 1 from rfl, Nat.and_two_pow_sub_one_eq_mod,
      Nat.mul_comm, or_eq_add (Nat.mod_lt _ (by decide))]
    omega
  rw [continuations, h, hbits]
  rfl

theorem continuations_some {n uc v : Nat} {src : Bytes}
    (h : continuations (n + 1) uc src = some v) :
    ∃ b src', src = b :: src' ∧ 0x80 ≤ b.toNat ∧ b.toNat < 0xc0 ∧
      continuations n (uc * 0x40 + (b.toNat - 0x80)) src' = some v := by
  cases src with
  | nil => exact absurd h (by simp [continuations])
  | cons b src =>
    by_cases hb : isContinuationByte b = true
    · rw [continuations_cons hb] at h
      have hb' := (isContinuationByte_iff b).mp hb
      exact ⟨b, src, rfl, hb'.1, hb'.2, h⟩
    · rw [continuations] at h
      simp [hb] at h

theorem isContinuationByte_ofNat {n : Nat} (h : n < 0x40) :
    isContinuationByte (UInt8.ofNat (0x80 + n)) = true := by
  rw [isContinuationByte_iff, toNat_ofNat8 (by omega)]
  omega

theorem continuations_ofNat {x : Nat} (h : x < 0x40) (n uc : Nat) (src : Bytes) :
    continuations (n + 1) uc (UInt8.ofNat (0x80 + x) :: src) =
      continuations n (uc * 0x40 + x) src := by
  rw [continuations_cons (isContinuationByte_ofNat h), toNat_ofNat8 (by omega),
    Nat.add_sub_cancel_left]

/-! ## Encoding one scalar value -/

theorem toUtf8_units {c : Char} (h : ¬ Mistaken c) :
    ∃ u s, units c = u :: s ∧ ∀ src, toUtf8 u (s ++ src) = .done (bytes c) src := by
  have hc := scalar c
  rw [mistaken_iff] at h
  rcases bytes_cases c with ⟨hlt, e⟩ | ⟨hge, hlt, e⟩ | ⟨hge, hlt, e⟩ | ⟨hge, hlt, e⟩
  · refine ⟨_, _, units_of_lt (by omega), fun src => ?_⟩
    rw [toUtf8, toNat_ofNat16 (by omega), e]
    simp [hlt]
  · refine ⟨_, _, units_of_lt (by omega), fun src => ?_⟩
    rw [toUtf8, toNat_ofNat16 (by omega), e, lead_two hlt, continuation_eq]
    simp only [List.nil_append]
    rw [if_neg (by omega), if_pos hlt]
  · refine ⟨_, _, units_of_lt hlt, fun src => ?_⟩
    have hs : isSurrogate c.toNat = false := by
      rw [← Bool.not_eq_true, isSurrogate_iff (by omega)]
      omega
    rw [toUtf8, toNat_ofNat16 hlt, e, lead_three hlt, continuation_eq, continuation_eq, hs,
      Nat.shiftRight_eq_div_pow]
    simp only [List.nil_append, Bool.not_false, if_true]
    rw [if_neg (by omega), if_neg (by omega)]
  · refine ⟨_, _, units_of_ge hge, fun src => ?_⟩
    generalize hh : UInt16.ofNat (0xd800 + (c.toNat - 0x10000) / 0x400) = high
    generalize hl : UInt16.ofNat (0xdc00 + c.toNat % 0x400) = low
    rw [← UInt16.toNat_inj, toNat_ofNat16 (by omega)] at hh hl
    have hs : isSurrogate high.toNat = true := (isSurrogate_iff (by omega)).mpr (by omega)
    have hhigh : isHighSurrogate high.toNat = true :=
      (isHighSurrogate_iff (by omega)).mpr (by omega)
    have hlow : isLowSurrogate low.toNat = true := (isLowSurrogate_iff (by omega)).mpr (by omega)
    have hucs4 : surrogateToUcs4 high low = c.toNat := by
      rw [surrogateToUcs4_eq (by omega) (by omega) (by omega) (by omega)]
      omega
    rw [toUtf8, if_neg (by omega), if_neg (by omega), hs]
    simp only [List.cons_append, List.nil_append, toUtf8Pair, hhigh, hlow, hucs4, Bool.not_true,
      Bool.false_eq_true, if_false]
    rw [e, lead_four hlt, continuation_eq, continuation_eq,
      continuation_eq, Nat.shiftRight_eq_div_pow, Nat.shiftRight_eq_div_pow,
      show c.toNat % 65536 / 2 ^ 6 % 0x40 = c.toNat / 0x40 % 0x40 by omega,
      show c.toNat % 65536 % 0x40 = c.toNat % 0x40 by omega]

/-- A unit that is not part of a pair is no character, nor is one taken for a surrogate. -/
theorem toUtf8_not_pair {u : UInt16} (hs : isSurrogate u.toNat = true) {src : Str}
    (h : ∀ low src', src = low :: src' →
      ¬ (isHighSurrogate u.toNat = true ∧ isLowSurrogate low.toNat = true)) :
    toUtf8 u src = if src = [] then .endOfString else .error := by
  have hu := (isSurrogate_iff (by have := u.toNat_lt; omega)).mp hs
  rw [toUtf8, if_neg (by omega), if_neg (by omega), hs]
  simp only [Bool.not_true, Bool.false_eq_true, if_false]
  cases src with
  | nil => rfl
  | cons low src' =>
    have := h low src' rfl
    by_cases hh : isHighSurrogate u.toNat = true
    · have hl : isLowSurrogate low.toNat = false := by simpa [hh] using this
      simp [toUtf8Pair, hh, hl]
    · simp [toUtf8Pair, hh]

theorem mistaken_units {c : Char} (h : Mistaken c) :
    ∃ u, units c = [u] ∧ isSurrogate u.toNat = true ∧ isHighSurrogate u.toNat = false := by
  have hc := (mistaken_iff c).mp h
  refine ⟨_, units_of_lt (by omega), ?_, ?_⟩
  · rw [toNat_ofNat16 (by omega)]
    exact h
  · rw [toNat_ofNat16 (by omega), ← Bool.not_eq_true, isHighSurrogate_iff (by omega)]
    omega

/-! ## Decoding one scalar value -/

theorem and_mask {k n : Nat} : n &&& (2 ^ k - 1) = n % 2 ^ k := Nat.and_two_pow_sub_one_eq_mod n k

theorem fromUtf8_two {b : UInt8} (h : 0xc1 < b.toNat) (h' : b.toNat < 0xe0) (src : Bytes) :
    fromUtf8 b src = fromLead 2 0x80 (b.toNat - 0xc0) src := by
  rw [fromUtf8, if_neg (by omega), if_neg (by omega), if_pos h',
    show (0x1f : Nat) = 2 ^ 5 - 1 from rfl, and_mask,
    show b.toNat % 2 ^ 5 = b.toNat - 0xc0 by omega]

theorem fromUtf8_three {b : UInt8} (h : 0xe0 ≤ b.toNat) (h' : b.toNat < 0xf0) (src : Bytes) :
    fromUtf8 b src = fromLead 3 0x800 (b.toNat - 0xe0) src := by
  rw [fromUtf8, if_neg (by omega), if_neg (by omega), if_neg (by omega), if_pos h',
    show (0x0f : Nat) = 2 ^ 4 - 1 from rfl, and_mask,
    show b.toNat % 2 ^ 4 = b.toNat - 0xe0 by omega]

theorem fromUtf8_four {b : UInt8} (h : 0xf0 ≤ b.toNat) (h' : b.toNat < 0xf5) (src : Bytes) :
    fromUtf8 b src = fromLead 4 0x10000 (b.toNat - 0xf0) src := by
  rw [fromUtf8, if_neg (by omega), if_neg (by omega), if_neg (by omega), if_neg (by omega),
    if_pos h', show (0x07 : Nat) = 2 ^ 3 - 1 from rfl, and_mask,
    show b.toNat % 2 ^ 3 = b.toNat - 0xf0 by omega]

theorem fromLead_char {n min uc : Nat} {src : Bytes} {c : Char} (hmin : min ≤ c.toNat)
    (hlen : n - 1 ≤ src.length) (hv : continuations (n - 1) uc src = some c.toNat) :
    fromLead n min uc src = if Mistaken c then .error else .done (units c) n := by
  have hc := scalar c
  rw [fromLead, if_neg (by omega), hv]
  simp only
  rw [if_neg (by omega)]
  by_cases hm : Mistaken c
  · rw [if_pos hm]
    exact if_pos (by rw [show isSurrogate c.toNat = true from hm, Bool.true_or])
  · rw [if_neg hm]
    have hs : isSurrogate c.toNat = false := by simpa [Mistaken] using hm
    have hlast : decide (c.toNat > lastValidCodePoint) = false := by
      rw [decide_eq_false_iff_not, lastValidCodePoint]
      omega
    rw [hs, hlast, Bool.or_false]
    simp only [Bool.false_eq_true, if_false]
    rcases Nat.lt_or_ge c.toNat 0x10000 with hlt | hge
    · rw [units_of_lt hlt, if_pos]
      simpa [requiresSurrogates] using hlt
    · rw [surrogates hge, if_neg]
      simpa [requiresSurrogates] using hge

/-- The bytes of a scalar value that is no surrogate to the code are decoded as it. -/
theorem fromUtf8_bytes (c : Char) :
    ∃ b s, bytes c = b :: s ∧ ∀ src,
      fromUtf8 b (s ++ src) = if Mistaken c then .error else .done (units c) (bytes c).length := by
  have hc := scalar c
  rcases bytes_cases c with ⟨hlt, e⟩ | ⟨hge, hlt, e⟩ | ⟨hge, hlt, e⟩ | ⟨hge, hlt, e⟩
  · refine ⟨_, _, e, fun src => ?_⟩
    have hm : ¬ Mistaken c := by
      rw [mistaken_iff]
      omega
    have hb : (UInt8.ofNat c.toNat).toNat = c.toNat := toNat_ofNat8 (by omega)
    rw [if_neg hm, e, fromUtf8, hb, if_pos hlt, units_of_lt (by omega)]
    congr 2
    rw [← UInt16.toNat_inj, UInt8.toNat_toUInt16, hb, toNat_ofNat16 (by omega)]
  · refine ⟨_, _, e, fun src => ?_⟩
    have hb : (UInt8.ofNat (0xc0 + c.toNat / 0x40)).toNat = 0xc0 + c.toNat / 0x40 :=
      toNat_ofNat8 (by omega)
    rw [fromUtf8_two (by omega) (by omega), hb, e]
    refine fromLead_char hge (by simp) ?_
    rw [List.cons_append, continuations_ofNat (by omega), continuations]
    congr 1
    omega
  · refine ⟨_, _, e, fun src => ?_⟩
    have hb : (UInt8.ofNat (0xe0 + c.toNat / 0x1000)).toNat = 0xe0 + c.toNat / 0x1000 :=
      toNat_ofNat8 (by omega)
    rw [fromUtf8_three (by omega) (by omega), hb, e]
    refine fromLead_char hge (by simp) ?_
    rw [List.cons_append, List.cons_append, continuations_ofNat (by omega),
      continuations_ofNat (by omega), continuations]
    congr 1
    omega
  · refine ⟨_, _, e, fun src => ?_⟩
    have hb : (UInt8.ofNat (0xf0 + c.toNat / 0x40000)).toNat = 0xf0 + c.toNat / 0x40000 :=
      toNat_ofNat8 (by omega)
    rw [fromUtf8_four (by omega) (by omega), hb, e]
    refine fromLead_char hge (by simp) ?_
    rw [List.cons_append, List.cons_append, List.cons_append, continuations_ofNat (by omega),
      continuations_ofNat (by omega), continuations_ofNat (by omega), continuations]
    congr 1
    omega

theorem fromLead_done {n min uc k : Nat} {src : Bytes} {us : Str}
    (h : fromLead n min uc src = .done us k) :
    k = n ∧ ∃ c : Char, continuations (n - 1) uc src = some c.toNat ∧ min ≤ c.toNat ∧
      ¬ Mistaken c ∧ us = units c := by
  rw [fromLead] at h
  split at h
  · split at h <;> exact absurd h (by simp)
  split at h
  · exact absurd h (by simp)
  rename_i v hv
  split at h
  · exact absurd h (by simp)
  rename_i hmin
  split at h
  · exact absurd h (by simp)
  rename_i hs
  rw [Bool.not_eq_true, Bool.or_eq_false_iff, decide_eq_false_iff_not, lastValidCodePoint] at hs
  obtain ⟨hs, hlast⟩ := hs
  have hs' : ¬ (0xd800 ≤ v ∧ v < 0xf848) := by
    rw [← isSurrogate_iff (by omega), hs]
    simp
  obtain ⟨c, rfl⟩ := exists_char (show v < 0xd800 ∨ (0xdfff < v ∧ v < 0x110000) by omega)
  have hm : ¬ Mistaken c := by rw [Mistaken, hs]; simp
  split at h
  · rename_i hr
    have hlt : c.toNat < 0x10000 := by simpa [requiresSurrogates] using hr
    simp only [Decoded.done.injEq] at h
    exact ⟨h.2.symm, c, hv, by omega, hm, by rw [units_of_lt hlt]; exact h.1.symm⟩
  · rename_i hr
    have hge : 0x10000 ≤ c.toNat := by simpa [requiresSurrogates] using hr
    simp only [Decoded.done.injEq] at h
    exact ⟨h.2.symm, c, hv, by omega, hm, by rw [surrogates hge]; exact h.1.symm⟩

/-- What is decoded was encoded there. -/
theorem fromUtf8_done {b : UInt8} {src : Bytes} {us : Str} {k : Nat}
    (h : fromUtf8 b src = .done us k) :
    ∃ c : Char, ¬ Mistaken c ∧ bytes c <+: b :: src ∧ us = units c ∧ k = (bytes c).length := by
  have hb := b.toNat_lt
  rcases Nat.lt_or_ge b.toNat 0x80 with h80 | h80
  · rw [fromUtf8, if_pos h80, Decoded.done.injEq] at h
    obtain ⟨c, hc⟩ := exists_char (n := b.toNat) (by omega)
    have hbytes : bytes c = [b] := by
      rw [bytes_one (by omega), hc, UInt8.ofNat_toNat]
    refine ⟨c, by rw [mistaken_iff]; omega, ⟨src, by rw [hbytes]; rfl⟩, ?_,
      by rw [hbytes, ← h.2]; rfl⟩
    rw [units_of_lt (by omega), ← h.1, hc]
    congr 1
    rw [← UInt16.toNat_inj, UInt8.toNat_toUInt16, toNat_ofNat16 (by omega)]
  rcases Nat.lt_or_ge 0xc1 b.toNat with hc1 | hc1
  case inr => exact absurd h (by rw [fromUtf8, if_neg (by omega), if_pos hc1]; simp)
  rcases Nat.lt_or_ge b.toNat 0xe0 with he0 | he0
  · rw [fromUtf8_two hc1 he0] at h
    obtain ⟨rfl, c, hv, hmin, hm, rfl⟩ := fromLead_done h
    obtain ⟨b₁, src, rfl, h₁, h₁', hv⟩ := continuations_some hv
    rw [continuations, Option.some_inj] at hv
    have hbytes : bytes c = [b, b₁] := by
      rw [bytes_two hmin (by omega), ofNat8_eq (b := b) (by omega), ofNat8_eq (b := b₁) (by omega)]
    exact ⟨c, hm, ⟨src, by rw [hbytes]; rfl⟩, rfl, by rw [hbytes]; rfl⟩
  rcases Nat.lt_or_ge b.toNat 0xf0 with hf0 | hf0
  · rw [fromUtf8_three he0 hf0] at h
    obtain ⟨rfl, c, hv, hmin, hm, rfl⟩ := fromLead_done h
    obtain ⟨b₁, src, rfl, h₁, h₁', hv⟩ := continuations_some hv
    obtain ⟨b₂, src, rfl, h₂, h₂', hv⟩ := continuations_some hv
    rw [continuations, Option.some_inj] at hv
    have hbytes : bytes c = [b, b₁, b₂] := by
      rw [bytes_three hmin (by omega), ofNat8_eq (b := b) (by omega),
        ofNat8_eq (b := b₁) (by omega), ofNat8_eq (b := b₂) (by omega)]
    exact ⟨c, hm, ⟨src, by rw [hbytes]; rfl⟩, rfl, by rw [hbytes]; rfl⟩
  rcases Nat.lt_or_ge b.toNat 0xf5 with hf5 | hf5
  · rw [fromUtf8_four hf0 hf5] at h
    obtain ⟨rfl, c, hv, hmin, hm, rfl⟩ := fromLead_done h
    obtain ⟨b₁, src, rfl, h₁, h₁', hv⟩ := continuations_some hv
    obtain ⟨b₂, src, rfl, h₂, h₂', hv⟩ := continuations_some hv
    obtain ⟨b₃, src, rfl, h₃, h₃', hv⟩ := continuations_some hv
    rw [continuations, Option.some_inj] at hv
    have hbytes : bytes c = [b, b₁, b₂, b₃] := by
      rw [bytes_four hmin, ofNat8_eq (b := b) (by omega), ofNat8_eq (b := b₁) (by omega),
        ofNat8_eq (b := b₂) (by omega), ofNat8_eq (b := b₃) (by omega)]
    exact ⟨c, hm, ⟨src, by rw [hbytes]; rfl⟩, rfl, by rw [hbytes]; rfl⟩
  · refine absurd h ?_
    rw [fromUtf8, if_neg (by omega), if_neg (by omega), if_neg (by omega), if_neg (by omega),
      if_neg (by omega)]
    simp

/-- The bytes of a scalar value that was cut. -/
theorem fromUtf8_cut {c : Char} {b : UInt8} {s q : Bytes} (h : bytes c = b :: s ++ q)
    (hq : q ≠ []) : fromUtf8 b s = .endOfString := by
  have hc := scalar c
  have hcont {x : Nat} : isContinuationByte (UInt8.ofNat (0x80 + x % 0x40)) = true :=
    isContinuationByte_ofNat (Nat.mod_lt _ (by decide))
  have hlen := congrArg List.length h
  have hq' : 0 < q.length := List.length_pos_iff.mpr hq
  rcases bytes_cases c with ⟨hlt, e⟩ | ⟨hge, hlt, e⟩ | ⟨hge, hlt, e⟩ | ⟨hge, hlt, e⟩
  · rw [e] at hlen
    simp only [List.length_append, List.length_cons, List.length_nil] at hlen
    omega
  · rw [e] at h hlen
    simp only [List.length_append, List.length_cons, List.length_nil] at hlen
    have hs : s = [] := List.length_eq_zero_iff.mp (by omega)
    subst hs
    simp only [List.cons_append, List.cons.injEq] at h
    have hb : b.toNat = 0xc0 + c.toNat / 0x40 := by rw [← h.1, toNat_ofNat8 (by omega)]
    rw [fromUtf8_two (by omega) (by omega), fromLead, if_pos (by simp)]
    rfl
  · rw [e] at h hlen
    simp only [List.length_append, List.length_cons, List.length_nil] at hlen
    have hb : b.toNat = 0xe0 + c.toNat / 0x1000 := by
      simp only [List.cons_append, List.cons.injEq] at h
      rw [← h.1, toNat_ofNat8 (by omega)]
    rw [fromUtf8_three (by omega) (by omega), fromLead, if_pos (by omega), if_neg]
    match s, h with
    | [], _ => simp
    | [x], h =>
      simp only [List.cons_append, List.nil_append, List.cons.injEq] at h
      have hx : isContinuationByte x = true := h.2.1 ▸ hcont
      simp [hx]
    | x :: y :: s, _ =>
      simp only [List.length_cons] at hlen
      omega
  · rw [e] at h hlen
    simp only [List.length_append, List.length_cons, List.length_nil] at hlen
    have hb : b.toNat = 0xf0 + c.toNat / 0x40000 := by
      simp only [List.cons_append, List.cons.injEq] at h
      rw [← h.1, toNat_ofNat8 (by omega)]
    rw [fromUtf8_four (by omega) (by omega), fromLead, if_pos (by omega), if_neg]
    match s, h with
    | [], _ => simp
    | [x], h =>
      simp only [List.cons_append, List.nil_append, List.cons.injEq] at h
      have hx : isContinuationByte x = true := h.2.1 ▸ hcont
      simp [hx]
    | [x, y], h =>
      simp only [List.cons_append, List.nil_append, List.cons.injEq] at h
      have hx : isContinuationByte x = true := h.2.1 ▸ hcont
      have hy : isContinuationByte y = true := h.2.2.1 ▸ hcont
      simp [hx, hy]
    | x :: y :: z :: s, _ =>
      simp only [List.length_cons] at hlen
      omega

/-- A continuation byte starts nothing. -/
theorem fromUtf8_continuation {b : UInt8} (h : isContinuationByte b = true) (src : Bytes) :
    fromUtf8 b src = .error := by
  have hb := (isContinuationByte_iff b).mp h
  rw [fromUtf8, if_neg (by omega), if_pos (by omega)]

/-! ## The loops -/

section Scan

variable {α β : Type} (plain : α → Bool) (copy : α → β)

/-- What the scan copied is plain and was in front. -/
structure Copied (src front : List α) (scan : Scan α β) : Prop where
  src : src = front ++ scan.src
  plain : ∀ x ∈ front, plain x = true
  out : scan.out = front.map copy
  done : scan.done = true → scan.src = []

theorem scanAscii_copied (nextAscii : Nat) : ∀ (rounds : Nat) (src : List α),
    ∃ front, Copied plain copy src front (scanAscii plain copy nextAscii rounds src)
  | 0, src => ⟨[], rfl, by simp, rfl, by simp [scanAscii]⟩
  | rounds + 1, src => by
    rw [scanAscii]
    split
    · exact ⟨[], rfl, by simp, rfl, by simp⟩
    · simp only
      split
      · rename_i hall
        obtain ⟨front, h⟩ := scanAscii_copied nextAscii rounds (src.drop 16)
        refine ⟨src.take 16 ++ front, ?_, ?_, ?_, h.done⟩
        · rw [List.append_assoc, ← h.src, List.take_append_drop]
        · intro x hx
          rcases List.mem_append.mp hx with hx | hx
          · exact List.all_eq_true.mp hall x hx
          · exact h.plain x hx
        · rw [List.map_append, h.out]
      · have hfront : (src.take 16).takeWhile plain <+: src :=
          (List.takeWhile_prefix plain).trans (List.take_prefix 16 src)
        refine ⟨(src.take 16).takeWhile plain, ?_, ?_, rfl, by simp⟩
        · conv_lhs => rw [← List.take_append_drop ((src.take 16).takeWhile plain).length src]
          rw [← List.prefix_iff_eq_take.mp hfront]
        · exact List.all_eq_true.mp List.all_takeWhile

end Scan

def ascii (b : UInt8) : Bool := decide (b.toNat < 0x80)

/-- A unit that is ASCII and not a NUL. -/
def asciiUnit (u : UInt16) : Bool := decide (0 < u.toNat ∧ u.toNat < 0x80)

theorem packus_positive {u : UInt16} (h : positive (packus u) = true) :
    0 < u.toNat ∧ u.toNat < 0x80 ∧ packus u = u.toUInt8 := by
  rw [positive, decide_eq_true_eq] at h
  rw [packus] at h ⊢
  split at h
  · exact absurd h.1 (by simp)
  split at h
  · exact absurd h.2 (by simp)
  rename_i h8 hff
  rw [UInt16.toNat_toUInt8] at h
  rw [if_neg h8, if_neg hff]
  exact ⟨by omega, by omega, rfl⟩

section Simd

variable [Build]

theorem simdDecodeAscii_copied (nextAscii : Nat) (src : Bytes) :
    ∃ front, Copied ascii UInt8.toUInt16 src front (simdDecodeAscii nextAscii src) := by
  rw [simdDecodeAscii]
  split
  · exact scanAscii_copied _ _ nextAscii src.length src
  · exact ⟨[], rfl, by simp, rfl, by simp⟩

theorem simdEncodeAscii_copied (nextAscii : Nat) (src : Str) :
    ∃ front, Copied asciiUnit UInt16.toUInt8 src front (simdEncodeAscii nextAscii src) := by
  rw [simdEncodeAscii]
  split
  · obtain ⟨front, h⟩ := scanAscii_copied (fun u => positive (packus u)) packus nextAscii src.length src
    refine ⟨front, h.src, fun u hu => ?_, ?_, h.done⟩
    · have hp := packus_positive (h.plain u hu)
      rw [asciiUnit, decide_eq_true_eq]
      exact ⟨hp.1, hp.2.1⟩
    · rw [h.out]
      exact List.map_congr_left fun u hu => (packus_positive (h.plain u hu)).2.2
  · exact ⟨[], rfl, by simp, rfl, by simp⟩

end Simd

/-- The stateless decoding, one character at a time. -/
@[grind =] def decodeAll : Bytes → Str
  | [] => []
  | b :: src => (decodeNext b src).1 ++ decodeAll (decodeNext b src).2
termination_by src => src.length
decreasing_by
  simp only [decodeNext]
  split <;> simp only [List.length_drop, List.length_cons] <;> omega

theorem toUtf8_done {u : UInt16} {src src' : Str} {bytes : Bytes}
    (h : toUtf8 u src = .done bytes src') : src' = src ∨ ∃ low, src = low :: src' := by
  rw [toUtf8] at h
  split at h
  · exact .inl (Encoded.done.inj h).2.symm
  split at h
  · exact .inl (Encoded.done.inj h).2.symm
  split at h
  · exact .inl (Encoded.done.inj h).2.symm
  cases src with
  | nil => exact absurd h (by simp [toUtf8Pair])
  | cons low src =>
    rw [toUtf8Pair] at h
    split at h
    · exact absurd h (by simp)
    split at h
    · exact absurd h (by simp)
    exact .inr ⟨low, by rw [(Encoded.done.inj h).2]⟩

theorem encodeNext_length (u : UInt16) (src : Str) : (encodeNext u src).2.length ≤ src.length := by
  rw [encodeNext]
  split
  · rename_i h
    rcases toUtf8_done h with h' | ⟨low, h'⟩ <;> simp [h']
  · exact le_refl _

/-- The stateless encoding, one character at a time. -/
@[grind =] def encodeAll : Str → Bytes
  | [] => []
  | u :: src => (encodeNext u src).1 ++ encodeAll (encodeNext u src).2
termination_by src => src.length
decreasing_by
  have := encodeNext_length u src
  simp only [List.length_cons]
  omega

theorem decodeNext_length (b : UInt8) (src : Bytes) : (decodeNext b src).2.length ≤ src.length := by
  rw [decodeNext]
  split <;> simp

theorem decodeAll_cons (b : UInt8) (src : Bytes) :
    decodeAll (b :: src) = (decodeNext b src).1 ++ decodeAll (decodeNext b src).2 := by
  rw [decodeAll]

theorem encodeAll_cons (u : UInt16) (src : Str) :
    encodeAll (u :: src) = (encodeNext u src).1 ++ encodeAll (encodeNext u src).2 := by
  rw [encodeAll]

theorem decodeAll_ascii : ∀ {front : Bytes}, (∀ b ∈ front, ascii b = true) → ∀ src : Bytes,
    decodeAll (front ++ src) = front.map UInt8.toUInt16 ++ decodeAll src
  | [], _, _ => rfl
  | b :: front, h, src => by
    have hb : b.toNat < 0x80 := by simpa [ascii] using h b (by simp)
    have ih : decodeAll (front ++ src) = _ :=
      decodeAll_ascii (fun x hx => h x (by simp [hx])) src
    rw [List.cons_append, decodeAll_cons, decodeNext, fromUtf8, if_pos hb]
    simp only [Nat.sub_self, List.drop_zero, ih, List.map_cons, List.cons_append,
      List.nil_append]

theorem encodeAll_ascii : ∀ {front : Str}, (∀ u ∈ front, asciiUnit u = true) → ∀ src : Str,
    encodeAll (front ++ src) = front.map UInt16.toUInt8 ++ encodeAll src
  | [], _, _ => rfl
  | u :: front, h, src => by
    have hu : u.toNat < 0x80 := by
      have := h u (by simp)
      rw [asciiUnit, decide_eq_true_eq] at this
      exact this.2
    have ih : encodeAll (front ++ src) = _ :=
      encodeAll_ascii (fun x hx => h x (by simp [hx])) src
    rw [List.cons_append, encodeAll_cons, encodeNext, toUtf8, if_pos hu]
    simp only [ih, List.map_cons, List.cons_append, List.nil_append]
    rfl

theorem decodeUntil_all (nextAscii : Nat) : ∀ (rounds : Nat) (src : Bytes),
    (decodeUntil nextAscii rounds src).1 ++ decodeAll (decodeUntil nextAscii rounds src).2 =
        decodeAll src ∧
      (decodeUntil nextAscii rounds src).2.length ≤ src.length - min 1 rounds
  | 0, src => by simp [decodeUntil]
  | rounds + 1, [] => by simp [decodeUntil]
  | rounds + 1, b :: src => by
    have hlen := decodeNext_length b src
    have ih := decodeUntil_all nextAscii rounds (decodeNext b src).2
    rw [decodeUntil, decodeAll_cons, List.length_cons]
    simp only
    split
    · refine ⟨by rw [List.append_assoc, ih.1], by simp only; omega⟩
    · exact ⟨rfl, by simp only; omega⟩

theorem encodeUntil_all (nextAscii : Nat) : ∀ (rounds : Nat) (src : Str),
    (encodeUntil nextAscii rounds src).1 ++ encodeAll (encodeUntil nextAscii rounds src).2 =
        encodeAll src ∧
      (encodeUntil nextAscii rounds src).2.length ≤ src.length - min 1 rounds
  | 0, src => by simp [encodeUntil]
  | rounds + 1, [] => by simp [encodeUntil]
  | rounds + 1, u :: src => by
    have hlen := encodeNext_length u src
    have ih := encodeUntil_all nextAscii rounds (encodeNext u src).2
    rw [encodeUntil, encodeAll_cons, List.length_cons]
    simp only
    split
    · refine ⟨by rw [List.append_assoc, ih.1], by simp only; omega⟩
    · exact ⟨rfl, by simp only; omega⟩

section Simd

variable [Build]

theorem convertToUnicodeLoop_eq : ∀ (rounds : Nat) {src : Bytes}, src.length ≤ rounds →
    convertToUnicodeLoop rounds src = decodeAll src
  | 0, src, h => by
    rw [List.length_eq_zero_iff.mp (Nat.le_zero.mp h), convertToUnicodeLoop, decodeAll]
  | rounds + 1, src, h => by
    rw [convertToUnicodeLoop]
    split
    · rename_i he
      rw [he, decodeAll]
    rename_i hne
    obtain ⟨front, hc⟩ := simdDecodeAscii_copied 0 src
    simp only
    generalize simdDecodeAscii 0 src = scan at hc
    rw [hc.src, decodeAll_ascii hc.plain, hc.out]
    split
    · rename_i hd
      rw [hc.done hd, decodeAll, List.append_nil]
    · have hu := decodeUntil_all scan.nextAscii scan.src.length scan.src
      have hlen := congrArg List.length hc.src
      rw [List.length_append] at hlen
      rw [convertToUnicodeLoop_eq rounds, List.append_assoc, hu.1]
      have hpos := List.length_pos_iff.mpr hne
      omega

theorem convertFromUnicodeLoop_eq : ∀ (rounds : Nat) {src : Str}, src.length ≤ rounds →
    convertFromUnicodeLoop rounds src = encodeAll src
  | 0, src, h => by
    rw [List.length_eq_zero_iff.mp (Nat.le_zero.mp h), convertFromUnicodeLoop, encodeAll]
  | rounds + 1, src, h => by
    rw [convertFromUnicodeLoop]
    split
    · rename_i he
      rw [he, encodeAll]
    rename_i hne
    obtain ⟨front, hc⟩ := simdEncodeAscii_copied 0 src
    simp only
    generalize simdEncodeAscii 0 src = scan at hc
    rw [hc.src, encodeAll_ascii hc.plain, hc.out]
    split
    · rename_i hd
      rw [hc.done hd, encodeAll, List.append_nil]
    · have hu := encodeUntil_all scan.nextAscii scan.src.length scan.src
      have hlen := congrArg List.length hc.src
      rw [List.length_append] at hlen
      rw [convertFromUnicodeLoop_eq rounds, List.append_assoc, hu.1]
      have hpos := List.length_pos_iff.mpr hne
      omega

/-- The bytes without a byte order mark in front. -/
def body (chars : Bytes) : Bytes := if utf8bom.isPrefixOf chars then chars.drop 3 else chars

theorem convertFromUnicode_eq (uc : Str) : convertFromUnicode uc = encodeAll uc :=
  convertFromUnicodeLoop_eq _ (le_refl _)

theorem convertToUnicode_eq (chars : Bytes) : convertToUnicode chars = decodeAll (body chars) := by
  obtain ⟨front, hc⟩ := simdDecodeAscii_copied 0 chars
  rw [convertToUnicode]
  simp only
  generalize simdDecodeAscii 0 chars = scan at hc
  have hbom : front ≠ [] → utf8bom.isPrefixOf chars = false := by
    intro hf
    obtain ⟨b, front', rfl⟩ := List.exists_cons_of_ne_nil hf
    have hb := hc.plain b (by simp)
    rw [hc.src, List.cons_append, utf8bom, List.isPrefixOf_cons_cons, Bool.and_eq_false_iff]
    left
    rw [beq_eq_false_iff_ne]
    rintro rfl
    exact absurd hb (by decide)
  split
  · rename_i hd
    have hsrc := hc.src
    rw [hc.done hd, List.append_nil] at hsrc
    have hnil : utf8bom.isPrefixOf chars = false := by
      by_cases hf : front = []
      · rw [hsrc, hf]
        rfl
      · exact hbom hf
    rw [body, hnil, hsrc, hc.out]
    have := decodeAll_ascii hc.plain []
    rw [List.append_nil, decodeAll, List.append_nil] at this
    simp [this]
  · rw [convertToUnicodeLoop_eq _ (le_refl _), body]
    by_cases hf : front = []
    · have hsrc := hc.src
      rw [hf, List.nil_append] at hsrc
      rw [hc.out, hf, ← hsrc]
      simp
    · have hlen := congrArg List.length hc.src
      rw [List.length_append] at hlen
      have hpos := List.length_pos_iff.mpr hf
      rw [hbom hf, if_neg (by omega), if_neg (by simp), hc.out]
      conv_rhs => rw [hc.src]
      rw [decodeAll_ascii hc.plain]

end Simd

end Libpdk.Codecs.Utf8

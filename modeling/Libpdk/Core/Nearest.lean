import Libpdk.Core.FloatBits
import Mathlib.Tactic.Ring

/-!
# The double that is nearest to a fraction

The magnitude of a double is a significand of 53 bits times a power of two, in units of
`2 ^ (-1075)` a natural number. `nearestBits` chooses the power for which the rounded significand
has its 53 bits; no double is nearer to the fraction (`nearestBits_nearest`), and a fraction that
differs from a double by less than half of the last place is read as this double
(`nearestBits_iff`).
-/
namespace Libpdk

/-- The quotient rounded to the nearest, ties to even. -/
def roundDiv (n d : Nat) : Nat :=
  if d < 2 * (n % d) ∨ (2 * (n % d) = d ∧ n / d % 2 = 1) then n / d + 1 else n / d

theorem roundDiv_bounds {n d : Nat} (hd : 0 < d) :
    2 * (roundDiv n d * d) ≤ 2 * n + d ∧ 2 * n ≤ 2 * (roundDiv n d * d) + d := by
  have hdiv : d * (n / d) + n % d = n := Nat.div_add_mod n d
  have hmod := Nat.mod_lt n hd
  rw [Nat.mul_comm] at hdiv
  unfold roundDiv
  split
  · rw [Nat.add_mul, Nat.one_mul]
    omega
  · omega

/-- A multiple that is nearer than half of the divisor is the rounded one. -/
theorem roundDiv_of_near {n d m : Nat} (hlow : 2 * (m * d) < 2 * n + d)
    (hhigh : 2 * n < 2 * (m * d) + d) : roundDiv n d = m := by
  have hd : 0 < d := by omega
  obtain ⟨hbelow, habove⟩ := roundDiv_bounds (n := n) hd
  refine Nat.le_antisymm ?_ ?_
  · have hlt : roundDiv n d * d < (m + 1) * d := by rw [Nat.add_mul]; omega
    exact Nat.le_of_lt_succ (Nat.lt_of_mul_lt_mul_right hlt)
  · have hlt : m * d < (roundDiv n d + 1) * d := by rw [Nat.add_mul]; omega
    exact Nat.le_of_lt_succ (Nat.lt_of_mul_lt_mul_right hlt)

theorem roundDiv_mul (m : Nat) {d : Nat} (hd : 0 < d) : roundDiv (m * d) d = m :=
  roundDiv_of_near (by omega) (by omega)

theorem roundDiv_scale (n d : Nat) {c : Nat} (hc : 0 < c) :
    roundDiv (n * c) (d * c) = roundDiv n d := by
  unfold roundDiv
  rw [Nat.mul_div_mul_right n d hc, Nat.mul_mod_mul_right, ← Nat.mul_assoc]
  simp only [Nat.mul_lt_mul_right hc, Nat.mul_left_inj (Nat.pos_iff_ne_zero.mp hc)]

namespace Binary64

/-- Magnitudes are in units of `2 ^ (-1075)`, half of the last place of the smallest double. -/
def unitExponent : Nat := 1075

/-- The significand, with the bit that is not stored. -/
def significand (d : Binary64) : Nat :=
  if d.exponent = 0 then d.fraction.val else 4503599627370496 + d.fraction.val

/-- The exponent of the last place in these units. -/
def scale (d : Binary64) : Nat := max 1 d.exponent.val

/-- The absolute value in these units. -/
def magnitude (d : Binary64) : Nat := d.significand * 2 ^ d.scale

theorem scale_pos (d : Binary64) : 0 < d.scale :=
  Nat.lt_of_lt_of_le Nat.one_pos (Nat.le_max_left _ _)

/-- A significand of fewer bits has the lowest scale. -/
theorem significand_bounds (d : Binary64) : d.significand < 9007199254740992 ∧
    (d.scale = 1 ∨ 4503599627370496 ≤ d.significand) := by
  have hfraction := d.fraction.isLt
  unfold significand scale
  by_cases h : d.exponent = 0
  · rw [if_pos h, h]
    exact ⟨by omega, .inl rfl⟩
  · rw [if_neg h]
    exact ⟨by omega, .inr (by omega)⟩

/-- The bits but for the sign. -/
theorem bits_eq (d : Binary64) : (d.scale - 1) * 4503599627370496 + d.significand =
    d.exponent.val * 4503599627370496 + d.fraction.val := by
  unfold significand scale
  by_cases h : d.exponent = 0
  · rw [if_pos h, h]
    simp
  · have hpos : d.exponent.val ≠ 0 := fun h0 => h (Fin.ext h0)
    rw [if_neg h, Nat.max_eq_right (by omega)]
    omega

/-- The scale of the double next to a fraction. -/
def scaleOf (num den : Nat) : Nat := max 1 (Nat.log2 (num * 2 ^ unitExponent / den) - 52)

/-- The bits of the double next to a fraction; a significand of 54 bits carries into the
exponent. -/
def nearestBits (num den : Nat) : Nat :=
  (scaleOf num den - 1) * 4503599627370496 +
    roundDiv (num * 2 ^ unitExponent) (den * 2 ^ scaleOf num den)

/-- The nearest double, where it is not too large. -/
def ofFraction (sign : Bool) (num den : Nat) : Option Binary64 :=
  let bits := nearestBits num den
  if bits < 9218868437227405312 then
    some ⟨sign, Fin.ofNat 2048 (bits / 4503599627370496), Fin.ofNat 4503599627370496 bits⟩
  else none

/-! ## The chosen scale -/

variable {num den : Nat}

theorem scaleOf_upper (num : Nat) (hden : 0 < den) :
    num * 2 ^ unitExponent < 9007199254740992 * (den * 2 ^ scaleOf num den) := by
  unfold scaleOf
  generalize num * 2 ^ unitExponent = n
  have hlog : n / den < 2 ^ (Nat.log2 (n / den) + 1) := Nat.lt_log2_self
  have hpow : 2 ^ (Nat.log2 (n / den) + 1) ≤ 2 ^ (53 + max 1 (Nat.log2 (n / den) - 52)) :=
    Nat.pow_le_pow_right (by decide) (by omega)
  have hlt := (Nat.div_lt_iff_lt_mul hden).mp (Nat.lt_of_lt_of_le hlog hpow)
  rw [Nat.pow_add, Nat.mul_assoc, Nat.mul_comm _ den] at hlt
  exact hlt

theorem scaleOf_lower (num : Nat) (hden : 0 < den) : scaleOf num den = 1 ∨
    4503599627370496 * (den * 2 ^ scaleOf num den) ≤ num * 2 ^ unitExponent := by
  unfold scaleOf
  generalize num * 2 ^ unitExponent = n
  by_cases hscale : Nat.log2 (n / den) ≤ 53
  · exact .inl (by omega)
  · refine .inr ?_
    obtain ⟨s, hs⟩ : ∃ s, Nat.log2 (n / den) = 52 + s := ⟨Nat.log2 (n / den) - 52, by omega⟩
    have hpos : n / den ≠ 0 := fun h => by
      rw [h] at hscale
      exact hscale (by decide)
    have hle := (Nat.le_div_iff_mul_le hden).mp (Nat.log2_self_le hpos)
    rw [hs, Nat.pow_add, Nat.mul_assoc, Nat.mul_comm _ den] at hle
    rw [hs, show max 1 (52 + s - 52) = s from by omega]
    exact hle

/-- Only one scale gives a significand of 53 bits. -/
theorem scaleOf_eq (hden : 0 < den) {s : Nat} (hs : 0 < s)
    (hupper : num * 2 ^ unitExponent < 9007199254740992 * (den * 2 ^ s))
    (hlower : s = 1 ∨ 4503599627370496 * (den * 2 ^ s) ≤ num * 2 ^ unitExponent) :
    scaleOf num den = s := by
  unfold scaleOf
  generalize num * 2 ^ unitExponent = n at *
  have hlog : Nat.log2 (n / den) < 53 + s := by
    by_cases hpos : n / den = 0
    · rw [hpos]
      exact Nat.lt_of_lt_of_le (by decide : Nat.log2 0 < 53) (Nat.le_add_right _ _)
    · rw [Nat.log2_lt hpos, Nat.div_lt_iff_lt_mul hden, Nat.pow_add, Nat.mul_assoc,
        Nat.mul_comm _ den]
      exact hupper
  rcases hlower with rfl | hlower
  · omega
  · have hle : 2 ^ (52 + s) ≤ n / den := by
      rw [Nat.le_div_iff_mul_le hden, Nat.pow_add, Nat.mul_assoc, Nat.mul_comm _ den]
      exact hlower
    have hpos : n / den ≠ 0 := by
      have := Nat.two_pow_pos (52 + s)
      omega
    have := (Nat.le_log2 hpos).mpr hle
    omega

/-- The rounded significand. -/
theorem rounded_bounds (num : Nat) (hden : 0 < den) :
    roundDiv (num * 2 ^ unitExponent) (den * 2 ^ scaleOf num den) ≤ 9007199254740992 ∧
    (scaleOf num den = 1 ∨
      4503599627370496 ≤ roundDiv (num * 2 ^ unitExponent) (den * 2 ^ scaleOf num den)) := by
  have hw : 0 < den * 2 ^ scaleOf num den := Nat.mul_pos hden (Nat.two_pow_pos _)
  have hupper := scaleOf_upper num hden
  have hlower := scaleOf_lower num hden
  generalize den * 2 ^ scaleOf num den = w at *
  generalize num * 2 ^ unitExponent = n at *
  obtain ⟨hbelow, habove⟩ := roundDiv_bounds (n := n) hw
  refine ⟨?_, hlower.imp_right fun h => ?_⟩
  · have hlt : roundDiv n w * w < 9007199254740993 * w := by omega
    exact Nat.le_of_lt_succ (Nat.lt_of_mul_lt_mul_right hlt)
  · have hlt : 4503599627370496 * w < (roundDiv n w + 1) * w := by
      rw [Nat.add_mul]
      omega
    exact Nat.le_of_lt_succ (Nat.lt_of_mul_lt_mul_right hlt)

/-- The same bits: the same scale and significand, or a carry. -/
theorem bits_cases {s m : Nat} (hs : 0 < s) (hm : m ≤ 9007199254740992)
    (hlow : s = 1 ∨ 4503599627370496 ≤ m) (d : Binary64)
    (h : (s - 1) * 4503599627370496 + m = (d.scale - 1) * 4503599627370496 + d.significand) :
    (s = d.scale ∧ m = d.significand) ∨
      (s + 1 = d.scale ∧ m = 9007199254740992 ∧ d.significand = 4503599627370496) := by
  have hscale := d.scale_pos
  obtain ⟨hsignificand, hsubnormal⟩ := d.significand_bounds
  omega

/-- A double that is the rounded one differs from the fraction by at most half of its last
place. -/
theorem near_of_nearestBits (hden : 0 < den) (d : Binary64)
    (h : nearestBits num den = (d.scale - 1) * 4503599627370496 + d.significand) :
    2 * (d.significand * (den * 2 ^ d.scale)) ≤ 2 * (num * 2 ^ unitExponent) + den * 2 ^ d.scale ∧
    2 * (num * 2 ^ unitExponent) ≤
      2 * (d.significand * (den * 2 ^ d.scale)) + den * 2 ^ d.scale := by
  have hw : 0 < den * 2 ^ scaleOf num den := Nat.mul_pos hden (Nat.two_pow_pos _)
  obtain ⟨hrounded, hlow⟩ := rounded_bounds num hden
  have hnear := roundDiv_bounds (n := num * 2 ^ unitExponent) hw
  have hpos : 0 < scaleOf num den := Nat.le_max_left _ _
  rcases bits_cases hpos hrounded hlow d h with ⟨hs, hm⟩ | ⟨hs, hm, hm'⟩
  · rw [hm, hs] at hnear
    exact hnear
  · rw [hm] at hnear
    rw [← hs, hm', Nat.pow_succ, ← Nat.mul_assoc den]
    generalize den * 2 ^ scaleOf num den = w at *
    omega

/-- And a double that differs from it by less is the rounded one, unless it is a power of two with
the fraction below it, where the places are only half as far apart. -/
theorem nearestBits_of_near (hden : 0 < den) (d : Binary64)
    (hbelow : 2 * (d.significand * (den * 2 ^ d.scale)) <
      2 * (num * 2 ^ unitExponent) + den * 2 ^ d.scale)
    (habove : 2 * (num * 2 ^ unitExponent) <
      2 * (d.significand * (den * 2 ^ d.scale)) + den * 2 ^ d.scale)
    (hpower : d.significand = 4503599627370496 →
      d.significand * (den * 2 ^ d.scale) ≤ num * 2 ^ unitExponent) :
    nearestBits num den = (d.scale - 1) * 4503599627370496 + d.significand := by
  obtain ⟨hsignificand, hsubnormal⟩ := d.significand_bounds
  have hscale : scaleOf num den = d.scale := by
    refine scaleOf_eq hden d.scale_pos ?_ (hsubnormal.imp_right fun hlow => ?_)
    · have hle : (d.significand + 1) * (den * 2 ^ d.scale) ≤
          9007199254740992 * (den * 2 ^ d.scale) := Nat.mul_le_mul_right _ hsignificand
      rw [Nat.add_mul] at hle
      omega
    · by_cases heq : d.significand = 4503599627370496
      · have hle := hpower heq
        rwa [heq] at hle
      · have hle : (4503599627370496 + 1) * (den * 2 ^ d.scale) ≤
            d.significand * (den * 2 ^ d.scale) := Nat.mul_le_mul_right _ (by omega)
        rw [Nat.add_mul] at hle
        omega
  rw [nearestBits, hscale, roundDiv_of_near hbelow habove]

/-- The double that is read is the one with these bits. -/
theorem ofFraction_iff {d : Binary64} (hd : d.exponent ≠ 2047) :
    ofFraction d.sign num den = some d ↔
      nearestBits num den = (d.scale - 1) * 4503599627370496 + d.significand := by
  have hexponent : d.exponent.val < 2047 := by
    have hlt := d.exponent.isLt
    have hne : d.exponent.val ≠ 2047 := fun h => hd (Fin.ext h)
    omega
  have hfraction := d.fraction.isLt
  rw [bits_eq]
  unfold ofFraction
  generalize nearestBits num den = bits
  obtain ⟨sign, exponent, fraction⟩ := d
  simp only at hexponent hfraction ⊢
  constructor
  · intro h
    split at h
    · simp only [Option.some.injEq, mk.injEq, true_and, Fin.ext_iff, Fin.ofNat] at h
      omega
    · cases h
  · intro h
    rw [if_pos (by omega), Option.some.injEq]
    simp only [mk.injEq, true_and, Fin.ext_iff, Fin.ofNat]
    omega

theorem ofFraction_some {sign : Bool} {r : Binary64} (h : ofFraction sign num den = some r) :
    nearestBits num den = (r.scale - 1) * 4503599627370496 + r.significand := by
  rw [bits_eq]
  unfold ofFraction at h
  generalize nearestBits num den = bits at *
  simp only at h
  split at h
  · cases h
    simp only [Fin.ofNat]
    omega
  · cases h

end Binary64

end Libpdk

import Mathlib.Data.Nat.Log
import Mathlib.Tactic.Ring

/-!
# Binary floating-point numbers

`float` and `double` as their sign, exponent and fraction, the conversions between
the two (to the nearest, ties to even; a NaN becomes a quiet one), and their bits.
A float that is no number apart, widening and narrowing gives the float back.
-/
namespace Libpdk

structure Binary32 where
  sign : Bool
  exponent : Fin 256
  fraction : Fin 8388608
  deriving DecidableEq

structure Binary64 where
  sign : Bool
  exponent : Fin 2048
  fraction : Fin 4503599627370496
  deriving DecidableEq

/-- The quotient by `2 ^ shift` rounded to the nearest, ties to even. -/
def roundShift (n shift : Nat) : Nat :=
  let quotient := n / 2 ^ shift
  let rest := n % 2 ^ shift
  let half := 2 ^ (shift - 1)
  if half < rest ∨ (rest = half ∧ quotient % 2 = 1) then quotient + 1 else quotient

theorem roundShift_mul (n shift : Nat) : roundShift (n * 2 ^ shift) shift = n := by
  have hhalf : 0 < 2 ^ (shift - 1) := Nat.two_pow_pos _
  simp only [roundShift, Nat.mul_mod_left, Nat.mul_div_cancel _ (Nat.two_pow_pos shift)]
  rw [if_neg (by omega)]

namespace Binary32

def IsNaN (f : Binary32) : Prop := f.exponent = 255 ∧ f.fraction ≠ 0

instance (f : Binary32) : Decidable f.IsNaN := inferInstanceAs (Decidable (_ ∧ _))

def toBits (f : Binary32) : Nat :=
  f.sign.toNat * 2147483648 + f.exponent.val * 8388608 + f.fraction.val

def ofBits (n : Nat) : Binary32 where
  sign := n / 2147483648 % 2 == 1
  exponent := Fin.ofNat 256 (n / 8388608)
  fraction := Fin.ofNat 8388608 n

theorem toBits_lt (f : Binary32) : f.toBits < 4294967296 := by
  obtain ⟨sign, exponent, fraction⟩ := f
  cases sign <;> simp only [toBits, Bool.toNat_false, Bool.toNat_true] <;> omega

@[simp] theorem ofBits_toBits (f : Binary32) : ofBits f.toBits = f := by
  obtain ⟨sign, exponent, fraction⟩ := f
  have hsign : sign.toNat ≤ 1 := Bool.toNat_le sign
  simp only [ofBits, toBits, Fin.ofNat, mk.injEq, Fin.ext_iff]
  refine ⟨?_, by omega, by omega⟩
  rw [show (sign.toNat * 2147483648 + exponent.val * 8388608 + fraction.val) / 2147483648 % 2 =
    sign.toNat from by omega]
  cases sign <;> rfl

end Binary32

namespace Binary64

instance neZeroExponent : NeZero 2048 := ⟨by decide⟩

instance neZeroFraction : NeZero 4503599627370496 := ⟨by decide⟩

def IsNaN (d : Binary64) : Prop := d.exponent = 2047 ∧ d.fraction ≠ 0

instance (d : Binary64) : Decidable d.IsNaN := inferInstanceAs (Decidable (_ ∧ _))

def toBits (d : Binary64) : Nat :=
  d.sign.toNat * 9223372036854775808 + d.exponent.val * 4503599627370496 + d.fraction.val

def ofBits (n : Nat) : Binary64 where
  sign := n / 9223372036854775808 % 2 == 1
  exponent := Fin.ofNat 2048 (n / 4503599627370496)
  fraction := Fin.ofNat 4503599627370496 n

theorem toBits_lt (d : Binary64) : d.toBits < 18446744073709551616 := by
  obtain ⟨sign, exponent, fraction⟩ := d
  cases sign <;> simp only [toBits, Bool.toNat_false, Bool.toNat_true] <;> omega

@[simp] theorem ofBits_toBits (d : Binary64) : ofBits d.toBits = d := by
  obtain ⟨sign, exponent, fraction⟩ := d
  have hsign : sign.toNat ≤ 1 := Bool.toNat_le sign
  simp only [ofBits, toBits, Fin.ofNat, mk.injEq, Fin.ext_iff]
  refine ⟨?_, by omega, by omega⟩
  rw [show (sign.toNat * 9223372036854775808 + exponent.val * 4503599627370496 + fraction.val) /
    9223372036854775808 % 2 = sign.toNat from by omega]
  cases sign <;> rfl

end Binary64

/-- `double(f)` -/
def Binary32.widen (f : Binary32) : Binary64 where
  sign := f.sign
  exponent :=
    if f.exponent = 255 then 2047
    else if f.exponent ≠ 0 then Fin.ofNat 2048 (f.exponent.val + 896)
    else if f.fraction = 0 then 0
    else Fin.ofNat 2048 (Nat.log2 f.fraction.val + 874)
  fraction := Fin.ofNat 4503599627370496 <|
    if f.exponent = 255 then
      if f.fraction = 0 then 0 else (f.fraction.val ||| 4194304) * 536870912
    else if f.exponent ≠ 0 ∨ f.fraction = 0 then f.fraction.val * 536870912
    else
      (f.fraction.val - 2 ^ Nat.log2 f.fraction.val) * 2 ^ (52 - Nat.log2 f.fraction.val)

/-- `float(d)`. The exponent and the fraction of a number come out of one rounding, which
may carry into the exponent; a subnormal double is too small for a float. -/
def Binary64.narrow (d : Binary64) : Binary32 :=
  if d.exponent = 2047 then
    ⟨d.sign, 255,
      if d.fraction = 0 then 0 else Fin.ofNat 8388608 (d.fraction.val / 536870912 ||| 4194304)⟩
  else if d.exponent = 0 then ⟨d.sign, 0, 0⟩
  else
    let significand := 4503599627370496 + d.fraction.val
    let bits :=
      if 897 ≤ d.exponent.val then
        (d.exponent.val - 897) * 8388608 + roundShift significand 29
      else roundShift significand (926 - d.exponent.val)
    if 2139095040 ≤ bits then ⟨d.sign, 255, 0⟩
    else ⟨d.sign, Fin.ofNat 256 (bits / 8388608), Fin.ofNat 8388608 bits⟩

theorem lor_quiet {n : Nat} (h : n < 8388608) :
    n ||| 4194304 < 8388608 ∧ n ||| 4194304 ≠ 0 := by
  constructor
  · exact Nat.or_lt_two_pow (n := 23) h (by decide)
  · intro h0
    have := Nat.right_le_or (m := 4194304) (n := n)
    omega

theorem Binary32.widen_isNaN {f : Binary32} (h : f.IsNaN) : f.widen.IsNaN := by
  obtain ⟨he, hf⟩ := h
  have hq := lor_quiet f.fraction.isLt
  simp only [Binary64.IsNaN, widen, he, hf, if_true, if_false, Fin.ofNat, true_and]
  intro h0
  have := congrArg Fin.val h0
  simp only [Fin.val_zero] at this
  omega

theorem Binary64.narrow_isNaN {d : Binary64} (h : d.IsNaN) : d.narrow.IsNaN := by
  obtain ⟨he, hf⟩ := h
  have hq := lor_quiet (n := d.fraction.val / 536870912) (by omega)
  simp only [Binary32.IsNaN, narrow, he, hf, if_true, if_false, Fin.ofNat, true_and]
  intro h0
  have := congrArg Fin.val h0
  simp only [Fin.val_zero] at this
  omega

/-- A double is narrowed to what the rounding of its significand says. -/
theorem Binary64.narrow_of_bits {d : Binary64} (exponent fraction : Nat)
    (h0 : d.exponent.val ≠ 0) (h2047 : d.exponent.val ≠ 2047) (he : exponent < 255)
    (hf : fraction < 8388608)
    (hbits : (if 897 ≤ d.exponent.val then
        (d.exponent.val - 897) * 8388608 + roundShift (4503599627370496 + d.fraction.val) 29
      else roundShift (4503599627370496 + d.fraction.val) (926 - d.exponent.val)) =
        exponent * 8388608 + fraction) :
    d.narrow = ⟨d.sign, Fin.ofNat 256 exponent, Fin.ofNat 8388608 fraction⟩ := by
  have h0' : d.exponent ≠ 0 := fun h => h0 (congrArg Fin.val h)
  have h2047' : d.exponent ≠ 2047 := fun h => h2047 (congrArg Fin.val h)
  simp only [narrow, if_neg h0', if_neg h2047', hbits]
  rw [if_neg (by omega)]
  simp only [Binary32.mk.injEq, Fin.ext_iff, Fin.ofNat, true_and]
  omega

theorem Binary32.narrow_widen_normal {f : Binary32} (h255 : f.exponent ≠ 255)
    (h0 : f.exponent ≠ 0) : f.widen.narrow = f := by
  obtain ⟨sign, exponent, fraction⟩ := f
  have hlt : exponent.val ≠ 255 := fun h => h255 (Fin.ext h)
  have hpos : exponent.val ≠ 0 := fun h => h0 (Fin.ext h)
  simp only at h255 h0
  have he : (widen ⟨sign, exponent, fraction⟩).exponent.val = exponent.val + 896 := by
    simp only [widen, h255, h0, if_false, ne_eq, not_false_eq_true, if_true, Fin.ofNat]
    omega
  have hf : (widen ⟨sign, exponent, fraction⟩).fraction.val = fraction.val * 536870912 := by
    simp only [widen, h255, h0, if_false, ne_eq, not_false_eq_true, true_or, if_true, Fin.ofNat]
    omega
  have hround : roundShift (4503599627370496 + fraction.val * 536870912) 29 =
      8388608 + fraction.val := by
    rw [show 4503599627370496 + fraction.val * 536870912 = (8388608 + fraction.val) * 2 ^ 29 from by
      omega, roundShift_mul]
  rw [Binary64.narrow_of_bits exponent.val fraction.val (by omega) (by omega) (by omega)
    fraction.isLt]
  · simp [widen]
  · rw [he, hf, if_pos (by omega), hround]
    omega

theorem Binary32.narrow_widen_subnormal {f : Binary32} (h0 : f.exponent = 0)
    (hf0 : f.fraction ≠ 0) : f.widen.narrow = f := by
  obtain ⟨sign, exponent, fraction⟩ := f
  simp only at h0 hf0
  subst h0
  have hpos : fraction.val ≠ 0 := fun h => hf0 (Fin.ext h)
  have hlog : 2 ^ Nat.log2 fraction.val ≤ fraction.val := Nat.log2_self_le hpos
  have hlog' : fraction.val < 2 ^ (Nat.log2 fraction.val + 1) := Nat.lt_log2_self
  have hlt : Nat.log2 fraction.val < 23 := (Nat.log2_lt hpos).mpr fraction.isLt
  have he : (widen ⟨sign, 0, fraction⟩).exponent.val = Nat.log2 fraction.val + 874 := by
    simp only [widen, hf0, Fin.ofNat, ne_eq, not_true_eq_false, if_false]
    rw [if_neg (by decide)]
    exact Nat.mod_eq_of_lt (by omega)
  generalize hk : Nat.log2 fraction.val = k at *
  have hpow : 2 ^ k * 2 ^ (52 - k) = 4503599627370496 := by
    rw [← Nat.pow_add, show k + (52 - k) = 52 from by omega]
  have hshifted : (fraction.val - 2 ^ k) * 2 ^ (52 - k) < 4503599627370496 := by
    rw [← hpow]
    refine Nat.mul_lt_mul_of_pos_right ?_ (Nat.two_pow_pos _)
    rw [Nat.pow_succ] at hlog'
    omega
  have hf : (widen ⟨sign, 0, fraction⟩).fraction.val =
      (fraction.val - 2 ^ k) * 2 ^ (52 - k) := by
    simp only [widen, hf0, Fin.ofNat, ne_eq, not_true_eq_false, or_self, if_false, hk]
    rw [if_neg (by decide), Nat.mod_eq_of_lt hshifted]
  have hsignificand : 4503599627370496 + (fraction.val - 2 ^ k) * 2 ^ (52 - k) =
      fraction.val * 2 ^ (52 - k) := by
    rw [← hpow, ← Nat.add_mul, Nat.add_sub_cancel' hlog]
  rw [Binary64.narrow_of_bits 0 fraction.val (by omega) (by omega) (by omega) fraction.isLt]
  · simp [widen]
  · rw [he, hf, if_neg (by omega), hsignificand, show 926 - (k + 874) = 52 - k from by omega,
      roundShift_mul, Nat.zero_mul, Nat.zero_add]

/-- A float that is a number survives the way through `double`. -/
theorem Binary32.narrow_widen {f : Binary32} (h : ¬ f.IsNaN) : f.widen.narrow = f := by
  by_cases h255 : f.exponent = 255
  · obtain ⟨sign, exponent, fraction⟩ := f
    have hf : fraction = 0 := by
      simpa [IsNaN, show exponent = 255 from h255] using h
    simp only at h255
    subst h255 hf
    cases sign <;> decide
  by_cases h0 : f.exponent = 0
  · by_cases hf0 : f.fraction = 0
    · obtain ⟨sign, exponent, fraction⟩ := f
      simp only at h0 hf0
      subst h0 hf0
      cases sign <;> decide
    · exact narrow_widen_subnormal h0 hf0
  · exact narrow_widen_normal h255 h0

end Libpdk

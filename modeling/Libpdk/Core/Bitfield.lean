import Mathlib.Data.Nat.Bitwise
import Mathlib.Tactic.Ring

/-!
# Fields of a word

A field of `width` bits at `pos` is written by a mask and a shift, and read either as a number
that is not negative or with its sign. What is read back is what was written modulo
`2 ^ width` (`load_assign`), or its balanced remainder (`loadSigned_toInt`), and other fields
keep theirs (`load_assign_of_disjoint`).
-/
namespace Libpdk.Bitfield

variable {w : Nat}

def mask (w pos width : Nat) : BitVec w := ((1#w <<< width) - 1#w) <<< pos

def assign (pos width : Nat) (i t : BitVec w) : BitVec w :=
  (i &&& ~~~mask w pos width) ||| ((t <<< pos) &&& mask w pos width)

def load (pos width : Nat) (i : BitVec w) : BitVec w := (i &&& mask w pos width) >>> pos

def loadSigned (pos width : Nat) (i : BitVec w) : BitVec w :=
  (i <<< (w - width - pos)).sshiftRight (w - width)

variable {pos width : Nat}

theorem ones_getLsbD {i : Nat} (hi : i < w) :
    ((1#w <<< width) - 1#w).getLsbD i = decide (i < width) := by
  have hones : (1#w <<< width) - 1#w = BitVec.ofNat w (2 ^ width - 1) := by
    have hpos := Nat.two_pow_pos width
    have hone : 1 < 2 ^ w := Nat.one_lt_two_pow (by omega)
    apply BitVec.eq_of_toNat_eq
    rw [BitVec.toNat_sub, BitVec.toNat_shiftLeft, BitVec.toNat_ofNat, BitVec.toNat_ofNat,
      Nat.mod_eq_of_lt hone, Nat.one_shiftLeft, Nat.add_mod_mod,
      show 2 ^ w - 1 + 2 ^ width = 2 ^ w + (2 ^ width - 1) by omega, Nat.add_mod_left]
  rw [hones, BitVec.getLsbD_ofNat, Nat.testBit_two_pow_sub_one]
  simp [hi]

theorem mask_getLsbD {i : Nat} (hi : i < w) :
    (mask w pos width).getLsbD i = decide (pos ≤ i ∧ i < pos + width) := by
  rw [mask, BitVec.getLsbD_shiftLeft]
  by_cases hpos : pos ≤ i
  · rw [ones_getLsbD (by omega)]
    have hiff : i - pos < width ↔ i < pos + width := by omega
    simp [hi, hpos, hiff, show ¬i < pos by omega]
  · simp [hpos, show i < pos by omega]

theorem load_getLsbD {x : BitVec w} {i : Nat} :
    (load pos width x).getLsbD i = (decide (i < width) && x.getLsbD (pos + i)) := by
  rw [load, BitVec.getLsbD_ushiftRight, BitVec.getLsbD_and]
  by_cases hi : pos + i < w
  · rw [mask_getLsbD hi]
    simp [Bool.and_comm]
  · rw [BitVec.getLsbD_of_ge x (pos + i) (by omega)]
    simp

theorem load_toNat {x : BitVec w} :
    (load pos width x).toNat = x.toNat / 2 ^ pos % 2 ^ width := by
  apply Nat.eq_of_testBit_eq
  intro i
  rw [Nat.testBit_mod_two_pow, Nat.testBit_div_two_pow, BitVec.testBit_toNat, load_getLsbD,
    BitVec.testBit_toNat, Nat.add_comm pos i]

/-- A field is what was assigned to it. -/
theorem load_assign {x t : BitVec w} (h : pos + width ≤ w) :
    (load pos width (assign pos width x t)).toNat = t.toNat % 2 ^ width := by
  apply Nat.eq_of_testBit_eq
  intro i
  rw [Nat.testBit_mod_two_pow, BitVec.testBit_toNat, BitVec.testBit_toNat, load_getLsbD, assign,
    BitVec.getLsbD_or, BitVec.getLsbD_and, BitVec.getLsbD_and, BitVec.getLsbD_not]
  by_cases hi : i < width
  · rw [mask_getLsbD (by omega), BitVec.getLsbD_shiftLeft]
    simp [hi, show pos + i < w by omega]
  · simp [hi]

/-- An assignment leaves the other fields as they are. -/
theorem load_assign_of_disjoint {x t : BitVec w} {pos' width' : Nat} (h : pos + width ≤ w)
    (hd : pos + width ≤ pos' ∨ pos' + width' ≤ pos) :
    load pos width (assign pos' width' x t) = load pos width x := by
  apply BitVec.eq_of_getLsbD_eq
  intro i _
  rw [load_getLsbD, load_getLsbD, assign, BitVec.getLsbD_or, BitVec.getLsbD_and,
    BitVec.getLsbD_and, BitVec.getLsbD_not]
  by_cases hi : i < width
  · rw [mask_getLsbD (by omega)]
    have hout : ¬(pos' ≤ pos + i ∧ pos + i < pos' + width') := by omega
    simp [hi, hout, show pos + i < w by omega]
  · simp [hi]

/-- A signed field is read with its sign. -/
theorem loadSigned_eq {x : BitVec w} (h : pos + width ≤ w) (hw : 0 < width) :
    loadSigned pos width x = ((x >>> pos).setWidth width).signExtend w := by
  apply BitVec.eq_of_getLsbD_eq
  intro i hi
  rw [loadSigned, BitVec.getLsbD_sshiftRight, BitVec.getLsbD_signExtend, BitVec.getLsbD_setWidth,
    BitVec.getLsbD_ushiftRight]
  by_cases hin : i < width
  · rw [if_pos (by omega), if_pos hin, BitVec.getLsbD_shiftLeft,
      show w - width + i - (w - width - pos) = pos + i by omega]
    simp [hi, hin, show w - width + i < w by omega, show ¬w - width + i < w - width - pos by omega]
  · -- the sign is the highest bit of the field
    rw [if_neg (by omega), if_neg hin, BitVec.msb_eq_getLsbD_last, BitVec.msb_eq_getLsbD_last,
      BitVec.getLsbD_shiftLeft, BitVec.getLsbD_setWidth, BitVec.getLsbD_ushiftRight,
      show w - 1 - (w - width - pos) = pos + (width - 1) by omega]
    simp [show w - 1 < w by omega, show ¬w - 1 < w - width - pos by omega,
      show width - 1 < width by omega, hi]

theorem loadSigned_toInt {x : BitVec w} (h : pos + width ≤ w) (hw : 0 < width) :
    (loadSigned pos width x).toInt = ((x.toNat / 2 ^ pos : Nat) : Int).bmod (2 ^ width) := by
  rw [loadSigned_eq h hw, BitVec.toInt_signExtend_of_le (by omega), BitVec.toInt_setWidth,
    BitVec.toNat_ushiftRight, Nat.shiftRight_eq_div_pow]

end Libpdk.Bitfield

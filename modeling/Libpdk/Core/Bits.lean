import Mathlib.Data.Nat.Bitwise
import Mathlib.Data.List.GetD
import Libpdk.Core.Mem

/-!
# Bits in bytes

Bit `i` of some bytes is bit `i % 8` of byte `i / 8`, the lowest one first. Behind the last
byte all bits are 0. Bytes are determined by their bits (`ext`), and `ones` counts the bits
of a number below a position, so that of a word it can be taken in pieces (`ones_add`).
-/
namespace Libpdk.Bits

def bitAt (bytes : Bytes) (i : Nat) : Bool := (bytes.getD (i / 8) 0).toNat.testBit (i % 8)

theorem bitAt_of_le {bytes : Bytes} {i : Nat} (h : 8 * bytes.length ≤ i) :
    bitAt bytes i = false := by
  rw [bitAt, List.getD_eq_default _ _ (by omega)]
  exact Nat.zero_testBit _

/-- Bits of one byte. -/
theorem testBit_byte (b : UInt8) {i : Nat} (h : 8 ≤ i) : b.toNat.testBit i = false :=
  Nat.testBit_lt_two_pow (Nat.lt_of_lt_of_le b.toNat_lt (Nat.pow_le_pow_right (by decide) h))

theorem byte_ext {b c : UInt8} (h : ∀ k < 8, b.toNat.testBit k = c.toNat.testBit k) : b = c := by
  apply UInt8.toNat_inj.mp
  apply Nat.eq_of_testBit_eq
  intro k
  by_cases hk : k < 8
  · exact h k hk
  · rw [testBit_byte b (by omega), testBit_byte c (by omega)]

/-- Bytes with the same bits are the same. -/
theorem ext {bytes bytes' : Bytes} (hlen : bytes.length = bytes'.length)
    (h : ∀ i < 8 * bytes.length, bitAt bytes i = bitAt bytes' i) : bytes = bytes' := by
  apply List.ext_getElem hlen
  intro j hj hj'
  apply byte_ext
  intro k hk
  have hbit := h (8 * j + k) (by omega)
  rw [bitAt, bitAt, show (8 * j + k) / 8 = j by omega, show (8 * j + k) % 8 = k by omega,
    List.getD_eq_getElem _ _ hj, List.getD_eq_getElem _ _ hj'] at hbit
  exact hbit

/-- One byte is replaced. -/
theorem bitAt_set {bytes : Bytes} {j : Nat} (hj : j < bytes.length) (b : UInt8) (i : Nat) :
    bitAt (bytes.set j b) i = if i / 8 = j then b.toNat.testBit (i % 8) else bitAt bytes i := by
  rw [bitAt, bitAt, List.getD_eq_getElem?_getD, List.getElem?_set, List.getD_eq_getElem?_getD]
  by_cases h : i / 8 = j
  · rw [if_pos h, if_pos h.symm, if_pos hj]
    rfl
  · rw [if_neg h, if_neg fun h' => h h'.symm]

/-- One bit is replaced. -/
theorem bitAt_set_bit (bytes : Bytes) {i : Nat} (hi : i / 8 < bytes.length) {b : UInt8} {v : Bool}
    (hb : ∀ k < 8, b.toNat.testBit k =
      if k = i % 8 then v else (bytes.getD (i / 8) 0).toNat.testBit k) (i' : Nat) :
    bitAt (bytes.set (i / 8) b) i' = if i' = i then v else bitAt bytes i' := by
  rw [bitAt_set hi]
  by_cases hbyte : i' / 8 = i / 8
  · rw [if_pos hbyte, hb _ (Nat.mod_lt _ (by decide)), bitAt, hbyte]
    by_cases hbit : i' % 8 = i % 8
    · rw [if_pos hbit, if_pos (by omega)]
    · rw [if_neg hbit, if_neg (by omega)]
  · rw [if_neg hbyte, if_neg (by omega)]

/-! ## Operations on bytes -/

theorem toNat_bit {k : Nat} (h : k < 8) : (UInt8.ofNat (1 <<< k)).toNat = 2 ^ k := by
  rw [UInt8.toNat_ofNat', Nat.one_shiftLeft]
  exact Nat.mod_eq_of_lt (Nat.pow_lt_pow_right (by decide) h)

theorem testBit_mask (b : UInt8) {n : Nat} (h : n < 8) (k : Nat) :
    (b &&& UInt8.ofNat ((1 <<< n) - 1)).toNat.testBit k = (b.toNat.testBit k && decide (k < n)) := by
  have hlt : 2 ^ n - 1 < 2 ^ 8 :=
    Nat.lt_of_le_of_lt (Nat.sub_le _ _) (Nat.pow_lt_pow_right (by decide) h)
  rw [UInt8.toNat_and, Nat.testBit_and, UInt8.toNat_ofNat', Nat.one_shiftLeft,
    Nat.mod_eq_of_lt hlt, Nat.testBit_two_pow_sub_one]

theorem testBit_not (b : UInt8) {k : Nat} (h : k < 8) :
    (~~~b).toNat.testBit k = !b.toNat.testBit k := by
  have hb := b.toNat_lt
  rw [UInt8.toNat_not, show UInt8.size - 1 - b.toNat = 2 ^ 8 - (b.toNat + 1) by
    simp only [UInt8.size]; omega, Nat.testBit_two_pow_sub_succ hb, decide_eq_true h, Bool.true_and]

theorem testBit_set (b : UInt8) {n k : Nat} (hn : n < 8) :
    (b ||| UInt8.ofNat (1 <<< n)).toNat.testBit k = if k = n then true else b.toNat.testBit k := by
  rw [UInt8.toNat_or, Nat.testBit_or, toNat_bit hn, Nat.testBit_two_pow]
  by_cases h : n = k
  · simp [h]
  · simp [h, Ne.symm h]

theorem testBit_clear (b : UInt8) {n k : Nat} (hn : n < 8) (hk : k < 8) :
    (b &&& ~~~UInt8.ofNat (1 <<< n)).toNat.testBit k =
      if k = n then false else b.toNat.testBit k := by
  rw [UInt8.toNat_and, Nat.testBit_and, testBit_not _ hk, toNat_bit hn, Nat.testBit_two_pow]
  by_cases h : n = k
  · simp [h]
  · simp [h, Ne.symm h]

theorem testBit_toggle (b : UInt8) {n k : Nat} (hn : n < 8) :
    (b ^^^ UInt8.ofNat (1 <<< n)).toNat.testBit k =
      if k = n then !b.toNat.testBit k else b.toNat.testBit k := by
  rw [UInt8.toNat_xor, Nat.testBit_xor, toNat_bit hn, Nat.testBit_two_pow]
  by_cases h : n = k
  · simp [h]
  · simp [h, Ne.symm h]

/-- Whether a bit is set. -/
theorem and_bit_ne_zero (b : UInt8) {n : Nat} (hn : n < 8) :
    ((b &&& UInt8.ofNat (1 <<< n)) != 0) = b.toNat.testBit n := by
  have hnat : (b &&& UInt8.ofNat (1 <<< n)).toNat = b.toNat &&& 2 ^ n := by
    rw [UInt8.toNat_and, toNat_bit hn]
  rw [Bool.eq_iff_iff, bne_iff_ne, ne_eq, ← UInt8.toNat_inj, hnat, Nat.and_two_pow]
  cases b.toNat.testBit n <;> simp

/-! ## Counting -/

/-- The number of bits of `n` that are set below position `w`. -/
def ones (w n : Nat) : Nat := (List.range w).countP n.testBit

theorem ones_add (w w' n : Nat) : ones (w + w') n = ones w n + ones w' (n >>> w) := by
  rw [ones, ones, ones, List.range_add, List.countP_append, List.countP_map]
  congr 2
  funext i
  rw [Function.comp_apply, Nat.testBit_shiftRight]

theorem ones_congr {w n n' : Nat} (h : ∀ k < w, n.testBit k = n'.testBit k) :
    ones w n = ones w n' :=
  List.countP_congr fun k hk => by rw [h k (List.mem_range.mp hk)]

theorem ones_mod (w n : Nat) : ones w (n % 2 ^ w) = ones w n :=
  ones_congr fun k hk => by rw [Nat.testBit_mod_two_pow, decide_eq_true hk, Bool.true_and]

/-- The number of bits that are set in some bytes. -/
def onesIn (bytes : Bytes) : Nat := (bytes.map fun b => ones 8 b.toNat).sum

theorem onesIn_append (bytes bytes' : Bytes) :
    onesIn (bytes ++ bytes') = onesIn bytes + onesIn bytes' := by
  rw [onesIn, List.map_append, List.sum_append]
  rfl

theorem onesIn_cons (b : UInt8) (bytes : Bytes) : onesIn (b :: bytes) = ones 8 b.toNat + onesIn bytes := by
  rw [onesIn, List.map_cons, List.sum_cons]
  rfl

/-- A word counts like its bytes. -/
theorem ones_ofLe : ∀ bytes : Bytes, ones (8 * bytes.length) (Mem.ofLe bytes) = onesIn bytes
  | [] => rfl
  | b :: bytes => by
    have hb := b.toNat_lt
    rw [List.length_cons, show 8 * (bytes.length + 1) = 8 + 8 * bytes.length by omega, ones_add,
      ← ones_mod, onesIn_cons, ← ones_ofLe bytes, Mem.ofLe, Nat.shiftRight_eq_div_pow]
    congr 1
    · rw [show (b.toNat + 256 * Mem.ofLe bytes) % 2 ^ 8 = b.toNat by omega]
    · rw [show (b.toNat + 256 * Mem.ofLe bytes) / 2 ^ 8 = Mem.ofLe bytes by omega]

/-- The bits that are set, by their positions. -/
theorem onesIn_eq : ∀ bytes : Bytes,
    onesIn bytes = (List.range (8 * bytes.length)).countP (bitAt bytes)
  | [] => rfl
  | b :: bytes => by
    have hlow : (List.range 8).countP (bitAt (b :: bytes)) = ones 8 b.toNat := by
      refine List.countP_congr fun k hk => ?_
      have hk := List.mem_range.mp hk
      rw [bitAt, show k / 8 = 0 by omega, Nat.mod_eq_of_lt hk]
      rfl
    have hhigh : bitAt (b :: bytes) ∘ (8 + ·) = bitAt bytes := by
      funext k
      rw [Function.comp_apply, bitAt, bitAt, show (8 + k) / 8 = k / 8 + 1 by omega,
        Nat.add_mod_left]
      rfl
    rw [onesIn_cons, onesIn_eq bytes, List.length_cons,
      show 8 * (bytes.length + 1) = 8 + 8 * bytes.length by omega, List.range_add,
      List.countP_append, List.countP_map, hlow, hhigh]

/-- Bits that are those of a list are counted like the list. -/
theorem countP_getD (p : Bool → Bool) : ∀ (l : List Bool),
    (List.range l.length).countP (fun i => p (l.getD i false)) = l.countP p
  | [] => rfl
  | v :: l => by
    rw [List.length_cons, Nat.add_comm, List.range_add, List.countP_append, List.countP_map,
      List.countP_cons, ← countP_getD p l, Nat.add_comm]
    congr 1
    · congr 1
      funext i
      rw [Function.comp_apply, Nat.add_comm]
      rfl
    · simp [List.countP_cons]

end Libpdk.Bits

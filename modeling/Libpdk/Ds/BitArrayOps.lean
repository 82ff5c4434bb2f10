import Libpdk.Ds.BitArray

/-!
# Counting bits and combining bit arrays

`count` reads words of eight, four, two bytes and one, up to the zero behind the bytes; the
operators work byte by byte. Both need that the padding is zero.
-/
namespace Libpdk.Ds.BitArray

section

open Bits

/-! ## Counting -/

theorem chunkCount_halves : ∀ hi lo : Fin 64, chunkCount (64 * hi + lo) = ones 6 lo + ones 6 hi := by
  decide +kernel

theorem chunkCount_small (hi lo : Fin 64) : chunkCount (64 * hi + lo) = ones 12 (64 * hi + lo) := by
  have hlo : (64 * hi.val + lo.val) % 2 ^ 6 = lo := by omega
  have hhi : (64 * hi.val + lo.val) / 2 ^ 6 = hi := by omega
  rw [chunkCount_halves, ones_add 6 6, ← ones_mod 6 (64 * hi + lo), Nat.shiftRight_eq_div_pow, hlo,
    hhi]

theorem chunkCount_eq (v : Nat) : chunkCount v = ones 12 v := by
  have hmod : v &&& 0xfff = v % 4096 := Nat.and_two_pow_sub_one_eq_mod v 12
  have hsmall := chunkCount_small ⟨v % 4096 / 64, by omega⟩ ⟨v % 64, by omega⟩
  simp only [show 64 * (v % 4096 / 64) + v % 64 = v % 4096 by omega] at hsmall
  have hself : v % 4096 &&& 0xfff = v % 4096 := by
    rw [show (0xfff : Nat) = 2 ^ 12 - 1 from rfl, Nat.and_two_pow_sub_one_eq_mod]
    omega
  rw [chunkCount, hself] at hsmall
  rw [chunkCount, hmod, hsmall]
  exact ones_mod 12 v

/-- The bits of all chunks. -/
theorem populationCount_eq (v : Nat) : ∀ chunks, populationCount chunks v = ones (12 * chunks) v
  | 0 => rfl
  | chunks + 1 => by
    have ih := populationCount_eq v chunks
    rw [populationCount] at ih ⊢
    rw [List.range_succ, List.map_append, List.sum_append, ih, List.map_singleton,
      List.sum_singleton, chunkCount_eq, Nat.mul_succ, ones_add]

theorem ones_zero (w : Nat) : ones w 0 = 0 := by
  rw [ones, List.countP_eq_zero]
  intro k _
  simp

/-- A word of `n` bytes, in as many chunks as it needs. -/
theorem populationCount_ofLe {bytes : Bytes} {chunks : Nat} (h : 8 * bytes.length ≤ 12 * chunks) :
    populationCount chunks (Mem.ofLe bytes) = onesIn bytes := by
  have hlt := Mem.ofLe_lt bytes
  have hpow : 256 ^ bytes.length = 2 ^ (8 * bytes.length) := by
    rw [Nat.pow_mul]
  obtain ⟨rest, hrest⟩ := Nat.exists_eq_add_of_le h
  rw [populationCount_eq, hrest, ones_add, ones_ofLe, Nat.shiftRight_eq_div_pow,
    Nat.div_eq_of_lt (by rw [← hpow]; exact hlt), ones_zero, Nat.add_zero]

/-- What has been counted up to a place: with what is still to be read, all of it. -/
def Counted (m : Bytes) (p : Nat × Nat) : Prop :=
  p.2 + onesIn ((m ++ [0]).drop p.1) = onesIn ((m ++ [0]).drop 1)

theorem onesIn_drop {m : Bytes} {i : Nat} (h : m.length ≤ i) :
    onesIn ((m ++ [0]).drop i) = 0 := by
  rw [List.drop_append, List.drop_eq_nil_of_le h, List.nil_append]
  cases i - m.length with
  | zero => rfl
  | succ n => simp [onesIn]

/-- One word is read: it may end with the zero behind the bytes. -/
theorem Counted.word {m : Bytes} {bits numBits : Nat} (h : Counted m (bits, numBits)) (n chunks : Nat)
    (hn : 8 * n ≤ 12 * chunks) (hin : bits + n ≤ m.length + 1) :
    ∃ v, Mem.le n (m ++ [0]) bits = some v ∧
      Counted m (bits + n, numBits + populationCount chunks v) := by
  have hlen : ((m ++ [0]).drop bits |>.take n).length = n := by
    rw [List.length_take, List.length_drop, List.length_append, List.length_singleton]
    omega
  refine ⟨Mem.ofLe (((m ++ [0]).drop bits).take n), ?_, ?_⟩
  · rw [Mem.le, Mem.peek, if_pos (by rw [List.length_append, List.length_singleton]; exact hin),
      Option.map_some]
  · unfold Counted at h ⊢
    rw [populationCount_ofLe (by rw [hlen]; exact hn), ← h]
    have hsplit := onesIn_append (((m ++ [0]).drop bits).take n) (((m ++ [0]).drop bits).drop n)
    rw [List.take_append_drop, List.drop_drop] at hsplit
    rw [hsplit]
    exact Nat.add_assoc _ _ _

theorem countLoop_spec {m : Bytes} : ∀ (rounds bits numBits : Nat), Counted m (bits, numBits) →
    m.length < bits + 7 + 8 * rounds → ∃ p, countLoop m rounds bits numBits = some p ∧
      Counted m p ∧ m.length < p.1 + 7
  | 0, bits, numBits, h, hr => ⟨_, rfl, h, hr⟩
  | rounds + 1, bits, numBits, h, hr => by
    rw [countLoop]
    by_cases hmore : bits + 7 ≤ m.length
    · obtain ⟨v, hv, h'⟩ := h.word 8 6 (by decide) (by omega)
      obtain ⟨p, hp, hc, hend⟩ := countLoop_spec rounds _ _ h' (by omega)
      refine ⟨p, ?_, hc, hend⟩
      rw [if_pos hmore, hv, Option.bind_eq_bind, Option.bind_some, hp]
    · rw [if_neg hmore]
      exact ⟨_, rfl, h, by omega⟩

theorem countWord_spec {m : Bytes} {p : Nat × Nat} (h : Counted m p) (test : Bool) (n chunks : Nat)
    (hn : 8 * n ≤ 12 * chunks) (ht : test = true → p.1 + n ≤ m.length + 1) :
    ∃ p', countWord m test n chunks p = some p' ∧ Counted m p' ∧
      p'.1 = if test then p.1 + n else p.1 := by
  cases test with
  | false => exact ⟨p, rfl, h, rfl⟩
  | true =>
    obtain ⟨v, hv, h'⟩ := h.word n chunks hn (ht rfl)
    refine ⟨_, ?_, h', rfl⟩
    rw [countWord, if_pos rfl, hv, Option.bind_eq_bind, Option.bind_some]

theorem getD_zero (m : Bytes) (j : Nat) : (m ++ [0]).getD j 0 = m.getD j 0 := by
  by_cases hj : j < m.length
  · rw [List.getD_append _ _ _ _ hj]
  · rw [List.getD_append_right _ _ _ _ (by omega), List.getD_eq_default m _ (by omega)]
    cases j - m.length with
    | zero => rfl
    | succ n => rfl

/-- The bits of the bytes are those of the sequence. -/
theorem onesIn_bits {m : Bytes} {l : List Bool} (h : Holds m l) :
    onesIn ((m ++ [0]).drop 1) = l.countP id := by
  have hbits (i : Nat) : bitAt ((m ++ [0]).drop 1) i = l.getD i false := by
    rw [← h.bits, bitAt, bitAt, show (8 + i) / 8 = 1 + i / 8 by omega, Nat.add_mod_left,
      List.getD_eq_getElem?_getD, List.getElem?_drop, ← List.getD_eq_getElem?_getD, getD_zero]
  have hlen : ((m ++ [0]).drop 1).length = m.length := by
    rw [List.length_drop, List.length_append, List.length_singleton]
    omega
  obtain ⟨rest, hrest⟩ : ∃ rest, 8 * m.length = l.length + rest := by
    refine Nat.exists_eq_add_of_le ?_
    have hle := h.length
    split at hle
    · next hnil =>
      rw [hnil]
      exact Nat.zero_le _
    · omega
  have hpadding : (List.range rest).countP
      (bitAt ((m ++ [0]).drop 1) ∘ fun x => l.length + x) = 0 := by
    refine List.countP_eq_zero.mpr fun k _ => ?_
    rw [Function.comp_apply, hbits, List.getD_eq_default _ _ (by omega)]
    exact Bool.false_ne_true
  rw [onesIn_eq, hlen, hrest, List.range_add, List.countP_append, List.countP_map,
    ← countP_getD id l, hpadding]
  exact List.countP_congr fun i _ => by rw [hbits]; rfl

theorem count_spec {m : Bytes} {l : List Bool} (h : Holds m l) (hl : l.length < limit) (on : Bool) :
    count m on = some (l.count on : Int) := by
  have hstart : Counted m (1, 0) := Nat.zero_add _
  obtain ⟨p₁, h₁, hc₁, hend⟩ := countLoop_spec m.length 1 0 hstart (by omega)
  obtain ⟨p₂, h₂, hc₂, hp₂⟩ := countWord_spec hc₁ (decide (p₁.1 + 3 ≤ m.length)) 4 3 (by decide)
    fun ht => by have := of_decide_eq_true ht; omega
  obtain ⟨p₃, h₃, hc₃, hp₃⟩ := countWord_spec hc₂ (decide (p₂.1 + 1 < m.length)) 2 2 (by decide)
    fun ht => by have := of_decide_eq_true ht; omega
  obtain ⟨p₄, h₄, hc₄, hp₄⟩ := countWord_spec hc₃ (decide (p₃.1 < m.length)) 1 1 (by decide)
    fun ht => by have := of_decide_eq_true ht; omega
  have hlast : m.length ≤ p₄.1 := by
    simp only [decide_eq_true_eq] at hp₂ hp₃ hp₄
    split at hp₂ <;> split at hp₃ <;> split at hp₄ <;> omega
  have htotal : p₄.2 = l.countP id := by
    have := hc₄
    rw [Counted, onesIn_drop hlast, onesIn_bits h] at this
    exact this
  rw [count, h₁]
  simp only [Option.bind_eq_bind, Option.bind_some, h₂, h₃, h₄]
  cases on with
  | true =>
    rw [if_pos rfl, htotal]
    congr 2
    exact List.countP_congr fun b _ => by cases b <;> rfl
  | false =>
    have hsum := List.length_eq_countP_add_countP id (l := l)
    have hfalse : l.countP (fun b => decide ¬id b = true) = l.count false :=
      List.countP_congr fun b _ => by cases b <;> rfl
    rw [hfalse] at hsum
    rw [if_neg Bool.false_ne_true, htotal, size_eq h hl]
    congr 1
    omega

/-! ## Operators -/

theorem combine_spec (op : UInt8 → UInt8 → UInt8) (other : Bytes) : ∀ (k : Nat) {m : Bytes} {i : Nat},
    i + k ≤ m.length → i + k ≤ other.length → ∃ m', combine op other k m i = some m' ∧
      m'.length = m.length ∧ ∀ j, m'.getD j 0 =
        if i ≤ j ∧ j < i + k then op (m.getD j 0) (other.getD j 0) else m.getD j 0
  | 0, m, i, _, _ => ⟨m, rfl, rfl, fun j => by rw [if_neg (by omega)]⟩
  | k + 1, m, i, hm, ho => by
    have hi : i < m.length := by omega
    obtain ⟨m', hloop, hlen, hget⟩ := combine_spec op other k
      (m := m.set i (op (m.getD i 0) (other.getD i 0))) (i := i + 1)
      (by rw [List.length_set]; omega) (by omega)
    rw [List.length_set] at hlen
    refine ⟨m', ?_, hlen, fun j => ?_⟩
    · rw [combine, get, if_pos (by omega), get, if_pos (by omega)]
      simp only [Option.bind_eq_bind, Option.bind_some]
      rw [put, if_pos hi, Option.bind_some, hloop]
    · rw [hget, getD_set hi]
      by_cases hj : j = i
      · rw [if_neg (by omega), if_pos hj, if_pos (by omega), hj]
      · rw [if_neg hj]
        by_cases hin : i + 1 ≤ j ∧ j < i + 1 + k
        · rw [if_pos hin, if_pos (by omega)]
        · rw [if_neg hin, if_neg (by omega)]

/-- The last zero may go behind the bytes. -/
theorem zeroLoop_spec : ∀ (k : Nat) {m : Bytes} {i : Nat}, i + k ≤ m.length + 1 →
    ∃ m', zeroLoop k m i = some m' ∧ m'.length = m.length ∧
      ∀ j, m'.getD j 0 = if i ≤ j ∧ j < i + k then 0 else m.getD j 0
  | 0, m, i, _ => ⟨m, rfl, rfl, fun j => by rw [if_neg (by omega)]⟩
  | k + 1, m, i, hm => by
    by_cases hi : i < m.length
    · obtain ⟨m', hloop, hlen, hget⟩ := zeroLoop_spec k (m := m.set i 0) (i := i + 1)
        (by rw [List.length_set]; omega)
      rw [List.length_set] at hlen
      refine ⟨m', ?_, hlen, fun j => ?_⟩
      · rw [zeroLoop, put, if_pos hi, Option.bind_eq_bind, Option.bind_some, hloop]
      · rw [hget, getD_set hi]
        by_cases hin : i + 1 ≤ j ∧ j < i + 1 + k
        · rw [if_pos hin, if_pos (by omega)]
        · rw [if_neg hin]
          by_cases hj : j = i
          · rw [if_pos hj, if_pos (by omega)]
          · rw [if_neg hj, if_neg (by omega)]
    · have hk : k = 0 := by omega
      subst hk
      refine ⟨m, ?_, rfl, fun j => ?_⟩
      · rw [zeroLoop, put, if_neg hi, if_pos ⟨by omega, rfl⟩]
        rfl
      · by_cases hj : i ≤ j ∧ j < i + (0 + 1)
        · rw [if_pos hj, List.getD_eq_default _ _ (by omega)]
        · rw [if_neg hj]

/-- Both sequences to the length of the longer one, bit by bit. -/
def combined (f : Bool → Bool → Bool) (l l' : List Bool) : List Bool :=
  List.zipWith f (resized l (max l.length l'.length)) (resized l' (max l.length l'.length))

@[simp] theorem length_combined (f : Bool → Bool → Bool) (l l' : List Bool) :
    (combined f l l').length = max l.length l'.length := by
  rw [combined, List.length_zipWith, length_resized, length_resized, Nat.min_self]

theorem getD_combined {f : Bool → Bool → Bool} (hf : f false false = false) (l l' : List Bool)
    (i : Nat) : (combined f l l').getD i false = f (l.getD i false) (l'.getD i false) := by
  by_cases hi : i < max l.length l'.length
  · have h := getD_resized l (max l.length l'.length) i
    have h' := getD_resized l' (max l.length l'.length) i
    rw [if_pos hi, List.getD_eq_getElem _ _ (by rw [length_resized]; exact hi)] at h h'
    rw [List.getD_eq_getElem _ _ (by rw [length_combined]; exact hi)]
    simp only [combined, List.getElem_zipWith, h, h']
  · rw [List.getD_eq_default _ _ (by rw [length_combined]; omega),
      List.getD_eq_default l _ (by omega), List.getD_eq_default l' _ (by omega), hf]

/-- An operation on bytes is one on their bits. -/
def Bitwise (op : UInt8 → UInt8 → UInt8) (f : Bool → Bool → Bool) : Prop :=
  ∀ (b c : UInt8) {k : Nat}, k < 8 →
    (op b c).toNat.testBit k = f (b.toNat.testBit k) (c.toNat.testBit k)

theorem bitwise_and : Bitwise (· &&& ·) (· && ·) := fun b c k _ => by
  rw [UInt8.toNat_and, Nat.testBit_and]

theorem bitwise_or : Bitwise (· ||| ·) (· || ·) := fun b c k _ => by
  rw [UInt8.toNat_or, Nat.testBit_or]

theorem bitwise_xor : Bitwise (· ^^^ ·) Bool.xor := fun b c k _ => by
  rw [UInt8.toNat_xor, Nat.testBit_xor]

/-- The first part of each operator: the new size, and the loop over the bytes of the other
operand. -/
theorem combine_bits {m o : Bytes} {l l' : List Bool} (h : Holds m l) (h' : Holds o l')
    (hl : l.length < limit) (hl' : l'.length < limit) (fresh : Nat → UInt8)
    {op : UInt8 → UInt8 → UInt8} {f : Bool → Bool → Bool} (hop : Bitwise op f) :
    ∃ m₁ m₂, resize fresh m (max (size m) (size o)) = some m₁ ∧
      combine op o (o.length - 1) m₁ 1 = some m₂ ∧ m₂.length = m₁.length ∧
      o.length ≤ m₁.length ∧ Holds m₁ (resized l (max l.length l'.length)) ∧
      m₂.getD 0 0 = m₁.getD 0 0 ∧ ∀ i, bitAt m₂ (8 + i) =
        if 1 + i / 8 < o.length then f (l.getD i false) (l'.getD i false) else l.getD i false := by
  rw [size_eq h hl, size_eq h' hl', show max (l.length : Int) l'.length =
    (max l.length l'.length : Nat) by omega]
  obtain ⟨m₁, hres, h₁⟩ := resize_spec h hl fresh (n := max l.length l'.length) (by omega)
  have hle : o.length ≤ m₁.length := by
    have ho := h'.length
    split at ho
    · omega
    · next hne =>
      have hpos := List.length_pos_iff.mpr hne
      rw [h₁.length_of_pos (by rw [length_resized]; omega), length_resized]
      omega
  have hbits₁ (i : Nat) : bitAt m₁ (8 + i) = l.getD i false := by
    rw [h₁.bits, getD_resized]
    by_cases hi : i < max l.length l'.length
    · rw [if_pos hi]
    · rw [if_neg hi, List.getD_eq_default l _ (by omega)]
  by_cases ho : o.length = 0
  · rw [ho]
    refine ⟨m₁, m₁, hres, rfl, rfl, Nat.zero_le _, h₁, rfl, fun i => ?_⟩
    rw [if_neg (by omega), hbits₁]
  · obtain ⟨m₂, hcomb, hlen, hget⟩ := combine_spec op o (o.length - 1) (m := m₁) (i := 1) (by omega)
      (by omega)
    refine ⟨m₁, m₂, hres, hcomb, hlen, hle, h₁, by rw [hget, if_neg (by omega)], fun i => ?_⟩
    by_cases hi : 1 + i / 8 < o.length
    · rw [if_pos hi, bitAt, hget, if_pos (by omega), hop _ _ (Nat.mod_lt _ (by decide)), ← hbits₁,
        ← h'.bits]
      rfl
    · rw [if_neg hi, bitAt, hget, if_neg (by omega), ← hbits₁]
      rfl

/-- Where the other operand has no byte its bits are false. -/
theorem Holds.beyond {o : Bytes} {l : List Bool} (h : Holds o l) {i : Nat} (hi : ¬1 + i / 8 < o.length) :
    l.getD i false = false := by
  rw [← h.bits]
  exact bitAt_of_le (by omega)

/-- From the bytes of the longer operand and the bits to the sequence. -/
theorem holds_combined {m m₁ : Bytes} {l l' : List Bool} {f : Bool → Bool → Bool}
    (hf : f false false = false) (h₁ : Holds m₁ (resized l (max l.length l'.length)))
    (hlen : m.length = m₁.length) (hfirst : m.getD 0 0 = m₁.getD 0 0)
    (hbits : ∀ i, bitAt m (8 + i) = f (l.getD i false) (l'.getD i false)) :
    Holds m (combined f l l') where
  length := by
    rw [hlen, h₁.length]
    simp only [← List.length_eq_zero_iff, length_resized, length_combined]
  first := by rw [hfirst, h₁.first, hlen, length_resized, length_combined]
  bits i := by rw [hbits, getD_combined hf]

theorem opAssign_spec {m o : Bytes} {l l' : List Bool} (h : Holds m l) (h' : Holds o l')
    (hl : l.length < limit) (hl' : l'.length < limit) (fresh : Nat → UInt8)
    {op : UInt8 → UInt8 → UInt8} {f : Bool → Bool → Bool} (hop : Bitwise op f)
    (hf : ∀ b, f b false = b) :
    ∃ m', opAssign op fresh m o = some m' ∧ Holds m' (combined f l l') := by
  obtain ⟨m₁, m₂, hres, hcomb, hlen, -, h₁, hfirst, hbits⟩ :=
    combine_bits h h' hl hl' fresh hop
  refine ⟨m₂, ?_, holds_combined (hf false) h₁ hlen hfirst fun i => ?_⟩
  · rw [opAssign, hres, Option.bind_eq_bind, Option.bind_some, hcomb]
  · rw [hbits]
    by_cases hi : 1 + i / 8 < o.length
    · rw [if_pos hi]
    · rw [if_neg hi, h'.beyond hi, hf]

theorem andAssign_spec {m o : Bytes} {l l' : List Bool} (h : Holds m l) (h' : Holds o l')
    (hl : l.length < limit) (hl' : l'.length < limit) (fresh : Nat → UInt8) :
    ∃ m', andAssign fresh m o = some m' ∧ Holds m' (combined (· && ·) l l') := by
  obtain ⟨m₁, m₂, hres, hcomb, hlen, hle, h₁, hfirst, hbits⟩ :=
    combine_bits h h' hl hl' fresh bitwise_and
  obtain ⟨m₃, hzero, hlen₃, hget⟩ := zeroLoop_spec (m₁.length - o.length)
    (m := m₂) (i := 1 + (o.length - 1)) (by omega)
  refine ⟨m₃, ?_, holds_combined rfl h₁ (hlen₃.trans hlen) ?_ fun i => ?_⟩
  · rw [andAssign, hres]
    simp only [Option.bind_eq_bind, Option.bind_some]
    rw [show ((o.length : Int) - 1).toNat = o.length - 1 by omega, hcomb, Option.bind_some,
      show ((m₁.length : Int) - 1 - ((o.length : Int) - 1)).toNat = m₁.length - o.length by omega,
      hzero]
  · rw [hget, if_neg (by omega), hfirst]
  · by_cases hi : 1 + i / 8 < o.length
    · have := hbits i
      rw [if_pos hi] at this
      rw [← this, bitAt, hget, if_neg (by omega)]
      rfl
    · rw [h'.beyond hi, Bool.and_false, bitAt, hget]
      by_cases hin : 1 + i / 8 < m₁.length
      · rw [if_pos (by omega)]
        exact Nat.zero_testBit _
      · rw [List.getD_eq_default m₂ _ (by omega), ite_self]
        exact Nat.zero_testBit _

theorem getD_not (l : List Bool) (i : Nat) :
    (l.map (!·)).getD i false = if i < l.length then !l.getD i false else false := by
  rw [List.getD_eq_getElem?_getD, List.getElem?_map]
  by_cases hi : i < l.length
  · rw [if_pos hi, List.getD_eq_getElem _ _ hi, List.getElem?_eq_getElem hi]
    rfl
  · rw [if_neg hi, List.getElem?_eq_none (by omega)]
    rfl

theorem complement_spec {m : Bytes} {l : List Bool} (h : Holds m l) (hl : l.length < limit)
    (fresh : Nat → UInt8) :
    ∃ m', complement fresh m = some m' ∧ Holds m' (l.map (!·)) := by
  by_cases hnil : l = []
  · subst hnil
    rw [h.eq_nil]
    exact ⟨[], rfl, holds_nil⟩
  have hpos := List.length_pos_iff.mpr hnil
  obtain ⟨r, hnew, hr⟩ := ofSize_spec fresh hl false
  have hmlen := h.length_of_pos hpos
  have hrlen := hr.length_of_pos (by rw [List.length_replicate]; exact hpos)
  rw [List.length_replicate] at hrlen
  obtain ⟨m₁, hcomb, hlen, hget⟩ := combine_spec (fun _ c => ~~~c) m (m.length - 1) (m := r) (i := 1)
    (by omega) (by omega)
  have hbits (i : Nat) (hi : i < 8 * ((l.length + 7) / 8)) :
      bitAt m₁ (8 + i) = !l.getD i false := by
    rw [bitAt, hget, if_pos (by omega), testBit_not _ (Nat.mod_lt _ (by decide)), ← h.bits]
    rfl
  have hfirst : (m₁.getD 0 0).toNat = 8 * m₁.length - l.length := by
    rw [hget, if_neg (by omega), hr.first, hlen, List.length_replicate]
  have hlen₁ : m₁.length = 1 + (l.length + 7) / 8 := hlen.trans hrlen
  rw [complement, size_eq h hl, hnew]
  simp only [Option.bind_eq_bind, Option.bind_some, hcomb, tmod_of_nat]
  by_cases hmod : l.length % 8 ≠ 0
  · obtain ⟨m₂, hmask, hlen₂, hfirst₂, hbits₂⟩ := mask_spec hlen₁ hmod
    refine ⟨m₂, ?_, holds_of_pos (by rw [List.length_map]; exact hpos)
      (by rw [List.length_map]; omega) ?_ fun i => ?_⟩
    · rw [if_pos (by omega), ← hmask]
      congr 1
      omega
    · rw [hfirst₂, hfirst, hlen₂, List.length_map]
    · rw [hbits₂, getD_not]
      by_cases hi : i < l.length
      · rw [if_pos hi, if_pos hi, hbits i (by omega)]
      · rw [if_neg hi, if_neg hi]
  · refine ⟨m₁, if_neg (by omega), holds_of_pos (by rw [List.length_map]; exact hpos)
      (by rw [List.length_map]; exact hlen₁) (by rw [hfirst, List.length_map]) fun i => ?_⟩
    rw [getD_not]
    by_cases hi : i < l.length
    · rw [if_pos hi, hbits i (by omega)]
    · rw [if_neg hi]
      exact bitAt_of_le (by omega)

end

/-!
## Runs of bit arrays

A store of bit arrays and the calls on them, beside a store of sequences of booleans. As long
as no array has `limit` bits or more, every call answers what the one on sequences answers,
and the arrays keep the bytes of their sequences (`refines_sequences`). An array of more bits
can be made, and cannot be made smaller again (`shrink_outside`).
-/

open Bits

inductive Answer where
  | done
  | bit (b : Bool)
  | number (n : Int)
  deriving DecidableEq

/-- The first argument is the array that is changed or asked, and `other` is an array too. -/
inductive Call where
  | new (a n : Nat) (value : Bool)
  | assign (a other : Nat)
  | resize (a n : Nat)
  | fill (a : Nat) (value : Bool) (first last : Nat)
  | setBit (a i : Nat)
  | clearBit (a i : Nat)
  | setBitTo (a i : Nat) (value : Bool)
  | toggleBit (a i : Nat)
  | andAssign (a other : Nat)
  | orAssign (a other : Nat)
  | xorAssign (a other : Nat)
  | complement (a other : Nat)
  | size (a : Nat)
  | testBit (a i : Nat)
  | count (a : Nat) (on : Bool)
  | equal (a other : Nat)

abbrev Store := Nat → Bytes

/-- The array `a` has new bytes, if there are any. -/
def store (s : Store) (a : Nat) (m : Option Bytes) : Option (Answer × Store) :=
  m.map fun m => (.done, Function.update s a m)

def perform (fresh : Nat → UInt8) (s : Store) : Call → Option (Answer × Store)
  | .new a n value => store s a (ofSize fresh n value)
  | .assign a other => store s a (some (s other))
  | .resize a n => store s a (resize fresh (s a) n)
  | .fill a value first last => store s a (fill (s a) value first last)
  | .setBit a i => store s a (setBit (s a) i)
  | .clearBit a i => store s a (clearBit (s a) i)
  | .setBitTo a i value => store s a (setBitTo (s a) i value)
  | .toggleBit a i => (toggleBit (s a) i).map fun (b, m) => (.bit b, Function.update s a m)
  | .andAssign a other => store s a (andAssign fresh (s a) (s other))
  | .orAssign a other => store s a (orAssign fresh (s a) (s other))
  | .xorAssign a other => store s a (xorAssign fresh (s a) (s other))
  | .complement a other => store s a (complement fresh (s other))
  | .size a => some (.number (size (s a)), s)
  | .testBit a i => (testBit (s a) i).map fun b => (.bit b, s)
  | .count a on => (count (s a) on).map fun n => (.number n, s)
  | .equal a other => some (.bit (equal (s a) (s other)), s)

/-- Each call with what it finds in new memory. -/
def run (s : Store) : List ((Nat → UInt8) × Call) → Option (List Answer × Store)
  | [] => some ([], s)
  | (fresh, call) :: calls => do
    let (answer, s) ← perform fresh s call
    let (answers, s) ← run s calls
    some (answer :: answers, s)

theorem run_none {fresh : Nat → UInt8} {s : Store} {call : Call}
    (calls : List ((Nat → UInt8) × Call)) (h : perform fresh s call = none) :
    run s ((fresh, call) :: calls) = none := by
  rw [run, h]
  rfl

/-! ## Sequences -/

abbrev Sequences := Nat → List Bool

/-- The same call on sequences. -/
def apply (q : Sequences) : Call → Answer × Sequences
  | .new a n value => (.done, Function.update q a (List.replicate n value))
  | .assign a other => (.done, Function.update q a (q other))
  | .resize a n => (.done, Function.update q a (resized (q a) n))
  | .fill a value first last => (.done, Function.update q a (filled (q a) value first last))
  | .setBit a i => (.done, Function.update q a ((q a).set i true))
  | .clearBit a i => (.done, Function.update q a ((q a).set i false))
  | .setBitTo a i value => (.done, Function.update q a ((q a).set i value))
  | .toggleBit a i =>
    (.bit ((q a).getD i false), Function.update q a ((q a).set i (!(q a).getD i false)))
  | .andAssign a other => (.done, Function.update q a (combined (· && ·) (q a) (q other)))
  | .orAssign a other => (.done, Function.update q a (combined (· || ·) (q a) (q other)))
  | .xorAssign a other => (.done, Function.update q a (combined Bool.xor (q a) (q other)))
  | .complement a other => (.done, Function.update q a ((q other).map (!·)))
  | .size a => (.number (q a).length, q)
  | .testBit a i => (.bit ((q a).getD i false), q)
  | .count a on => (.number ((q a).count on), q)
  | .equal a other => (.bit (q a == q other), q)

def applyAll (q : Sequences) : List Call → List Answer × Sequences
  | [] => ([], q)
  | call :: calls =>
    let (answer, q) := apply q call
    let (answers, q) := applyAll q calls
    (answer :: answers, q)

/-- What the code asserts of an index, and a range that is in the array or empty. A size is
an `int`. -/
def Call.Allowed (q : Sequences) : Call → Prop
  | .new _ n _ => n < 2147483648
  | .resize _ n => n < 2147483648
  | .fill a _ first last => last ≤ (q a).length ∨ last ≤ first
  | .setBit a i => i < (q a).length
  | .clearBit a i => i < (q a).length
  | .setBitTo a i _ => i < (q a).length
  | .toggleBit a i => i < (q a).length
  | .testBit a i => i < (q a).length
  | _ => True

def AllAllowed (q : Sequences) : List Call → Prop
  | [] => True
  | call :: calls => call.Allowed q ∧ AllAllowed (apply q call).2 calls

/-- No array is made that has `limit` bits or more. -/
def Call.Small : Call → Prop
  | .new _ n _ => n < limit
  | .resize _ n => n < limit
  | _ => True

/-- The bytes of every array are those of its sequence. -/
def Refines (s : Store) (q : Sequences) : Prop := ∀ a, Holds (s a) (q a)

/-- From empty arrays on, the calls answer what they answer on sequences, and every array ends
with the bytes of its sequence. -/
def Meets (calls : List ((Nat → UInt8) × Call)) : Prop :=
  AllAllowed (fun _ => []) (calls.map Prod.snd) →
    ∃ s, run (fun _ => []) calls = some ((applyAll (fun _ => []) (calls.map Prod.snd)).1, s) ∧
      Refines s (applyAll (fun _ => []) (calls.map Prod.snd)).2

/-! ## One call -/

/-- Stores that agree, with sequences that are not too long. -/
structure Agree (s : Store) (q : Sequences) : Prop where
  holds : Refines s q
  small : ∀ a, (q a).length < limit

variable {s : Store} {q : Sequences}

theorem agree_empty : Agree (fun _ => []) fun _ => [] :=
  ⟨fun _ => holds_nil, fun _ => by decide⟩

theorem Agree.update (h : Agree s q) (a : Nat) {m : Bytes} {l : List Bool} (hm : Holds m l)
    (hl : l.length < limit) : Agree (Function.update s a m) (Function.update q a l) := by
  constructor
  · intro b
    by_cases hb : b = a
    · subst hb
      rwa [Function.update_self, Function.update_self]
    · rw [Function.update_of_ne hb, Function.update_of_ne hb]
      exact h.holds b
  · intro b
    by_cases hb : b = a
    · subst hb
      rwa [Function.update_self]
    · rw [Function.update_of_ne hb]
      exact h.small b

/-- A call that gives an array other bytes. -/
theorem Agree.store (h : Agree s q) (a : Nat) {result : Option Bytes} {l : List Bool}
    (hr : ∃ m, result = some m ∧ Holds m l) (hl : l.length < limit) :
    ∃ s', BitArray.store s a result = some (.done, s') ∧ Agree s' (Function.update q a l) := by
  obtain ⟨m, rfl, hm⟩ := hr
  exact ⟨_, rfl, h.update a hm hl⟩

theorem fill_empty {m : Bytes} {l : List Bool} (h : Holds m l) {first last : Nat}
    (hle : last ≤ first) (v : Bool) :
    ∃ m', fill m v first last = some m' ∧ Holds m' (filled l v first last) := by
  refine ⟨m, ?_, by rwa [filled_none l v hle]⟩
  rw [fill, alignLoop, if_neg (by omega)]
  simp only [Option.bind_eq_bind, Option.bind_some]
  exact if_pos hle

theorem perform_spec (h : Agree s q) {call : Call} (hallowed : call.Allowed q) (hsmall : call.Small)
    (fresh : Nat → UInt8) : ∃ s', perform fresh s call = some ((apply q call).1, s') ∧
      Agree s' (apply q call).2 := by
  have hmax (a b : Nat) : max (q a).length (q b).length < limit :=
    max_lt (h.small a) (h.small b)
  cases call with
  | new a n value =>
    exact h.store a (ofSize_spec fresh hsmall value) (by rw [List.length_replicate]; exact hsmall)
  | assign a other => exact h.store a ⟨_, rfl, h.holds other⟩ (h.small other)
  | resize a n =>
    exact h.store a (resize_spec (h.holds a) (h.small a) fresh hsmall)
      (by rw [length_resized]; exact hsmall)
  | fill a value first last =>
    refine h.store a ?_ (by rw [length_filled]; exact h.small a)
    rcases hallowed with hin | hempty
    · exact fill_spec (h.holds a) hin value
    · exact fill_empty (h.holds a) hempty value
  | setBit a i =>
    exact h.store a (setBitTo_spec (h.holds a) hallowed true)
      (by rw [List.length_set]; exact h.small a)
  | clearBit a i =>
    exact h.store a (setBitTo_spec (h.holds a) hallowed false)
      (by rw [List.length_set]; exact h.small a)
  | setBitTo a i value =>
    exact h.store a (setBitTo_spec (h.holds a) hallowed value)
      (by rw [List.length_set]; exact h.small a)
  | toggleBit a i =>
    obtain ⟨m, htoggle, hm⟩ := toggleBit_spec (h.holds a) hallowed
    refine ⟨Function.update s a m, ?_, h.update a hm (by rw [List.length_set]; exact h.small a)⟩
    rw [perform, htoggle]
    rfl
  | andAssign a other =>
    exact h.store a (andAssign_spec (h.holds a) (h.holds other) (h.small a) (h.small other) fresh)
      (by rw [length_combined]; exact hmax a other)
  | orAssign a other =>
    exact h.store a (opAssign_spec (h.holds a) (h.holds other) (h.small a) (h.small other) fresh
      bitwise_or Bool.or_false) (by rw [length_combined]; exact hmax a other)
  | xorAssign a other =>
    exact h.store a (opAssign_spec (h.holds a) (h.holds other) (h.small a) (h.small other) fresh
      bitwise_xor Bool.xor_false) (by rw [length_combined]; exact hmax a other)
  | complement a other =>
    exact h.store a (complement_spec (h.holds other) (h.small other) fresh)
      (by rw [List.length_map]; exact h.small other)
  | size a =>
    refine ⟨s, ?_, h⟩
    rw [perform, size_eq (h.holds a) (h.small a)]
    rfl
  | testBit a i =>
    refine ⟨s, ?_, h⟩
    rw [perform, testBit_eq (h.holds a) hallowed]
    rfl
  | count a on =>
    refine ⟨s, ?_, h⟩
    rw [perform, count_spec (h.holds a) (h.small a)]
    rfl
  | equal a other =>
    refine ⟨s, ?_, h⟩
    rw [perform, equal_eq (h.holds a) (h.holds other)]
    rfl

/-! ## Runs -/

theorem run_spec : ∀ (calls : List ((Nat → UInt8) × Call)) {s : Store} {q : Sequences}, Agree s q →
    AllAllowed q (calls.map Prod.snd) → (∀ c ∈ calls, c.2.Small) →
    ∃ s', run s calls = some ((applyAll q (calls.map Prod.snd)).1, s') ∧
      Agree s' (applyAll q (calls.map Prod.snd)).2
  | [], s, q, h, _, _ => ⟨s, rfl, h⟩
  | (fresh, call) :: calls, s, q, h, hallowed, hsmall => by
    obtain ⟨hc, hcs⟩ := List.forall_mem_cons.mp hsmall
    obtain ⟨hfirst, hrest⟩ := hallowed
    obtain ⟨s₁, hperform, h₁⟩ := perform_spec h hfirst hc fresh
    obtain ⟨s₂, hrun, h₂⟩ := run_spec calls h₁ hrest hcs
    refine ⟨s₂, ?_, h₂⟩
    rw [run, hperform, Option.bind_eq_bind, Option.bind_some]
    simp only [hrun, Option.bind_eq_bind, Option.bind_some]
    rfl

/-- Runs that make no array of `limit` bits refine the runs of sequences. -/
theorem refines_sequences {calls : List ((Nat → UInt8) × Call)} (hsmall : ∀ c ∈ calls, c.2.Small) :
    Meets calls := by
  intro hallowed
  obtain ⟨s, hrun, h⟩ := run_spec calls agree_empty hallowed hsmall
  exact ⟨s, hrun, h.holds⟩

/-- Three arrays: one grows over the end of a byte, is filled, and is combined with another. -/
theorem refines_sequences_xor : Meets [(fun _ => 7, .new 0 5 true), (fun _ => 9, .resize 0 17),
    (fun _ => 7, .fill 0 true 3 15), (fun _ => 3, .new 1 3 true), (fun _ => 0, .xorAssign 0 1),
    (fun _ => 0, .complement 2 0), (fun _ => 0, .count 2 true)] :=
  refines_sequences (by simp [Call.Small, limit])

/-! ## An array that is too long -/

theorem length_memset {m m' : Bytes} {i : Nat} {b : UInt8} {n : Int}
    (h : memset m i b n = some m') : m'.length = m.length := by
  unfold memset at h
  split at h
  · cases h
  · next hin =>
    rw [← Option.some.inj h]
    simp only [List.length_append, List.length_take, List.length_replicate, List.length_drop]
    omega

theorem length_put {m m' : Bytes} {i : Nat} {b : UInt8} (h : put m i b = some m') :
    m'.length = m.length := by
  unfold put at h
  split at h
  · rw [← Option.some.inj h, List.length_set]
  · split at h
    · rw [← Option.some.inj h]
    · cases h

theorem length_mask {m m' : Bytes} {i : Nat} {k : Int} (h : mask m i k = some m') :
    m'.length = m.length := by
  unfold mask at h
  split at h
  · cases h
  · obtain ⟨b, -, hput⟩ := Option.bind_eq_some_iff.mp h
    exact length_put hput

/-- The bytes of a new array, whatever its size is. -/
theorem length_ofSize {fresh : Nat → UInt8} {n : Int} (hn : 0 < n) {v : Bool} {m : Bytes}
    (h : ofSize fresh n v = some m) : m.length = (byteSize n).toNat := by
  rw [ofSize, if_neg (by omega)] at h
  split at h
  · cases h
  · obtain ⟨m₁, hset, h⟩ := Option.bind_eq_some_iff.mp h
    obtain ⟨m₂, hput, h⟩ := Option.bind_eq_some_iff.mp h
    have hlen : m₂.length = (byteSize n).toNat := by
      rw [length_put hput, length_memset hset, List.length_map, List.length_range]
    split at h
    · rw [length_mask h, hlen]
    · rw [← Option.some.inj h, hlen]

/-- With `2 ^ 28` bytes, the number of bits is no `int`: the test for new bytes succeeds, and
their number is negative. -/
theorem resize_outside {m : Bytes} (hlen : m.length = 268435456) (fresh : Nat → UInt8) :
    resize fresh m 5 = none := by
  have hnew : (resizeBytes fresh m (byteSize 5)).length = 2 := by
    rw [resizeBytes, List.length_map, List.length_range]
    rfl
  have hdata : resizeData fresh m 5 = none := by
    unfold resizeData
    rw [hlen, if_pos (by decide), memset, hnew, if_pos (.inl (by decide))]
  rw [resize, if_neg (by decide), hdata]
  rfl

/-- `BitArray a(2147483640); a.resize(5);` -/
theorem shrink_outside :
    ¬Meets [(fun _ => 0, .new 0 2147483640 false), (fun _ => 0, .resize 0 5)] := by
  intro h
  obtain ⟨s, hrun, -⟩ := h ⟨by simp [Call.Allowed], by simp [Call.Allowed], trivial⟩
  rw [run] at hrun
  obtain ⟨⟨answer, s₁⟩, hnew, hrun⟩ := Option.bind_eq_some_iff.mp hrun
  rw [perform, store, Option.map_eq_some_iff] at hnew
  obtain ⟨m, hm, heq⟩ := hnew
  have hlen : m.length = 268435456 := length_ofSize (by decide) hm
  have hs : s₁ 0 = m := by
    rw [← (Prod.mk.inj heq).2, Function.update_self]
  have hperform : perform (fun _ => 0) s₁ (.resize 0 5) = none := by
    rw [perform, hs, store]
    exact congrArg _ (resize_outside hlen _)
  simp only [run_none _ hperform, Option.bind_eq_bind, Option.bind_none] at hrun
  cases hrun

end Libpdk.Ds.BitArray

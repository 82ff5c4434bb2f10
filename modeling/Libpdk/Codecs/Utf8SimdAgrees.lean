import Libpdk.Codecs.Utf8Simd
import Libpdk.Codecs.Utf8Exact
import Mathlib.Data.List.GetD

/-!
# The fast paths agree

Whatever the vector instructions, the conversions read the input only and their output is that of
one character after the other (`convertFromUnicode_all`, `convertToUnicode_all`); so it is the
same with all of them (`simd_agrees`).
-/
namespace Libpdk.Codecs.Utf8.Reading

open Character Unicode

/-! ## Masks -/

theorem movemask_getLsbD {lanes : List Bool} (h : lanes.length ≤ 32) (i : Nat) :
    (movemask lanes).getLsbD i = lanes.getD i false := by
  rw [movemask, BitVec.getLsbD_setWidth, BitVec.getLsbD_ofBoolListLE]
  by_cases hi : i < 32
  · simp [hi]
  · rw [List.getD_eq_default _ _ (by omega)]
    simp

theorem movemask_shift {lanes : List Bool} (h : lanes.length ≤ 32) (s : Nat) :
    movemask lanes >>> s = movemask (lanes.drop s) := by
  apply BitVec.eq_of_getLsbD_eq
  intro i hi
  rw [BitVec.getLsbD_ushiftRight, movemask_getLsbD h, movemask_getLsbD (by
    rw [List.length_drop]
    omega), List.getD_eq_getElem?_getD, List.getD_eq_getElem?_getD, List.getElem?_drop]

theorem movemask_zero_iff {lanes : List Bool} (h : lanes.length ≤ 32) :
    movemask lanes = 0 ↔ ∀ b ∈ lanes, b = false := by
  constructor
  · intro hz b hb
    obtain ⟨i, hi, rfl⟩ := List.getElem_of_mem hb
    have hbit := movemask_getLsbD h i
    rw [hz, List.getD_eq_getElem _ _ hi] at hbit
    simpa using hbit.symm
  · intro hall
    apply BitVec.eq_of_getLsbD_eq
    intro i hi
    rw [movemask_getLsbD h]
    by_cases hlt : i < lanes.length
    · rw [List.getD_eq_getElem _ _ hlt, hall _ (List.getElem_mem hlt)]
      simp
    · rw [List.getD_eq_default _ _ (by omega)]
      simp

theorem and_one_eq_zero_iff (n : BitVec 32) : n &&& 1 = 0 ↔ n.getLsbD 0 = false := by
  rw [show (1 : BitVec 32) = 1#32 from rfl, BitVec.and_one_eq_setWidth_ofBool_getLsbD]
  cases n.getLsbD 0 <;> decide

theorem xor_thirtyone : ∀ k < 32, k ^^^ 31 = 31 - k := by decide

/-- The highest bit is one of those that are set. -/
theorem bitScanReverse_lt {n : BitVec 32} (hne : n ≠ 0) {k : Nat}
    (h : ∀ i, k ≤ i → n.getLsbD i = false) : bitScanReverse n < k := by
  have hclz : n.clz.toNat < 32 := by
    have hlt := BitVec.clz_lt_iff_ne_zero.mpr hne
    exact hlt
  have hbit := BitVec.getLsbD_true_clz_of_ne_zero (by decide) hne
  rw [bitScanReverse, xor_thirtyone _ hclz]
  by_contra hge
  rw [h _ (by omega)] at hbit
  cases hbit

/-- The lanes of a block in which the first that is not set is at the number of trailing zeros. -/
theorem countTrailingZeroBits_spec {lanes : List Bool} (h : lanes.length = 16)
    {n : BitVec 16} (hn : n = (~~~ movemask lanes).setWidth 16) (hne : n ≠ 0) :
    countTrailingZeroBits n < 16 ∧ (∀ b ∈ lanes.take (countTrailingZeroBits n), b = true) ∧
      bitScanReverse (n.setWidth 32) < 16 := by
  have hbit (i : Nat) : n.getLsbD i = (decide (i < 16) && !lanes.getD i false) := by
    rw [hn, BitVec.getLsbD_setWidth, BitVec.getLsbD_not, movemask_getLsbD (by omega)]
    by_cases hi : i < 16
    · simp [hi, show i < 32 by omega]
    · simp [hi]
  have hset := BitVec.getLsbD_true_ctz_of_ne_zero hne
  have hlt : countTrailingZeroBits n < 16 := by
    rw [hbit, Bool.and_eq_true, decide_eq_true_eq] at hset
    exact hset.1
  refine ⟨hlt, fun b hb => ?_, bitScanReverse_lt ?_ fun i hi => ?_⟩
  · obtain ⟨i, hi, rfl⟩ := List.getElem_of_mem hb
    rw [List.length_take] at hi
    have hclear : n.getLsbD i = false := BitVec.getLsbD_false_of_lt_ctz (by
      show i < n.ctz.toNat
      have : countTrailingZeroBits n = n.ctz.toNat := rfl
      omega)
    rw [hbit, List.getD_eq_getElem _ _ (by omega)] at hclear
    rw [List.getElem_take]
    simpa [show i < 16 by omega] using hclear
  · intro hz
    apply hne
    apply BitVec.eq_of_getLsbD_eq
    intro i hi
    have := congrArg (·.getLsbD i) hz
    simpa [BitVec.getLsbD_setWidth, show i < 32 by omega] using this
  · rw [BitVec.getLsbD_setWidth, hbit]
    simp [show ¬i < 16 by omega]

theorem all_lanes {lanes : List Bool} (h : lanes.length = 16)
    (hz : (~~~ movemask lanes).setWidth 16 = 0) : ∀ b ∈ lanes, b = true := by
  intro b hb
  obtain ⟨i, hi, rfl⟩ := List.getElem_of_mem hb
  have hbit := congrArg (·.getLsbD i) hz
  simp only [BitVec.getLsbD_setWidth, BitVec.getLsbD_not, movemask_getLsbD (show lanes.length ≤ 32
    by omega), List.getD_eq_getElem _ _ hi] at hbit
  simpa [show i < 16 by omega, show i < 32 by omega] using hbit

/-! ## Blocks -/

/-- What a scan copied is plain, and the pointers are in the input. -/
structure Scanned {α β : Type} (plain : α → Bool) (copy : α → β) (input : List α)
    (c : Cursor β) (done : Bool) (c' : Cursor β) : Prop where
  front : ∃ k, c'.src = c.src + k ∧ (∀ x ∈ (input.drop c.src).take k, plain x = true) ∧
    c'.dst = c.dst ++ ((input.drop c.src).take k).map copy
  src : c'.src ≤ input.length
  nextAscii : c'.nextAscii ≤ input.length
  finished : done = true → c'.src = input.length

section

variable {α β : Type} {plain : α → Bool} {copy : α → β} {input : List α}

theorem Scanned.none {c : Cursor β} (hsrc : c.src ≤ input.length)
    (hnext : c.nextAscii ≤ input.length) :
    Scanned plain copy input c (decide (c.src = input.length)) c where
  front := ⟨0, by simp⟩
  src := hsrc
  nextAscii := hnext
  finished := fun h => by simpa using h

theorem Scanned.fallback {c : Cursor β} (hsrc : c.src ≤ input.length)
    (hnext : c.nextAscii ≤ input.length) : Scanned plain copy input c false c where
  front := ⟨0, by simp⟩
  src := hsrc
  nextAscii := hnext
  finished := fun h => nomatch h

theorem take_append_take (xs : List α) (i j k : Nat) :
    (xs.drop i).take j ++ (xs.drop (i + j)).take k = (xs.drop i).take (j + k) := by
  rw [List.take_add, List.drop_drop]

/-- A whole block is plain. -/
theorem Scanned.block {c c' : Cursor β} {done : Bool}
    (h : Scanned plain copy input
      { c with dst := c.dst ++ ((input.drop c.src).take 16).map copy, src := c.src + 16 } done c')
    (hblock : ∀ x ∈ (input.drop c.src).take 16, plain x = true) :
    Scanned plain copy input c done c' where
  front := by
    obtain ⟨k, hsrc, hplain, hdst⟩ := h.front
    have hcut := take_append_take input c.src 16 k
    refine ⟨16 + k, by rw [hsrc]; exact Nat.add_assoc _ _ _, fun x hx => ?_, ?_⟩
    · rw [← hcut] at hx
      rcases List.mem_append.mp hx with hx | hx
      · exact hblock x hx
      · exact hplain x hx
    · rw [hdst, ← hcut, List.map_append, List.append_assoc]
  src := h.src
  nextAscii := h.nextAscii
  finished := h.finished

/-- The front of a block is plain. -/
theorem Scanned.front_of {c : Cursor β} {k nextAscii : Nat} {copied : List β}
    (hplain : ∀ x ∈ (input.drop c.src).take k, plain x = true)
    (hcopied : copied = ((input.drop c.src).take k).map copy) (hsrc : c.src + k ≤ input.length)
    (hnext : nextAscii ≤ input.length) :
    Scanned plain copy input c false ⟨c.dst ++ copied, nextAscii, c.src + k⟩ where
  front := ⟨k, rfl, hplain, by rw [hcopied]⟩
  src := hsrc
  nextAscii := hnext
  finished := fun h => nomatch h

end

theorem loadu_of {α : Type} {input : List α} {src n : Nat} (h : src + n ≤ input.length) :
    loadu input src n = some ((input.drop src).take n) := if_pos h

theorem encodeBlocks_spec (input : Str) : ∀ (rounds : Nat) (c : Cursor UInt8),
    c.src ≤ input.length → c.nextAscii ≤ input.length → input.length - c.src < rounds →
    ∃ done c', encodeBlocks input rounds c = some (done, c') ∧
      Scanned asciiUnit UInt16.toUInt8 input c done c' ∧ (done = false → c'.src < input.length)
  | 0, _, _, _, h => absurd h (Nat.not_lt_zero _)
  | rounds + 1, c, hsrc, hnext, hrounds => by
    rw [encodeBlocks]
    by_cases hblock : c.src + 16 ≤ input.length
    · have hdata := take_append_take input c.src 8 8
      have hlen : ((input.drop c.src).take 16).length = 16 := by
        rw [List.length_take, List.length_drop]
        omega
      rw [if_pos hblock, loadu_of (by omega), loadu_of (by omega)]
      simp only [Option.bind_eq_bind, Option.bind_some, hdata]
      obtain ⟨block, hb⟩ : ∃ block, block = (input.drop c.src).take 16 := ⟨_, rfl⟩
      rw [← hb] at hlen ⊢
      obtain ⟨n, hn⟩ : ∃ n, n = (~~~ movemask (cmpgt (block.map packus))).setWidth 16 := ⟨_, rfl⟩
      have hlanes : (cmpgt (block.map packus)).length = 16 := by
        rw [cmpgt, List.length_map, List.length_map, hlen]
      -- where the lanes are set the units are ASCII
      have hunits (k : Nat) (hset : ∀ b ∈ (cmpgt (block.map packus)).take k, b = true) :
          (∀ u ∈ block.take k, asciiUnit u = true) ∧
            (block.map packus).take k = (block.take k).map UInt16.toUInt8 := by
        have hpos : ∀ u ∈ block.take k, positive (packus u) = true := by
          intro u hu
          apply hset
          rw [cmpgt, List.map_map, ← List.map_take]
          exact List.mem_map_of_mem hu
        refine ⟨fun u hu => ?_, ?_⟩
        · have h := packus_positive (hpos u hu)
          rw [asciiUnit, decide_eq_true_eq]
          exact ⟨h.1, h.2.1⟩
        · rw [← List.map_take]
          exact List.map_congr_left fun u hu => (packus_positive (hpos u hu)).2.2
      rw [← hn]
      by_cases hz : n ≠ 0
      · obtain ⟨hlt, hset, hscan⟩ := countTrailingZeroBits_spec hlanes hn hz
        obtain ⟨hplain, hcopied⟩ := hunits _ hset
        have htake : block.take (countTrailingZeroBits n) =
            (input.drop c.src).take (countTrailingZeroBits n) := by
          rw [hb, List.take_take, Nat.min_eq_left (by omega)]
        rw [htake] at hplain hcopied
        rw [if_pos hz]
        refine ⟨false, _, rfl, .front_of hplain hcopied (by omega) (by omega), fun _ => ?_⟩
        show c.src + countTrailingZeroBits n < input.length
        omega
      · rw [not_not] at hz
        have hall := all_lanes hlanes (hn.symm.trans hz)
        obtain ⟨hplain, hcopied⟩ := hunits 16 fun b hmem => hall b (List.mem_of_mem_take hmem)
        rw [List.take_of_length_le (by omega), hb] at hplain
        rw [List.take_of_length_le (by rw [List.length_map]; omega),
          List.take_of_length_le (by omega), hb] at hcopied
        rw [if_neg (by simpa using hz), hb, hcopied]
        obtain ⟨done, c', hrun, hscanned, hmore⟩ := encodeBlocks_spec input rounds
          { c with dst := c.dst ++ ((input.drop c.src).take 16).map UInt16.toUInt8,
                   src := c.src + 16 } hblock hnext (by
            show input.length - (c.src + 16) < rounds
            omega)
        exact ⟨done, c', hrun, hscanned.block hplain, hmore⟩
    · rw [if_neg hblock]
      refine ⟨_, _, rfl, .none hsrc hnext, fun hfalse => ?_⟩
      have : c.src ≠ input.length := by simpa using hfalse
      omega

/-! ## The blocks of the decoding -/

/-- The lanes of what is left of a block. -/
def highLanes (v : Vectors) (data : Bytes) : List Bool :=
  (extended v data).map fun b => decide (0x80 ≤ b.toNat)

theorem highLanes_cons (v : Vectors) (b : UInt8) (data : Bytes) :
    ∃ rest, highLanes v (b :: data) = decide (0x80 ≤ b.toNat) :: rest ∧
      (highLanes v (b :: data)).drop (bitSpacing v) = highLanes v data := by
  cases v with
  | fallback => exact ⟨_, rfl, rfl⟩
  | sse2 => exact ⟨_, rfl, rfl⟩
  | avx2 => exact ⟨_, rfl, rfl⟩

theorem highLanes_length (v : Vectors) (data : Bytes) :
    (highLanes v data).length = bitSpacing v * data.length := by
  rw [highLanes, List.length_map]
  cases v with
  | fallback => exact (Nat.one_mul _).symm
  | sse2 => exact (Nat.one_mul _).symm
  | avx2 =>
    induction data with
    | nil => rfl
    | cons b data ih =>
      show (extended .avx2 data).length + 2 = 2 * (data.length + 1)
      rw [ih]
      show 2 * data.length + 2 = _
      omega

theorem highLanes_false_iff (v : Vectors) (data : Bytes) :
    (∀ b ∈ highLanes v data, b = false) ↔ ∀ b ∈ data, ascii b = true := by
  have hiff : ∀ b : UInt8, decide (0x80 ≤ b.toNat) = false ↔ ascii b = true := by
    intro b
    rw [ascii, decide_eq_false_iff_not, decide_eq_true_eq, Nat.not_le]
  cases v with
  | fallback => simp only [highLanes, extended, List.forall_mem_map, hiff]
  | sse2 => simp only [highLanes, extended, List.forall_mem_map, hiff]
  | avx2 =>
    simp only [highLanes, extended, List.forall_mem_map, List.forall_mem_flatMap, hiff]
    constructor
    · exact fun h b hb => h b hb b List.mem_cons_self
    · intro h b hb x hx
      rcases List.mem_cons.mp hx with rfl | hx
      · exact h x hb
      · rw [List.mem_singleton.mp hx]
        rfl

theorem bitSpacing_cases (v : Vectors) : bitSpacing v = 1 ∨ bitSpacing v = 2 := by
  cases v <;> simp [bitSpacing]

theorem highLanes_le (v : Vectors) {data : Bytes} (h : data.length ≤ 16) :
    (highLanes v data).length ≤ 32 := by
  rw [highLanes_length]
  rcases bitSpacing_cases v with hs | hs <;> rw [hs] <;> omega

/-- No bit is set where all bytes are ASCII. -/
theorem mask_zero_iff (v : Vectors) {data : Bytes} (h : data.length ≤ 16) :
    movemask (highLanes v data) = 0 ↔ ∀ b ∈ data, ascii b = true := by
  rw [movemask_zero_iff (highLanes_le v h), highLanes_false_iff]

theorem copyFront_spec (v : Vectors) (input : Bytes) : ∀ (rounds : Nat) (data : Bytes)
    (c : Cursor UInt16), data.length ≤ 16 → data.length < rounds → data <+: input.drop c.src →
    movemask (highLanes v data) ≠ 0 →
    ∃ k n c', k < data.length ∧
      copyFront input (bitSpacing v) rounds (movemask (highLanes v data)) c = some (n, c') ∧
      c' = { c with dst := c.dst ++ (data.take k).map UInt8.toUInt16, src := c.src + k } ∧
      (∀ b ∈ data.take k, ascii b = true) ∧
      bitScanReverse n / bitSpacing v < data.length - k
  | 0, _, _, _, h, _, _ => absurd h (Nat.not_lt_zero _)
  | rounds + 1, [], _, _, _, _, hne => by
    exact absurd ((mask_zero_iff v (Nat.zero_le _)).mpr (List.forall_mem_nil _)) hne
  | rounds + 1, b :: data, c, hlen, hrounds, hdata, hne => by
    have hlanes := highLanes_le v hlen
    have hle : data.length ≤ 16 := by
      rw [List.length_cons] at hlen
      omega
    obtain ⟨rest, hcons, hdrop⟩ := highLanes_cons v b data
    have hbit : (movemask (highLanes v (b :: data))).getLsbD 0 = decide (0x80 ≤ b.toNat) := by
      rw [movemask_getLsbD hlanes, hcons]
      rfl
    obtain ⟨tail, htail⟩ := hdata
    have hread : input[c.src]? = some b := by
      have hhead : (input.drop c.src)[0]? = some b := by
        rw [← htail]
        rfl
      rwa [List.getElem?_drop, Nat.add_zero] at hhead
    rw [copyFront]
    by_cases hascii : b.toNat < 0x80
    · rw [if_pos ((and_one_eq_zero_iff _).mpr (by rw [hbit]; simpa using hascii)), hread,
        movemask_shift hlanes, hdrop]
      simp only [Option.bind_eq_bind, Option.bind_some]
      have hrest : data <+: input.drop (c.src + 1) := by
        refine ⟨tail, ?_⟩
        rw [← List.drop_drop, ← htail]
        rfl
      have hne' : movemask (highLanes v data) ≠ 0 := by
        intro hz
        apply hne
        rw [mask_zero_iff v hlen, List.forall_mem_cons]
        exact ⟨by simpa [ascii] using hascii, (mask_zero_iff v hle).mp hz⟩
      obtain ⟨k, n, c', hk, hrun, hc', hplain, hscan⟩ := copyFront_spec v input rounds data
        { c with dst := c.dst ++ [b.toUInt16], src := c.src + 1 }
        hle (by rw [List.length_cons] at hrounds; omega) hrest hne'
      refine ⟨k + 1, n, c', by rw [List.length_cons]; omega, hrun, ?_, ?_, ?_⟩
      · rw [hc', List.take_succ_cons, List.map_cons, List.append_assoc]
        show Cursor.mk _ _ (c.src + 1 + k) = Cursor.mk _ _ (c.src + (k + 1))
        rw [Nat.add_assoc, Nat.add_comm 1 k]
        rfl
      · intro x hx
        rw [List.take_succ_cons, List.mem_cons] at hx
        rcases hx with rfl | hx
        · simpa [ascii] using hascii
        · exact hplain x hx
      · rw [List.length_cons]
        omega
    · have hone : ¬(movemask (highLanes v (b :: data)) &&& 1 = 0) := by
        rw [and_one_eq_zero_iff, hbit]
        simpa using hascii
      rw [if_neg hone]
      refine ⟨0, _, c, by simp, rfl, by simp, fun x hx => by simp at hx, ?_⟩
      have hscan := bitScanReverse_lt hne (k := (highLanes v (b :: data)).length) fun i hi => by
        rw [movemask_getLsbD hlanes, List.getD_eq_default _ _ hi]
      rw [highLanes_length] at hscan
      rw [Nat.sub_zero]
      apply Nat.div_lt_of_lt_mul
      exact hscan

theorem widened_eq (v : Vectors) (data : Bytes) : widened v data = data.map UInt8.toUInt16 := by
  have hhalves : (data.take 8).map UInt8.toUInt16 ++ (data.drop 8).map UInt8.toUInt16 =
      data.map UInt8.toUInt16 := by
    rw [← List.map_append, List.take_append_drop]
  cases v with
  | fallback => exact hhalves
  | sse2 => exact hhalves
  | avx2 => rfl

theorem decodeBlocks_spec (v : Vectors) (input : Bytes) : ∀ (rounds : Nat) (c : Cursor UInt16),
    c.src ≤ input.length → c.nextAscii ≤ input.length → input.length - c.src < rounds →
    ∃ done c', decodeBlocks v input rounds c = some (done, c') ∧
      Scanned ascii UInt8.toUInt16 input c done c' ∧ (done = false → c'.src < input.length)
  | 0, _, _, _, h => absurd h (Nat.not_lt_zero _)
  | rounds + 1, c, hsrc, hnext, hrounds => by
    rw [decodeBlocks]
    by_cases hblock : c.src + 16 ≤ input.length
    · have hlen : ((input.drop c.src).take 16).length = 16 := by
        rw [List.length_take, List.length_drop]
        omega
      rw [if_pos hblock, loadu_of hblock]
      simp only [Option.bind_eq_bind, Option.bind_some]
      have hmask : movemask ((extended v ((input.drop c.src).take 16)).map fun b =>
          decide (0x80 ≤ b.toNat)) = movemask (highLanes v ((input.drop c.src).take 16)) := rfl
      rw [hmask]
      by_cases hz : movemask (highLanes v ((input.drop c.src).take 16)) = 0
      · have hplain := (mask_zero_iff v (by omega)).mp hz
        rw [if_pos hz, widened_eq]
        obtain ⟨done, c', hrun, hscanned, hmore⟩ := decodeBlocks_spec v input rounds
          { c with dst := c.dst ++ ((input.drop c.src).take 16).map UInt8.toUInt16,
                   src := c.src + 16 } hblock hnext (by
            show input.length - (c.src + 16) < rounds
            omega)
        exact ⟨done, c', hrun, hscanned.block hplain, hmore⟩
      · obtain ⟨k, n, c', hk, hrun, rfl, hplain, hscan⟩ := copyFront_spec v input 17
          ((input.drop c.src).take 16) c (by omega) (by omega) (List.take_prefix _ _) hz
        rw [List.take_take, Nat.min_eq_left (by omega)] at hplain
        rw [if_neg hz, hrun]
        refine ⟨false, _, rfl, .front_of hplain ?_ (by omega) ?_, fun _ => ?_⟩
        · rw [List.take_take, Nat.min_eq_left (by omega)]
        · show c.src + k + bitScanReverse n / bitSpacing v + 1 ≤ input.length
          omega
        · show c.src + k < input.length
          omega
    · rw [if_neg hblock]
      refine ⟨_, _, rfl, .none hsrc hnext, fun hfalse => ?_⟩
      have : c.src ≠ input.length := by simpa using hfalse
      omega

theorem simdEncodeAscii_spec (v : Vectors) (input : Str) {c : Cursor UInt8}
    (hsrc : c.src ≤ input.length) (hnext : c.nextAscii ≤ input.length) :
    ∃ done c', simdEncodeAscii v input c = some (done, c') ∧
      Scanned asciiUnit UInt16.toUInt8 input c done c' ∧
        (done = false → c.src < input.length → c'.src < input.length) := by
  have hblocks := encodeBlocks_spec input (input.length + 1) c hsrc hnext (by omega)
  obtain ⟨done, c', hrun, hscanned, hmore⟩ := hblocks
  cases v with
  | fallback => exact ⟨false, c, rfl, .fallback hsrc hnext, fun _ h => h⟩
  | sse2 => exact ⟨done, c', hrun, hscanned, fun h _ => hmore h⟩
  | avx2 => exact ⟨done, c', hrun, hscanned, fun h _ => hmore h⟩

theorem simdDecodeAscii_spec (v : Vectors) (input : Bytes) {c : Cursor UInt16}
    (hsrc : c.src ≤ input.length) (hnext : c.nextAscii ≤ input.length) :
    ∃ done c', simdDecodeAscii v input c = some (done, c') ∧
      Scanned ascii UInt8.toUInt16 input c done c' ∧
        (done = false → c.src < input.length → c'.src < input.length) := by
  have hblocks := decodeBlocks_spec v input (input.length + 1) c hsrc hnext (by omega)
  obtain ⟨done, c', hrun, hscanned, hmore⟩ := hblocks
  cases v with
  | fallback => exact ⟨false, c, rfl, .fallback hsrc hnext, fun _ h => h⟩
  | sse2 => exact ⟨done, c', hrun, hscanned, fun h _ => hmore h⟩
  | avx2 => exact ⟨done, c', hrun, hscanned, fun h _ => hmore h⟩

/-! ## One character -/

/-- What is read of one character is in the input, and is what the lists say. -/
structure Reads {α β : Type} (input : List α) (src : Nat) (read : List β × Nat)
    (next : List β × List α) : Prop where
  le : src ≤ read.2
  inside : read.2 ≤ input.length
  out : read.1 = next.1
  rest : input.drop read.2 = next.2

theorem Reads.stay {α β : Type} {input : List α} {src : Nat} (h : src ≤ input.length)
    (out : List β) : Reads input src (out, src) (out, input.drop src) :=
  ⟨Nat.le_refl _, h, rfl, rfl⟩

theorem getElem?_of_drop {α : Type} {input rest : List α} {src : Nat} {x : α}
    (h : input.drop src = x :: rest) : input[src]? = some x ∧ input.drop (src + 1) = rest ∧
      src + 1 ≤ input.length := by
  have hhead : (input.drop src)[0]? = some x := by
    rw [h]
    rfl
  rw [List.getElem?_drop, Nat.add_zero] at hhead
  obtain ⟨hlt, -⟩ := List.getElem?_eq_some_iff.mp hhead
  refine ⟨hhead, ?_, hlt⟩
  rw [← List.drop_drop, h]
  rfl

theorem toUtf8_spec (input : Str) (u : UInt16) {src : Nat} (hsrc : src ≤ input.length) :
    ∃ res, toUtf8 input u src = some res ∧
      Reads input src (res.replaced (byte '?') src) (encodeNext u (input.drop src)) := by
  rw [toUtf8, encodeNext, Utf8.toUtf8]
  by_cases h1 : u.toNat < 0x80
  · rw [if_pos h1, if_pos h1]
    exact ⟨_, rfl, .stay hsrc _⟩
  rw [if_neg h1, if_neg h1]
  by_cases h2 : u.toNat < 0x0800
  · rw [if_pos h2, if_pos h2]
    exact ⟨_, rfl, .stay hsrc _⟩
  rw [if_neg h2, if_neg h2]
  by_cases h3 : (!isSurrogate u.toNat) = true
  · rw [if_pos h3, if_pos h3]
    exact ⟨_, rfl, .stay hsrc _⟩
  rw [if_neg h3, if_neg h3, toUtf8Pair]
  have hlength : (input.drop src).length = input.length - src := List.length_drop
  cases hrest : input.drop src with
  | nil =>
    rw [hrest, List.length_nil] at hlength
    have hstay := Reads.stay hsrc [byte '?']
    rw [hrest] at hstay
    rw [if_pos hlength.symm]
    exact ⟨_, rfl, hstay⟩
  | cons low rest =>
    rw [hrest, List.length_cons] at hlength
    obtain ⟨hread, hdrop, hlt⟩ := getElem?_of_drop hrest
    rw [if_neg (by omega), hread, Utf8.toUtf8Pair]
    simp only [Option.bind_eq_bind, Option.bind_some]
    by_cases h4 : (!isHighSurrogate u.toNat) = true
    · rw [if_pos h4, if_pos h4, ← hrest]
      exact ⟨_, rfl, .stay hsrc _⟩
    rw [if_neg h4, if_neg h4]
    by_cases h5 : (!isLowSurrogate low.toNat) = true
    · rw [if_pos h5, if_pos h5, ← hrest]
      exact ⟨_, rfl, .stay hsrc _⟩
    rw [if_neg h5, if_neg h5]
    exact ⟨_, rfl, Nat.le_succ _, hlt, rfl, hdrop⟩

theorem continuations_eq (input : Bytes) : ∀ (n uc src : Nat), src + n ≤ input.length →
    continuations input n uc src = some (Utf8.continuations n uc (input.drop src))
  | 0, _, _, _ => by rw [continuations, Utf8.continuations]
  | n + 1, uc, src, h => by
    cases hrest : input.drop src with
    | nil =>
      have hlength := congrArg List.length hrest
      rw [List.length_drop, List.length_nil] at hlength
      omega
    | cons b rest =>
      obtain ⟨hread, hdrop, -⟩ := getElem?_of_drop hrest
      rw [continuations, hread, Utf8.continuations]
      simp only [Option.bind_eq_bind, Option.bind_some]
      by_cases hb : (!isContinuationByte b) = true
      · rw [if_pos hb, if_pos hb]
      · rw [if_neg hb, if_neg hb, continuations_eq input n _ (src + 1) (by omega), hdrop]

/-- Of unfinished bytes only those are read that are there. -/
theorem unfinished_spec (input : Bytes) : ∀ (n src : Nat),
    unfinished input n src = some .error ∨ unfinished input n src = some .endOfString
  | 0, _ => .inr rfl
  | n + 1, src => by
    rw [unfinished]
    by_cases hlt : input.length - src > 0
    · obtain ⟨b, hread⟩ : ∃ b, input[src]? = some b :=
        ⟨input.get ⟨src, by omega⟩, List.getElem?_eq_getElem _⟩
      rw [if_pos hlt, hread]
      simp only [Option.bind_eq_bind, Option.bind_some]
      split
      · exact .inl rfl
      · exact unfinished_spec input n (src + 1)
    · rw [if_neg hlt]
      exact .inr rfl

theorem fromLead_spec (input : Bytes) (charsNeeded minUc uc : Nat) {src : Nat}
    (hsrc : src ≤ input.length) : ∃ res, fromLead input charsNeeded minUc uc src = some res ∧
      Reads input src (res.replaced replacement src)
        (match Utf8.fromLead charsNeeded minUc uc (input.drop src) with
          | .done units charsNeeded => (units, (input.drop src).drop (charsNeeded - 1))
          | _ => ([replacement], input.drop src)) := by
  rw [fromLead, Utf8.fromLead, List.length_drop]
  by_cases hfew : input.length - src < charsNeeded - 1
  · have hstay := Reads.stay hsrc [replacement]
    rw [if_pos hfew, if_pos hfew]
    rcases unfinished_spec input 2 src with hres | hres
    · rw [hres]
      refine ⟨_, rfl, ?_⟩
      split <;> rename_i hd
      · split at hd <;> cases hd
      · exact hstay
    · rw [hres]
      refine ⟨_, rfl, ?_⟩
      split <;> rename_i hd
      · split at hd <;> cases hd
      · exact hstay
  · rw [if_neg hfew, if_neg hfew, continuations_eq input _ _ _ (by omega)]
    simp only [Option.bind_eq_bind, Option.bind_some]
    cases Utf8.continuations (charsNeeded - 1) uc (input.drop src) with
    | none => exact ⟨_, rfl, .stay hsrc _⟩
    | some uc =>
      refine ⟨_, rfl, ?_⟩
      have hdrop := List.drop_drop (i := charsNeeded - 1) (j := src) (l := input)
      rw [checked]
      by_cases h1 : uc < minUc
      · simp only [if_pos h1]
        exact .stay hsrc _
      by_cases h2 : (isSurrogate uc || decide (uc > lastValidCodePoint)) = true
      · simp only [if_neg h1, if_pos h2]
        exact .stay hsrc _
      by_cases h3 : (!requiresSurrogates uc) = true
      · simp only [if_neg h1, if_neg h2, if_pos h3]
        exact ⟨Nat.le_add_right _ _, by show src + (charsNeeded - 1) ≤ _; omega, rfl, hdrop.symm⟩
      · simp only [if_neg h1, if_neg h2, if_neg h3]
        exact ⟨Nat.le_add_right _ _, by show src + (charsNeeded - 1) ≤ _; omega, rfl, hdrop.symm⟩

theorem fromUtf8_spec (input : Bytes) (b : UInt8) {src : Nat} (hsrc : src ≤ input.length) :
    ∃ res, fromUtf8 input b src = some res ∧
      Reads input src (res.replaced replacement src) (decodeNext b (input.drop src)) := by
  rw [fromUtf8, decodeNext, Utf8.fromUtf8]
  by_cases h1 : b.toNat < 0x80
  · simp only [if_pos h1]
    exact ⟨_, rfl, .stay hsrc _⟩
  by_cases h2 : b.toNat ≤ 0xc1
  · simp only [if_neg h1, if_pos h2]
    exact ⟨_, rfl, .stay hsrc _⟩
  by_cases h3 : b.toNat < 0xe0
  · simp only [if_neg h1, if_neg h2, if_pos h3]
    exact fromLead_spec input 2 _ _ hsrc
  by_cases h4 : b.toNat < 0xf0
  · simp only [if_neg h1, if_neg h2, if_neg h3, if_pos h4]
    exact fromLead_spec input 3 _ _ hsrc
  by_cases h5 : b.toNat < 0xf5
  · simp only [if_neg h1, if_neg h2, if_neg h3, if_neg h4, if_pos h5]
    exact fromLead_spec input 4 _ _ hsrc
  · simp only [if_neg h1, if_neg h2, if_neg h3, if_neg h4, if_neg h5]
    exact ⟨_, rfl, .stay hsrc _⟩

/-! ## The conversions -/

/-- The characters up to the hint, where one is converted as the lists say. -/
theorem charactersUntil_spec {α β : Type} {input : List α}
    {convert : α → Nat → Option (Result β)} {replacement : β}
    {next : α → List α → List β × List α} {all : List α → List β}
    (hall : ∀ x rest, all (x :: rest) = (next x rest).1 ++ all (next x rest).2)
    (hconvert : ∀ x src, src ≤ input.length → ∃ res, convert x src = some res ∧
      Reads input src (res.replaced replacement src) (next x (input.drop src))) :
    ∀ (rounds : Nat) (c : Cursor β), c.src < input.length → c.nextAscii ≤ input.length →
      input.length - c.src < rounds →
      ∃ c', charactersUntil input convert replacement rounds c = some c' ∧ c.src < c'.src ∧
        c'.src ≤ input.length ∧
          c'.dst ++ all (input.drop c'.src) = c.dst ++ all (input.drop c.src)
  | 0, _, _, _, h => absurd h (Nat.not_lt_zero _)
  | rounds + 1, c, hsrc, hnext, hrounds => by
    obtain ⟨x, hread⟩ : ∃ x, input[c.src]? = some x :=
      ⟨input.get ⟨c.src, hsrc⟩, List.getElem?_eq_getElem _⟩
    obtain ⟨hlt, hget⟩ := List.getElem?_eq_some_iff.mp hread
    have hcons : input.drop c.src = x :: input.drop (c.src + 1) := by
      rw [List.drop_eq_getElem_cons hlt, hget]
    obtain ⟨res, hres, hle, hinside, hout, hrest⟩ := hconvert x (c.src + 1) hsrc
    have hone : (res.replaced replacement (c.src + 1)).1 ++
        all (input.drop (res.replaced replacement (c.src + 1)).2) = all (input.drop c.src) := by
      rw [hcons, hall, hout, hrest]
    rw [charactersUntil, hread]
    simp only [Option.bind_eq_bind, Option.bind_some, hres]
    generalize res.replaced replacement (c.src + 1) = read at hle hinside hone ⊢
    by_cases hmore : read.2 < c.nextAscii
    · rw [if_pos hmore]
      obtain ⟨c', hrun, hlt', hsrc', hdst⟩ := charactersUntil_spec hall hconvert rounds
        { c with dst := c.dst ++ read.1, src := read.2 } (by show read.2 < _; omega) hnext (by
          show input.length - read.2 < rounds
          omega)
      refine ⟨c', hrun, ?_, hsrc', ?_⟩
      · have : read.2 < c'.src := hlt'
        omega
      · rw [hdst, List.append_assoc, hone]
    · rw [if_neg hmore]
      refine ⟨_, rfl, ?_, hinside, ?_⟩
      · show c.src < read.2
        omega
      · rw [List.append_assoc, hone]

section

variable {α β : Type} {plain : α → Bool} {copy : α → β} {input : List α} {all : List α → List β}

/-- What a scan copied is what the characters are converted to. -/
theorem Scanned.converted (hplain : ∀ front : List α, (∀ x ∈ front, plain x = true) → ∀ rest,
      all (front ++ rest) = front.map copy ++ all rest) {c c' : Cursor β} {done : Bool}
    (h : Scanned plain copy input c done c') :
    c'.dst ++ all (input.drop c'.src) = c.dst ++ all (input.drop c.src) := by
  obtain ⟨k, hsrc, hfront, hdst⟩ := h.front
  have hsplit : input.drop c.src = (input.drop c.src).take k ++ input.drop c'.src := by
    rw [hsrc, ← List.drop_drop, List.take_append_drop]
  rw [hsplit, hplain _ hfront, hdst, List.append_assoc]

end

/-- The whole loop of the encoding. -/
theorem convertFromUnicodeLoop_all (v : Vectors) (input : Str) :
    ∀ (rounds : Nat) (c : Cursor UInt8), c.src ≤ input.length →
      input.length - c.src < rounds →
      convertFromUnicodeLoop v input rounds c = some (c.dst ++ encodeAll (input.drop c.src))
  | 0, _, _, h => absurd h (Nat.not_lt_zero _)
  | rounds + 1, c, hsrc, hrounds => by
    rw [convertFromUnicodeLoop]
    by_cases hend : c.src ≠ input.length
    · obtain ⟨done, c', hrun, hscanned, hmore⟩ := simdEncodeAscii_spec v input
        (c := { c with nextAscii := input.length }) hsrc (Nat.le_refl _)
      have hall := hscanned.converted fun front h rest => encodeAll_ascii h rest
      have hstart : c.src ≤ c'.src := by
        obtain ⟨k, hk, -⟩ := hscanned.front
        rw [hk]
        exact Nat.le_add_right _ _
      rw [if_pos hend, hrun]
      simp only [Option.bind_eq_bind, Option.bind_some]
      cases done with
      | true =>
        rw [hscanned.finished rfl, List.drop_length, encodeAll, List.append_nil] at hall
        rw [if_pos rfl, hall]
      | false =>
        have hlt : c'.src < input.length := hmore rfl (by show c.src < _; omega)
        obtain ⟨c'', hrun', hlt', hsrc', hdst⟩ := charactersUntil_spec encodeAll_cons
          (fun u src h => toUtf8_spec input u h) (input.length + 1) c' hlt hscanned.nextAscii
          (by omega)
        have hrest := convertFromUnicodeLoop_all v input rounds c'' hsrc' (by omega)
        rw [if_neg (by simp), encodeUntil, hrun']
        simp only [Option.bind_some]
        rw [hrest, hdst, hall]
    · have hend : c.src = input.length := by simpa using hend
      rw [if_neg (by simpa using hend), hend, List.drop_length, encodeAll, List.append_nil]

theorem convertFromUnicode_all (v : Vectors) (input : Str) :
    convertFromUnicode v input = some (encodeAll input) :=
  convertFromUnicodeLoop_all v input _ _ (Nat.zero_le _) (Nat.lt_succ_self _)

/-- The whole loop of the decoding. -/
theorem convertToUnicodeLoop_all (v : Vectors) (input : Bytes) :
    ∀ (rounds : Nat) (c : Cursor UInt16), c.src ≤ input.length →
      input.length - c.src < rounds →
      convertToUnicodeLoop v input rounds c = some (c.dst ++ decodeAll (input.drop c.src))
  | 0, _, _, h => absurd h (Nat.not_lt_zero _)
  | rounds + 1, c, hsrc, hrounds => by
    rw [convertToUnicodeLoop]
    by_cases hend : c.src < input.length
    · obtain ⟨done, c', hrun, hscanned, hmore⟩ := simdDecodeAscii_spec v input
        (c := { c with nextAscii := input.length }) hsrc (Nat.le_refl _)
      have hall := hscanned.converted fun front h rest => decodeAll_ascii h rest
      have hstart : c.src ≤ c'.src := by
        obtain ⟨k, hk, -⟩ := hscanned.front
        rw [hk]
        exact Nat.le_add_right _ _
      rw [if_pos hend, hrun]
      simp only [Option.bind_eq_bind, Option.bind_some]
      cases done with
      | true =>
        rw [hscanned.finished rfl, List.drop_length, decodeAll, List.append_nil] at hall
        rw [if_pos rfl, hall]
      | false =>
        have hlt : c'.src < input.length := hmore rfl hend
        obtain ⟨c'', hrun', hlt', hsrc', hdst⟩ := charactersUntil_spec decodeAll_cons
          (fun b src h => fromUtf8_spec input b h) (input.length + 1) c' hlt hscanned.nextAscii
          (by omega)
        have hrest := convertToUnicodeLoop_all v input rounds c'' hsrc' (by omega)
        rw [if_neg (by simp), decodeUntil, hrun']
        simp only [Option.bind_some]
        rw [hrest, hdst, hall]
    · have hend : c.src = input.length := by omega
      rw [if_neg (by omega), hend, List.drop_length, decodeAll, List.append_nil]

/-- Bytes that start with ASCII have no byte order mark. -/
theorem body_of_ascii {b : UInt8} (h : ascii b = true) (input : Bytes) :
    body (b :: input) = b :: input := by
  rw [body, if_neg]
  intro hbom
  rw [utf8bom, List.isPrefixOf_cons_cons, Bool.and_eq_true, beq_iff_eq] at hbom
  rw [← hbom.1] at h
  exact absurd h (by decide)

theorem skipBom_spec (input : Bytes) {src : Nat} (hsrc : src ≤ input.length) :
    ∃ src', skipBom input src = some src' ∧ src ≤ src' ∧ src' ≤ input.length ∧
      input.drop src' = if src = 0 then body input else input.drop src := by
  rw [skipBom]
  by_cases h : src = 0 ∧ 3 ≤ input.length - src
  · obtain ⟨rfl, hlen⟩ := h
    rw [if_pos ⟨rfl, hlen⟩, if_pos rfl, body]
    rcases input with _ | ⟨b0, _ | ⟨b1, _ | ⟨b2, rest⟩⟩⟩
    · simp at hlen
    · simp at hlen
    · simp at hlen
    · have hiff : utf8bom.isPrefixOf (b0 :: b1 :: b2 :: rest) = true ↔ [b0, b1, b2] = utf8bom := by
        simp only [utf8bom, List.isPrefixOf_cons_cons, List.isPrefixOf_nil_left, Bool.and_true,
          Bool.and_eq_true, beq_iff_eq, List.cons.injEq, and_true]
        exact and_congr eq_comm (and_congr eq_comm eq_comm)
      by_cases hbom : [b0, b1, b2] = utf8bom
      · rw [if_pos (hiff.mpr hbom)]
        refine ⟨3, ?_, by omega, by simp, rfl⟩
        simp [hbom]
      · rw [if_neg (mt hiff.mp hbom)]
        refine ⟨0, ?_, by omega, by omega, rfl⟩
        simp [hbom]
  · rw [if_neg h]
    refine ⟨src, rfl, Nat.le_refl _, hsrc, ?_⟩
    by_cases hz : src = 0
    · have hfew : input.length < 3 := by omega
      rw [if_pos hz, hz, body, if_neg]
      · rfl
      · intro hbom
        have hle := (List.isPrefixOf_iff_prefix.mp hbom).length_le
        have : utf8bom.length = 3 := rfl
        omega
    · rw [if_neg hz]

theorem convertToUnicode_all (v : Vectors) (input : Bytes) :
    convertToUnicode v input = some (decodeAll (body input)) := by
  obtain ⟨done, c', hrun, hscanned, hmore⟩ := simdDecodeAscii_spec v input
    (c := ⟨[], input.length, 0⟩) (Nat.zero_le _) (Nat.le_refl _)
  have hall := hscanned.converted fun front h rest => decodeAll_ascii h rest
  rw [List.nil_append, List.drop_zero] at hall
  -- a byte order mark is met only where nothing is copied
  have hbody : c'.src ≠ 0 → body input = input := by
    intro hne
    obtain ⟨k, hk, hplain, -⟩ := hscanned.front
    have hk : c'.src = k := by rw [hk, Nat.zero_add]
    cases input with
    | nil => rfl
    | cons b input =>
      cases k with
      | zero => exact absurd hk hne
      | succ k => exact body_of_ascii (hplain b (by simp)) input
  rw [convertToUnicode, hrun]
  simp only [Option.bind_eq_bind, Option.bind_some]
  cases done with
  | true =>
    have hsrc := hscanned.finished rfl
    rw [hsrc, List.drop_length, decodeAll, List.append_nil] at hall
    rw [if_pos rfl, hall]
    by_cases hz : c'.src = 0
    · rw [List.length_eq_zero_iff.mp (hsrc.symm.trans hz)]
      rfl
    · rw [hbody hz]
  | false =>
    obtain ⟨src, hskip, hle, hlt, hdrop⟩ := skipBom_spec input hscanned.src
    rw [if_neg (by simp), hskip]
    simp only [Option.bind_some]
    rw [convertToUnicodeLoop_all v input (input.length + 1) { c' with src := src } hlt (by omega)]
    show some (c'.dst ++ decodeAll (input.drop src)) = _
    rw [hdrop]
    by_cases hz : c'.src = 0
    · obtain ⟨k, hk, -, hdst⟩ := hscanned.front
      have hk : k = 0 := by
        rw [hk] at hz
        exact (Nat.zero_add k).symm.trans hz
      rw [if_pos hz, hdst, hk]
      rfl
    · rw [if_neg hz, hall, hbody hz]

/-- No conversion reads behind the end of its input, and none depends on the vector
instructions. -/
theorem simd_agrees (v : Vectors) :
    (∀ uc : Str, (convertFromUnicode v uc).isSome = true ∧
      convertFromUnicode v uc = convertFromUnicode .fallback uc) ∧
    (∀ chars : Bytes, (convertToUnicode v chars).isSome = true ∧
      convertToUnicode v chars = convertToUnicode .fallback chars) := by
  refine ⟨fun uc => ?_, fun chars => ?_⟩
  · rw [convertFromUnicode_all, convertFromUnicode_all]
    exact ⟨rfl, rfl⟩
  · rw [convertToUnicode_all, convertToUnicode_all]
    exact ⟨rfl, rfl⟩

end Libpdk.Codecs.Utf8.Reading

import Libpdk.Core.Bits

/-!
# Bit arrays

`BitArray` as functions on the bytes of its `m_data`. Behind the bytes is one that is zero,
which may be read, and to which a zero may be written; an access anywhere else is `none`. An
`int` wraps around. `fresh` is what is found in new memory: of the bytes that `resize` adds
only the first one is known, as it has been the zero behind the others.
-/
namespace Libpdk.Ds.BitArray

/-- What is left of a number in an `int`. -/
def wrap (n : Int) : Int := (n + 2147483648) % 4294967296 - 2147483648

def uchar (n : Int) : UInt8 := UInt8.ofNat (n % 256).toNat

/-! ## The bytes -/

def get (m : Bytes) (i : Nat) : Option UInt8 := if i ≤ m.length then some (m.getD i 0) else none

def put (m : Bytes) (i : Nat) (b : UInt8) : Option Bytes :=
  if i < m.length then some (m.set i b)
  else if i = m.length ∧ b = 0 then some m
  else none

/-- The number of bytes is converted to `size_t`, so a negative one is out of bounds. -/
def memset (m : Bytes) (i : Nat) (b : UInt8) (n : Int) : Option Bytes :=
  if n < 0 ∨ (m.length : Int) < i + n then none
  else some (m.take i ++ List.replicate n.toNat b ++ m.drop (i + n.toNat))

/-- mirrors ds/ByteArray.cpp:551-590 -/
def resizeBytes (fresh : Nat → UInt8) (m : Bytes) (size : Int) : Bytes :=
  (List.range size.toNat).map fun i =>
    m[i]?.getD (if i = m.length ∧ m ≠ [] then 0 else fresh i)

/-- `m[i] &= (1 << k) - 1`; a shift by a negative number is undefined. -/
def mask (m : Bytes) (i : Nat) (k : Int) : Option Bytes :=
  if k < 0 then none
  else do
    let b ← get m i
    put m i (b &&& UInt8.ofNat ((1 <<< k.toNat) - 1))

/-! ## Size -/

/-- The first byte is a `char`.
mirrors ds/BitArray.h:67-70 -/
def size (m : Bytes) : Int :=
  let first := (m.getD 0 0).toNat
  wrap (wrap (8 * m.length) - (if first < 128 then (first : Int) else first - 256))

/-- The bytes for so many bits: `1 + (size + 7) / 8`. -/
def byteSize (size : Int) : Int := 1 + (wrap (size + 7)).tdiv 8

/-- `BitArray(size, value)`; the memory of a `ByteArray` of a negative size is not its own.
mirrors ds/BitArray.cpp:38-51 -/
def ofSize (fresh : Nat → UInt8) (size : Int) (value : Bool) : Option Bytes :=
  if size ≤ 0 then some []
  else if byteSize size < 0 then none
  else do
    let m := (List.range (byteSize size).toNat).map fresh
    let m ← memset m 1 (if value then 0xff else 0) (m.length - 1)
    let m ← put m 0 (uchar (wrap (8 * m.length) - size))
    if value ∧ size.tmod 8 ≠ 0 then mask m (1 + size.tdiv 8).toNat (size.tmod 8) else some m

/-- The new bytes are cleared, or the padding in the last one. -/
def resizeData (fresh : Nat → UInt8) (m : Bytes) (size : Int) : Option Bytes :=
  let new := resizeBytes fresh m (byteSize size)
  if size > wrap (8 * m.length) then memset new m.length 0 (new.length - m.length)
  else if size.tmod 8 ≠ 0 then mask new (1 + size.tdiv 8).toNat (size.tmod 8)
  else some new

/-- mirrors ds/BitArray.cpp:98-114 -/
def resize (fresh : Nat → UInt8) (m : Bytes) (size : Int) : Option Bytes :=
  if size = 0 then some []
  else do
    let new ← resizeData fresh m size
    put new 0 (uchar (wrap (8 * new.length) - size))

/-! ## One bit -/

/-- mirrors ds/BitArray.h:156-160 -/
def testBit (m : Bytes) (i : Nat) : Option Bool := do
  let b ← get m (1 + i / 8)
  some ((b &&& UInt8.ofNat (1 <<< (i % 8))) != 0)

/-- mirrors ds/BitArray.h:162-166 -/
def setBit (m : Bytes) (i : Nat) : Option Bytes := do
  let b ← get m (1 + i / 8)
  put m (1 + i / 8) (b ||| UInt8.ofNat (1 <<< (i % 8)))

/-- mirrors ds/BitArray.h:168-172 -/
def clearBit (m : Bytes) (i : Nat) : Option Bytes := do
  let b ← get m (1 + i / 8)
  put m (1 + i / 8) (b &&& ~~~UInt8.ofNat (1 <<< (i % 8)))

/-- mirrors ds/BitArray.h:174-181 -/
def setBitTo (m : Bytes) (i : Nat) (value : Bool) : Option Bytes :=
  if value then setBit m i else clearBit m i

/-- mirrors ds/BitArray.h:183-191 -/
def toggleBit (m : Bytes) (i : Nat) : Option (Bool × Bytes) := do
  let p ← get m (1 + i / 8)
  let b := UInt8.ofNat (1 <<< (i % 8))
  let m ← put m (1 + i / 8) (p ^^^ b)
  some ((p &&& b) != 0, m)

/-! ## Many bits -/

/-- The loop up to a whole byte; less than eight rounds. -/
def alignLoop (value : Bool) (last : Nat) : Nat → Bytes → Nat → Option (Bytes × Nat)
  | 0, m, first => some (m, first)
  | rounds + 1, m, first =>
    if first < last ∧ first % 8 ≠ 0 then do
      let m ← setBitTo m first value
      alignLoop value last rounds m (first + 1)
    else some (m, first)

/-- The loop behind the last whole byte; less than eight rounds. -/
def fillLoop (value : Bool) (last : Nat) : Nat → Bytes → Nat → Option Bytes
  | 0, m, _ => some m
  | rounds + 1, m, first =>
    if first < last then do
      let m ← setBitTo m first value
      fillLoop value last rounds m (first + 1)
    else some m

/-- mirrors ds/BitArray.cpp:53-69 -/
def fill (m : Bytes) (value : Bool) (first last : Nat) : Option Bytes := do
  let (m, first) ← alignLoop value last 8 m first
  if last ≤ first then some m
  else
    let actualSize := (last - first) / 8 * 8
    let m ← memset m (1 + first / 8) (if value then 0xff else 0) (actualSize / 8 : Nat)
    fillLoop value last 8 m (first + actualSize)

/-- The bits in twelve bits of a word. -/
def chunkCount (v : Nat) : Nat := ((v &&& 0xfff) * 0x1001001001001 &&& 0x84210842108421) % 0x1f

/-- One, two, three or six chunks for the four unsigned types.
mirrors kernel/Algorithms.h:179-226 -/
def populationCount (chunks v : Nat) : Nat :=
  ((List.range chunks).map fun k => chunkCount (v >>> (12 * k))).sum

/-- The words of eight bytes. -/
def countLoop (m : Bytes) : Nat → Nat → Nat → Option (Nat × Nat)
  | 0, bits, numBits => some (bits, numBits)
  | rounds + 1, bits, numBits =>
    if bits + 7 ≤ m.length then do
      let v ← Mem.le 8 (m ++ [0]) bits
      countLoop m rounds (bits + 8) (numBits + populationCount 6 v)
    else some (bits, numBits)

/-- A word of `n` bytes, where the test is met. -/
def countWord (m : Bytes) (test : Bool) (n chunks : Nat) (at_ : Nat × Nat) :
    Option (Nat × Nat) :=
  if test then do
    let v ← Mem.le n (m ++ [0]) at_.1
    some (at_.1 + n, at_.2 + populationCount chunks v)
  else some at_

/-- mirrors ds/BitArray.cpp:71-96 -/
def count (m : Bytes) (on : Bool) : Option Int := do
  let at_ ← countLoop m m.length 1 0
  let at_ ← countWord m (at_.1 + 3 ≤ m.length) 4 3 at_
  let at_ ← countWord m (at_.1 + 1 < m.length) 2 2 at_
  let at_ ← countWord m (at_.1 < m.length) 1 1 at_
  some (if on then at_.2 else size m - at_.2)

/-! ## Operators -/

/-- The loop over the bytes of both operands, from byte `i` on. -/
def combine (op : UInt8 → UInt8 → UInt8) (other : Bytes) : Nat → Bytes → Nat → Option Bytes
  | 0, m, _ => some m
  | rounds + 1, m, i => do
    let b ← get m i
    let c ← get other i
    let m ← put m i (op b c)
    combine op other rounds m (i + 1)

/-- `*data1++ = 0` -/
def zeroLoop : Nat → Bytes → Nat → Option Bytes
  | 0, m, _ => some m
  | rounds + 1, m, i => do
    let m ← put m i 0
    zeroLoop rounds m (i + 1)

/-- mirrors ds/BitArray.cpp:116-131 -/
def andAssign (fresh : Nat → UInt8) (m other : Bytes) : Option Bytes := do
  let m ← resize fresh m (max (size m) (size other))
  let otherDataSize : Int := other.length - 1
  let diff : Int := m.length - 1 - otherDataSize
  let m ← combine (· &&& ·) other otherDataSize.toNat m 1
  zeroLoop diff.toNat m (1 + otherDataSize.toNat)

/-- `operator|=` and `operator^=`.
mirrors ds/BitArray.cpp:133-155 -/
def opAssign (op : UInt8 → UInt8 → UInt8) (fresh : Nat → UInt8) (m other : Bytes) :
    Option Bytes := do
  let m ← resize fresh m (max (size m) (size other))
  combine op other (other.length - 1) m 1

def orAssign : (Nat → UInt8) → Bytes → Bytes → Option Bytes := opAssign (· ||| ·)

def xorAssign : (Nat → UInt8) → Bytes → Bytes → Option Bytes := opAssign (· ^^^ ·)

/-- mirrors ds/BitArray.cpp:157-170 -/
def complement (fresh : Nat → UInt8) (m : Bytes) : Option Bytes := do
  let sz := size m
  let result ← ofSize fresh sz false
  let result ← combine (fun _ c => ~~~c) m (m.length - 1) result 1
  if sz ≠ 0 ∧ sz.tmod 8 ≠ 0 then mask result (m.length - 1) (sz.tmod 8) else some result

/-- mirrors ds/BitArray.h:116-119 -/
def equal (m m' : Bytes) : Bool := m == m'

/-!
## Bit arrays as sequences

`Holds m l`: the bytes of a bit array are those of the sequence `l`, with the length as it is
kept in the first byte and with zeros for padding. Every function of `BitArray` is a function
on sequences, as long as these are shorter than `limit`: with `limit` bits, eight times the
number of bytes is no `int`.
-/

open Bits

/-- The sequences whose size in bytes can be multiplied by eight. -/
def limit : Nat := 2147483633

/-- The bytes of a bit array with these bits. -/
structure Holds (m : Bytes) (l : List Bool) : Prop where
  length : m.length = if l = [] then 0 else 1 + (l.length + 7) / 8
  first : (m.getD 0 0).toNat = 8 * m.length - l.length
  bits : ∀ i, bitAt m (8 + i) = l.getD i false

theorem wrap_of_bounds {n : Int} (h : -2147483648 ≤ n) (h' : n < 2147483648) : wrap n = n := by
  unfold wrap
  omega

theorem byteSize_of_lt {n : Nat} (h : n < limit) : byteSize n = (1 + (n + 7) / 8 : Nat) := by
  unfold limit at h
  rw [byteSize, wrap_of_bounds (by omega) (by omega), Int.tdiv_eq_ediv_of_nonneg (by omega)]
  omega

theorem tmod_of_nat (n : Nat) : (n : Int).tmod 8 = (n % 8 : Nat) := by
  rw [Int.tmod_eq_emod_of_nonneg (by omega)]
  omega

theorem tdiv_of_nat (n : Nat) : (1 + (n : Int).tdiv 8).toNat = 1 + n / 8 := by
  rw [Int.tdiv_eq_ediv_of_nonneg (by omega)]
  omega

theorem uchar_toNat {n : Int} (h : 0 ≤ n) (h' : n < 256) : (uchar n).toNat = n.toNat := by
  rw [uchar, UInt8.toNat_ofNat']
  omega

section Holds

variable {m m' : Bytes} {l l' : List Bool}

theorem Holds.length_le (h : Holds m l) : m.length ≤ 1 + (l.length + 7) / 8 := by
  have := h.length
  split at this <;> omega

theorem Holds.length_of_pos (h : Holds m l) (hl : 0 < l.length) :
    m.length = 1 + (l.length + 7) / 8 := by
  rw [h.length, if_neg (List.ne_nil_of_length_pos hl)]

theorem holds_nil : Holds [] [] := ⟨rfl, rfl, fun _ => bitAt_of_le (Nat.zero_le _)⟩

theorem Holds.eq_nil (h : Holds m []) : m = [] :=
  List.length_eq_zero_iff.mp (h.length.trans (if_pos rfl))

/-- The bytes of a sequence that is not empty. -/
theorem holds_of_pos (hl : 0 < l.length) (hlen : m.length = 1 + (l.length + 7) / 8)
    (hfirst : (m.getD 0 0).toNat = 8 * m.length - l.length)
    (hbits : ∀ i, bitAt m (8 + i) = l.getD i false) : Holds m l :=
  ⟨by rw [hlen, if_neg (List.ne_nil_of_length_pos hl)], hfirst, hbits⟩

theorem size_eq (h : Holds m l) (hl : l.length < limit) : size m = l.length := by
  have hfirst := h.first
  have hlen := h.length
  unfold limit at hl
  have hle : l.length ≤ 8 * m.length ∧ 8 * m.length ≤ l.length + 15 := by
    split at hlen
    · next hnil =>
      rw [hnil, List.length_nil]
      omega
    · omega
  rw [size, wrap_of_bounds (n := 8 * m.length) (by omega) (by omega)]
  simp only [hfirst]
  rw [if_pos (by omega), wrap_of_bounds (by omega) (by omega)]
  omega

/-- The bytes are determined by the sequence. -/
theorem Holds.unique (h : Holds m l) (h' : Holds m' l) : m = m' := by
  have hlen : m.length = m'.length := h.length.trans h'.length.symm
  refine ext hlen fun i hi => ?_
  by_cases h8 : i < 8
  · have hbyte : m.getD 0 0 = m'.getD 0 0 := by
      apply UInt8.toNat_inj.mp
      rw [h.first, h'.first, hlen]
    rw [bitAt, bitAt, show i / 8 = 0 by omega, hbyte]
  · obtain ⟨k, rfl⟩ : ∃ k, i = 8 + k := ⟨i - 8, by omega⟩
    rw [h.bits, h'.bits]

theorem Holds.inj (h : Holds m l) (h' : Holds m l') : l = l' := by
  have hlen : l.length = l'.length := by
    have := h.length
    have := h'.length
    have := h.first
    have := h'.first
    by_cases hl : l = []
    · by_cases hl' : l' = []
      · rw [hl, hl']
      · have := List.length_pos_iff.mpr hl'
        rw [if_pos hl, if_neg hl'] at *
        omega
    · have := List.length_pos_iff.mpr hl
      by_cases hl' : l' = []
      · rw [if_neg hl, if_pos hl'] at *
        omega
      · have := List.length_pos_iff.mpr hl'
        rw [if_neg hl, if_neg hl'] at *
        omega
  refine List.ext_getElem hlen fun i hi hi' => ?_
  have hbit := (h.bits i).symm.trans (h'.bits i)
  rwa [List.getD_eq_getElem _ _ hi, List.getD_eq_getElem _ _ hi'] at hbit

theorem equal_eq (h : Holds m l) (h' : Holds m' l') : equal m m' = (l == l') := by
  rw [equal, Bool.eq_iff_iff, beq_iff_eq, beq_iff_eq]
  constructor
  · rintro rfl
    exact h.inj h'
  · rintro rfl
    exact h.unique h'

/-! ## Single bits -/

theorem get_bit (h : Holds m l) {i : Nat} (hi : i < l.length) :
    1 + i / 8 < m.length ∧ get m (1 + i / 8) = some (m.getD (1 + i / 8) 0) := by
  have hlen := h.length_of_pos (by omega)
  exact ⟨by omega, if_pos (by omega)⟩

theorem testBit_eq (h : Holds m l) {i : Nat} (hi : i < l.length) :
    testBit m i = some (l.getD i false) := by
  obtain ⟨-, hget⟩ := get_bit h hi
  have hbit := h.bits i
  rw [bitAt, show (8 + i) / 8 = 1 + i / 8 by omega, Nat.add_mod_left] at hbit
  rw [testBit, hget, Option.bind_eq_bind, Option.bind_some,
    and_bit_ne_zero _ (Nat.mod_lt _ (by decide)), hbit]

/-- The byte of a bit is replaced by one that differs in that bit at most. -/
theorem put_bit (h : Holds m l) {i : Nat} (hi : i < l.length) {b : UInt8} {v : Bool}
    (hb : ∀ k < 8, b.toNat.testBit k =
      if k = i % 8 then v else (m.getD (1 + i / 8) 0).toNat.testBit k) :
    ∃ m', put m (1 + i / 8) b = some m' ∧ Holds m' (l.set i v) := by
  obtain ⟨hlt, -⟩ := get_bit h hi
  have hset := bitAt_set_bit m (i := 8 + i) (b := b) (v := v)
    (by rw [show (8 + i) / 8 = 1 + i / 8 by omega]; exact hlt)
    (by
      rw [show (8 + i) / 8 = 1 + i / 8 by omega, Nat.add_mod_left]
      exact hb)
  rw [show (8 + i) / 8 = 1 + i / 8 by omega] at hset
  refine ⟨_, if_pos hlt, holds_of_pos (by rw [List.length_set]; omega) ?_ ?_ fun j => ?_⟩
  · rw [List.length_set, List.length_set, h.length_of_pos (by omega)]
  · rw [List.getD_eq_getElem?_getD, List.getElem?_set_ne (by omega), ← List.getD_eq_getElem?_getD,
      List.length_set, List.length_set, h.first]
  · rw [hset, h.bits, List.getD_eq_getElem?_getD, List.getD_eq_getElem?_getD, List.getElem?_set]
    by_cases hj : j = i
    · rw [if_pos (by rw [hj]), if_pos hj.symm, if_pos hi]
      rfl
    · rw [if_neg (by omega), if_neg fun h => hj h.symm]

theorem setBitTo_spec (h : Holds m l) {i : Nat} (hi : i < l.length) (v : Bool) :
    ∃ m', setBitTo m i v = some m' ∧ Holds m' (l.set i v) := by
  obtain ⟨-, hget⟩ := get_bit h hi
  have h8 : i % 8 < 8 := Nat.mod_lt _ (by decide)
  cases v with
  | true =>
    rw [setBitTo, if_pos rfl, setBit, hget, Option.bind_eq_bind, Option.bind_some]
    exact put_bit h hi fun k _ => testBit_set _ h8
  | false =>
    rw [setBitTo, if_neg Bool.false_ne_true, clearBit, hget, Option.bind_eq_bind, Option.bind_some]
    exact put_bit h hi fun k hk => testBit_clear _ h8 hk

theorem toggleBit_spec (h : Holds m l) {i : Nat} (hi : i < l.length) :
    ∃ m', toggleBit m i = some (l.getD i false, m') ∧ Holds m' (l.set i (!l.getD i false)) := by
  obtain ⟨-, hget⟩ := get_bit h hi
  have h8 : i % 8 < 8 := Nat.mod_lt _ (by decide)
  have hbit := h.bits i
  rw [bitAt, show (8 + i) / 8 = 1 + i / 8 by omega, Nat.add_mod_left] at hbit
  obtain ⟨m', hput, hm'⟩ := put_bit h hi (v := !l.getD i false)
    (b := m.getD (1 + i / 8) 0 ^^^ UInt8.ofNat (1 <<< (i % 8))) fun k _ => by
      rw [testBit_toggle _ h8]
      by_cases hk : k = i % 8
      · rw [if_pos hk, if_pos hk, hk, hbit]
      · rw [if_neg hk, if_neg hk]
  refine ⟨m', ?_, hm'⟩
  rw [toggleBit, hget, Option.bind_eq_bind, Option.bind_some]
  simp only [hput, Option.bind_eq_bind, Option.bind_some, and_bit_ne_zero _ h8, hbit]

end Holds

/-! ## Bytes -/

theorem getD_set {m : Bytes} {i : Nat} (hi : i < m.length) (b : UInt8) (j : Nat) :
    (m.set i b).getD j 0 = if j = i then b else m.getD j 0 := by
  rw [List.getD_eq_getElem?_getD, List.getElem?_set, List.getD_eq_getElem?_getD]
  by_cases h : j = i
  · rw [if_pos h, if_pos h.symm, if_pos hi]
    rfl
  · rw [if_neg h, if_neg fun h' => h h'.symm]

theorem memset_spec {m : Bytes} {i n : Nat} (h : i + n ≤ m.length) (b : UInt8) :
    ∃ m', memset m i b n = some m' ∧ m'.length = m.length ∧
      ∀ j, m'.getD j 0 = if i ≤ j ∧ j < i + n then b else m.getD j 0 := by
  refine ⟨_, if_neg (by omega), ?_, fun j => ?_⟩
  · simp only [List.length_append, List.length_take, List.length_replicate, List.length_drop]
    omega
  · simp only [List.getD_eq_getElem?_getD, List.getElem?_append, List.length_append,
      List.length_take, List.length_replicate, List.getElem?_take, List.getElem?_replicate,
      List.getElem?_drop, Int.toNat_natCast]
    rw [Nat.min_eq_left (by omega)]
    by_cases hlow : j < i
    · rw [if_pos (by omega), if_pos hlow, if_pos hlow, if_neg (by omega)]
    by_cases hin : j < i + n
    · rw [if_pos hin, if_neg hlow, if_pos (by omega), if_pos (by omega)]
      rfl
    · rw [if_neg hin, if_neg (by omega), show i + n + (j - (i + n)) = j by omega]

theorem memset_zero_spec {m : Bytes} {i : Nat} {n : Int} (h0 : 0 ≤ n) (h : i + n ≤ m.length) :
    ∃ m', memset m i 0 n = some m' ∧ m'.length = m.length ∧
      ∀ j, m'.getD j 0 = if i ≤ j ∧ j < i + n.toNat then 0 else m.getD j 0 := by
  obtain ⟨k, rfl⟩ := Int.eq_ofNat_of_zero_le h0
  exact memset_spec (by omega) 0

theorem mask_eq {m : Bytes} {i : Nat} (hi : i < m.length) (k : Nat) :
    mask m i k = some (m.set i (m.getD i 0 &&& UInt8.ofNat ((1 <<< k) - 1))) := by
  rw [mask, if_neg (by omega), get, if_pos (by omega), Option.bind_eq_bind, Option.bind_some, put,
    if_pos hi, Int.toNat_natCast]

/-- The last byte is masked: there are no bits from `n` on. -/
theorem mask_spec {m : Bytes} {n : Nat} (hlen : m.length = 1 + (n + 7) / 8) (hn : n % 8 ≠ 0) :
    ∃ m', mask m (1 + n / 8) (n % 8 : Nat) = some m' ∧ m'.length = m.length ∧
      m'.getD 0 0 = m.getD 0 0 ∧
      ∀ i, bitAt m' (8 + i) = if i < n then bitAt m (8 + i) else false := by
  have hlt : 1 + n / 8 < m.length := by omega
  refine ⟨_, mask_eq hlt _, List.length_set, ?_, fun i => ?_⟩
  · rw [getD_set hlt, if_neg (by omega)]
  · rw [bitAt, bitAt, getD_set hlt, show (8 + i) / 8 = 1 + i / 8 by omega, Nat.add_mod_left]
    by_cases hbyte : 1 + i / 8 = 1 + n / 8
    · rw [if_pos hbyte, testBit_mask _ (Nat.mod_lt _ (by decide)), hbyte]
      by_cases hi : i < n
      · rw [if_pos hi, decide_eq_true (by omega), Bool.and_true]
      · rw [if_neg hi, decide_eq_false (by omega), Bool.and_false]
    · rw [if_neg hbyte]
      by_cases hi : i < n
      · rw [if_pos hi]
      · rw [if_neg hi, List.getD_eq_default _ _ (by omega)]
        exact Nat.zero_testBit _

/-- The first byte is written; the bits are kept. -/
theorem put_first {m : Bytes} {n : Nat} (hn : n < limit) (hlen : m.length = 1 + (n + 7) / 8) :
    ∃ m', put m 0 (uchar (wrap (8 * m.length) - n)) = some m' ∧ m'.length = m.length ∧
      (m'.getD 0 0).toNat = 8 * m'.length - n ∧ ∀ i, bitAt m' (8 + i) = bitAt m (8 + i) := by
  have h0 : 0 < m.length := by omega
  unfold limit at hn
  refine ⟨_, if_pos h0, List.length_set, ?_, fun i => ?_⟩
  · rw [getD_set h0, if_pos rfl, List.length_set, wrap_of_bounds (by omega) (by omega),
      uchar_toNat (by omega) (by omega)]
    omega
  · rw [bitAt, bitAt, getD_set h0, if_neg (by omega)]

/-! ## Construction and resizing -/

theorem getD_replicate (n : Nat) (v : Bool) (i : Nat) :
    (List.replicate n v).getD i false = if i < n then v else false := by
  rw [List.getD_eq_getElem?_getD, List.getElem?_replicate]
  split <;> rfl

theorem testBit_fill (v : Bool) {k : Nat} (hk : k < 8) :
    (if v then (0xff : UInt8) else 0).toNat.testBit k = v := by
  cases v with
  | false => exact Nat.zero_testBit k
  | true =>
    rw [if_pos rfl, show (0xff : UInt8).toNat = 2 ^ 8 - 1 from rfl, Nat.testBit_two_pow_sub_one,
      decide_eq_true hk]

theorem ofSize_spec (fresh : Nat → UInt8) {n : Nat} (hn : n < limit) (v : Bool) :
    ∃ m, ofSize fresh n v = some m ∧ Holds m (List.replicate n v) := by
  by_cases h0 : n = 0
  · subst h0
    exact ⟨[], if_pos (by decide), holds_nil⟩
  have hbytes := byteSize_of_lt hn
  have hlen0 : ((List.range (1 + (n + 7) / 8)).map fresh).length = 1 + (n + 7) / 8 := by
    rw [List.length_map, List.length_range]
  obtain ⟨m₁, hset, hlen₁, hget₁⟩ := memset_spec (m := (List.range (1 + (n + 7) / 8)).map fresh)
    (i := 1) (n := (n + 7) / 8) (by omega) (if v then 0xff else 0)
  rw [hlen0] at hlen₁
  have hcount : (((List.range (1 + (n + 7) / 8)).map fresh).length : Int) - 1 =
      ((n + 7) / 8 : Nat) := by
    rw [hlen0]
    omega
  have hbits₁ (i : Nat) (hi : i < 8 * ((n + 7) / 8)) : bitAt m₁ (8 + i) = v := by
    rw [bitAt, hget₁, if_pos (by omega), Nat.add_mod_left]
    exact testBit_fill v (Nat.mod_lt _ (by decide))
  have hout (i : Nat) (hi : 8 * ((n + 7) / 8) ≤ i) : bitAt m₁ (8 + i) = false :=
    bitAt_of_le (by omega)
  rw [ofSize, if_neg (by omega), hbytes, if_neg (by omega), Int.toNat_natCast]
  simp only [hcount, hset, Option.bind_eq_bind, Option.bind_some, tmod_of_nat, tdiv_of_nat]
  obtain ⟨m₂, hput, hlen₂, hfirst₂, hbits₂⟩ := put_first hn hlen₁
  rw [hput]
  simp only [Option.bind_some]
  rw [hlen₁] at hlen₂
  have hl : (List.replicate n v).length = n := List.length_replicate
  by_cases hmask : v = true ∧ n % 8 ≠ 0
  · obtain ⟨m₃, hm, hlen₃, hfirst₃, hbits₃⟩ := mask_spec hlen₂ hmask.2
    refine ⟨m₃, ?_, holds_of_pos (by omega) (by rw [hl]; omega) ?_ fun i => ?_⟩
    · rw [if_pos ⟨hmask.1, by exact_mod_cast hmask.2⟩, hm]
    · rw [hfirst₃, hfirst₂, hlen₃, hl]
    · rw [hbits₃, hbits₂, getD_replicate]
      by_cases hi : i < n
      · rw [if_pos hi, if_pos hi, hbits₁ i (by omega)]
      · rw [if_neg hi, if_neg hi]
  · refine ⟨m₂, if_neg fun h => hmask ⟨h.1, by exact_mod_cast h.2⟩,
      holds_of_pos (by omega) (by rw [hl]; omega) (by rw [hfirst₂, hl]) fun i => ?_⟩
    rw [hbits₂, getD_replicate]
    by_cases hi : i < 8 * ((n + 7) / 8)
    · rw [hbits₁ i hi]
      by_cases hin : i < n
      · rw [if_pos hin]
      · rw [if_neg hin]
        by_contra hv
        exact hmask ⟨by simpa using hv, by omega⟩
    · rw [hout i (by omega), if_neg (by omega)]

/-- A sequence of another length: bits are cut off or added, which are false. -/
def resized (l : List Bool) (n : Nat) : List Bool := l.take n ++ List.replicate (n - l.length) false

@[simp] theorem length_resized (l : List Bool) (n : Nat) : (resized l n).length = n := by
  rw [resized, List.length_append, List.length_take, List.length_replicate]
  omega

theorem getD_resized (l : List Bool) (n i : Nat) :
    (resized l n).getD i false = if i < n then l.getD i false else false := by
  rw [resized, List.getD_eq_getElem?_getD, List.getElem?_append, List.length_take,
    List.getElem?_take, List.getElem?_replicate, List.getD_eq_getElem?_getD]
  by_cases hi : i < n
  · rw [if_pos hi, if_pos hi]
    by_cases hl : i < l.length
    · rw [if_pos (by omega)]
    · rw [if_neg (by omega), List.getElem?_eq_none (by omega)]
      split <;> rfl
  · rw [if_neg (show ¬i < min n l.length by omega),
      if_neg (show ¬i - min n l.length < n - l.length by omega), if_neg hi]
    rfl

theorem resizeBytes_spec (fresh : Nat → UInt8) (m : Bytes) {n : Nat} (hn : n < limit) :
    (resizeBytes fresh m (byteSize n)).length = 1 + (n + 7) / 8 ∧
      ∀ j < 1 + (n + 7) / 8, j ≤ m.length → m ≠ [] →
        (resizeBytes fresh m (byteSize n)).getD j 0 = m.getD j 0 := by
  rw [byteSize_of_lt hn, resizeBytes, Int.toNat_natCast]
  refine ⟨by rw [List.length_map, List.length_range], fun j hj hle hne => ?_⟩
  rw [List.getD_eq_getElem?_getD, List.getElem?_map, List.getElem?_range hj, Option.map_some,
    Option.getD_some, List.getD_eq_getElem?_getD]
  by_cases hlt : j < m.length
  · rw [List.getElem?_eq_getElem hlt]
    rfl
  · rw [List.getElem?_eq_none (by omega), Option.getD_none, if_pos ⟨by omega, hne⟩]
    rfl

/-- The bytes of the new size, before the first one is written: those of the old bits. -/
theorem resizeData_spec {m : Bytes} {l : List Bool} (h : Holds m l) (hl : l.length < limit)
    (fresh : Nat → UInt8) {n : Nat} (h0 : 0 < n) (hn : n < limit) :
    ∃ m', resizeData fresh m n = some m' ∧
      m'.length = 1 + (n + 7) / 8 ∧ ∀ i, bitAt m' (8 + i) = (resized l n).getD i false := by
  obtain ⟨hlen, hget⟩ := resizeBytes_spec fresh m hn
  have hle := h.length_le
  have hbound := hl
  unfold limit at hbound
  unfold resizeData
  rw [wrap_of_bounds (by omega) (by omega)]
  by_cases hgrow : 8 * m.length < n
  · -- the new bytes are cleared
    rw [if_pos (by omega)]
    obtain ⟨m', hset, hlen', hget'⟩ := memset_zero_spec (m := resizeBytes fresh m (byteSize n))
      (i := m.length) (n := (resizeBytes fresh m (byteSize n)).length - m.length) (by omega)
      (by omega)
    refine ⟨m', hset, by omega, fun i => ?_⟩
    rw [getD_resized, ← h.bits]
    have hbyte (j : Nat) (hj : j < 1 + (n + 7) / 8) : m'.getD j 0 = m.getD j 0 := by
      rw [hget']
      by_cases hj' : m.length ≤ j
      · rw [if_pos (by omega), List.getD_eq_default _ _ hj']
      · rw [if_neg (by omega), hget j hj (by omega) (List.ne_nil_of_length_pos (by omega))]
    by_cases hi : i < n
    · rw [if_pos hi, bitAt, bitAt, hbyte _ (by omega)]
    · rw [if_neg hi]
      by_cases hi' : i < 8 * ((n + 7) / 8)
      · rw [bitAt, hbyte _ (by omega)]
        exact bitAt_of_le (by omega)
      · exact bitAt_of_le (by omega)
  · -- at most one byte is new, and it is zero
    rw [if_neg (by omega), tmod_of_nat, tdiv_of_nat]
    have hne : m ≠ [] := List.ne_nil_of_length_pos (by omega)
    have hbyte (i : Nat) (hi : i < 8 * ((n + 7) / 8)) :
        bitAt (resizeBytes fresh m (byteSize n)) (8 + i) = l.getD i false := by
      rw [← h.bits, bitAt, bitAt, hget _ (by omega) (by omega) hne]
    by_cases hmod : n % 8 ≠ 0
    · obtain ⟨m', hmask, hlen', -, hbits⟩ := mask_spec hlen hmod
      refine ⟨m', by rw [if_pos (by exact_mod_cast hmod), hmask], by omega, fun i => ?_⟩
      rw [hbits, getD_resized]
      by_cases hi : i < n
      · rw [if_pos hi, if_pos hi, hbyte i (by omega)]
      · rw [if_neg hi, if_neg hi]
    · refine ⟨_, if_neg (by exact_mod_cast hmod), hlen, fun i => ?_⟩
      rw [getD_resized]
      by_cases hi : i < n
      · rw [if_pos hi, hbyte i (by omega)]
      · rw [if_neg hi]
        exact bitAt_of_le (by omega)

theorem resize_spec {m : Bytes} {l : List Bool} (h : Holds m l) (hl : l.length < limit)
    (fresh : Nat → UInt8) {n : Nat} (hn : n < limit) :
    ∃ m', resize fresh m n = some m' ∧ Holds m' (resized l n) := by
  by_cases h0 : n = 0
  · subst h0
    refine ⟨[], if_pos rfl, ?_⟩
    rw [show resized l 0 = [] from List.length_eq_zero_iff.mp (length_resized l 0)]
    exact holds_nil
  · obtain ⟨m₁, hbytes, hlen₁, hbits₁⟩ := resizeData_spec h hl fresh (by omega) hn
    obtain ⟨m₂, hput, hlen₂, hfirst, hbits₂⟩ := put_first hn hlen₁
    refine ⟨m₂, ?_, holds_of_pos (by rw [length_resized]; omega) (by rw [length_resized]; omega)
      (by rw [hfirst, length_resized]) fun i => by rw [hbits₂, hbits₁]⟩
    rw [resize, if_neg (by omega), hbytes, Option.bind_eq_bind, Option.bind_some, hput]

/-! ## Filling -/

/-- The bits from `first` to `last` are `v`. -/
def filled (l : List Bool) (v : Bool) (first last : Nat) : List Bool :=
  l.mapIdx fun i b => if first ≤ i ∧ i < last then v else b

@[simp] theorem length_filled (l : List Bool) (v : Bool) (first last : Nat) :
    (filled l v first last).length = l.length := List.length_mapIdx

theorem getD_filled (l : List Bool) (v : Bool) {first last : Nat} (h : last ≤ l.length) (i : Nat) :
    (filled l v first last).getD i false =
      if first ≤ i ∧ i < last then v else l.getD i false := by
  rw [filled, List.getD_eq_getElem?_getD, List.getElem?_mapIdx, List.getD_eq_getElem?_getD]
  by_cases hi : i < l.length
  · rw [List.getElem?_eq_getElem hi]
    rfl
  · rw [List.getElem?_eq_none (by omega), if_neg (by omega)]
    rfl

theorem filled_none (l : List Bool) (v : Bool) {first last : Nat} (h : last ≤ first) :
    filled l v first last = l := by
  refine List.ext_getElem (length_filled l v first last) fun i hi hi' => ?_
  simp only [filled, List.getElem_mapIdx]
  rw [if_neg (by omega)]

theorem filled_filled (l : List Bool) (v : Bool) {first mid last : Nat} (h : first ≤ mid)
    (h' : mid ≤ last) : filled (filled l v first mid) v mid last = filled l v first last := by
  refine List.ext_getElem (by simp) fun i hi hi' => ?_
  simp only [filled, List.getElem_mapIdx]
  by_cases hmid : mid ≤ i
  · by_cases hlast : i < last
    · rw [if_pos ⟨hmid, hlast⟩, if_pos (by omega)]
    · rw [if_neg (by omega), if_neg (by omega), if_neg (by omega)]
  · rw [if_neg (by omega)]
    by_cases hfirst : first ≤ i
    · rw [if_pos (by omega), if_pos (by omega)]
    · rw [if_neg (by omega), if_neg (by omega)]

theorem set_eq_filled (l : List Bool) (v : Bool) (i : Nat) : l.set i v = filled l v i (i + 1) := by
  refine List.ext_getElem (by simp) fun j hj hj' => ?_
  simp only [filled, List.getElem_mapIdx, List.getElem_set]
  by_cases h : i = j
  · rw [if_pos h, if_pos (by omega)]
  · rw [if_neg h, if_neg (by omega)]

theorem alignLoop_spec (v : Bool) (last : Nat) : ∀ (rounds first : Nat) {m : Bytes}
    {l : List Bool}, Holds m l → last ≤ l.length → first % 8 = 0 ∨ 8 ≤ rounds + first % 8 →
    ∃ m' first', alignLoop v last rounds m first = some (m', first') ∧
      Holds m' (filled l v first first') ∧ first ≤ first' ∧ first' ≤ max first last ∧
      (first' < last → first' % 8 = 0)
  | 0, first, m, l, h, _, hr => by
    refine ⟨m, first, rfl, ?_, Nat.le_refl _, by omega, fun _ => by omega⟩
    rwa [filled_none l v (Nat.le_refl _)]
  | rounds + 1, first, m, l, h, hlast, hr => by
    rw [alignLoop]
    by_cases hmore : first < last ∧ first % 8 ≠ 0
    · obtain ⟨m₁, hset, h₁⟩ := setBitTo_spec h (by omega : first < l.length) v
      obtain ⟨m', first', hloop, h', hle, hle', halign⟩ :=
        alignLoop_spec v last rounds (first + 1) h₁ (by rw [List.length_set]; omega)
          (by omega)
      refine ⟨m', first', ?_, ?_, by omega, by omega, halign⟩
      · rw [if_pos hmore, hset, Option.bind_eq_bind, Option.bind_some, hloop]
      · rwa [set_eq_filled, filled_filled l v (by omega) hle] at h'
    · rw [if_neg hmore]
      refine ⟨m, first, rfl, ?_, Nat.le_refl _, by omega, fun h => by omega⟩
      rwa [filled_none l v (Nat.le_refl _)]

theorem fillLoop_spec (v : Bool) (last : Nat) : ∀ (rounds first : Nat) {m : Bytes}
    {l : List Bool}, Holds m l → last ≤ l.length → last ≤ first + rounds →
    ∃ m', fillLoop v last rounds m first = some m' ∧ Holds m' (filled l v first last)
  | 0, first, m, l, h, _, hr => ⟨m, rfl, by rwa [filled_none l v (by omega)]⟩
  | rounds + 1, first, m, l, h, hlast, hr => by
    rw [fillLoop]
    by_cases hmore : first < last
    · obtain ⟨m₁, hset, h₁⟩ := setBitTo_spec h (by omega : first < l.length) v
      obtain ⟨m', hloop, h'⟩ := fillLoop_spec v last rounds (first + 1) h₁
        (by rw [List.length_set]; omega) (by omega)
      refine ⟨m', ?_, ?_⟩
      · rw [if_pos hmore, hset, Option.bind_eq_bind, Option.bind_some, hloop]
      · rwa [set_eq_filled, filled_filled l v (by omega) (by omega)] at h'
    · rw [if_neg hmore]
      exact ⟨m, rfl, by rwa [filled_none l v (by omega)]⟩

/-- Whole bytes are filled. -/
theorem memset_bits {m : Bytes} {l : List Bool} (h : Holds m l) (first k : Nat)
    (hfirst : first < l.length) (halign : first % 8 = 0) (hk : first + 8 * k ≤ l.length)
    (v : Bool) :
    ∃ m', memset m (1 + first / 8) (if v then 0xff else 0) k = some m' ∧
      Holds m' (filled l v first (first + 8 * k)) := by
  have hlen := h.length_of_pos (by omega)
  obtain ⟨m', hset, hlen', hget⟩ := memset_spec (m := m) (i := 1 + first / 8) (n := k) (by omega)
    (if v then 0xff else 0)
  refine ⟨m', hset, holds_of_pos (by rw [length_filled]; omega) (by rw [length_filled]; omega) ?_
    fun i => ?_⟩
  · rw [hget, if_neg (by omega), h.first, hlen', length_filled]
  · rw [getD_filled l v hk, bitAt, hget]
    by_cases hi : first ≤ i ∧ i < first + 8 * k
    · rw [if_pos (by omega), if_pos hi]
      exact testBit_fill v (Nat.mod_lt _ (by decide))
    · rw [if_neg (by omega), if_neg hi, ← h.bits]
      rfl

theorem fill_spec {m : Bytes} {l : List Bool} (h : Holds m l) {first last : Nat}
    (hlast : last ≤ l.length) (v : Bool) :
    ∃ m', fill m v first last = some m' ∧ Holds m' (filled l v first last) := by
  obtain ⟨m₁, mid, halign, h₁, hle, hle', hmod⟩ :=
    alignLoop_spec v last 8 first h hlast (by omega)
  rw [fill, halign]
  simp only [Option.bind_eq_bind, Option.bind_some]
  by_cases hend : last ≤ mid
  · rw [if_pos hend]
    refine ⟨m₁, rfl, ?_⟩
    by_cases hmore : first < last
    · rwa [show mid = last by omega] at h₁
    · rw [filled_none l v (by omega)] at h₁ ⊢
      exact h₁
  · rw [if_neg hend]
    have hlen₁ : (filled l v first mid).length = l.length := length_filled l v first mid
    obtain ⟨m₂, hset, h₂⟩ := memset_bits h₁ mid ((last - mid) / 8) (by omega)
      (hmod (by omega)) (by omega) v
    rw [filled_filled l v hle (by omega)] at h₂
    obtain ⟨m₃, hloop, h₃⟩ := fillLoop_spec v last 8 (mid + (last - mid) / 8 * 8) h₂
      (by rw [length_filled]; omega) (by omega)
    rw [show mid + 8 * ((last - mid) / 8) = mid + (last - mid) / 8 * 8 by omega,
      filled_filled l v (by omega) (by omega)] at h₃
    refine ⟨m₃, ?_, h₃⟩
    rw [show (last - mid) / 8 * 8 / 8 = (last - mid) / 8 by omega, hset, Option.bind_some, hloop]

end Libpdk.Ds.BitArray

import Libpdk.Core.Bitfield
import Libpdk.Json.Handle

/-!
# Storing a number

A double goes into its value word where it is an integer of at most 26 bits, and behind the
elements of its container otherwise. Here are the steps of the code with their bits: the test of
exponent and fraction, the bit-fields of the word, and the copy. For each double, an array and an
object give back the bits that were stored (`number_lossless`).
-/
namespace Libpdk.Json.Number

open Libpdk.Mem Bitfield

/-! ## The test -/

def intMax : BitVec 32 := 0x7fffffff#32

def fractionMask : BitVec 64 := 0x000fffffffffffff#64

def exponentMask : BitVec 64 := 0x7ff0000000000000#64

/-- mirrors utils/json/internal/JsonPrivate.h:153-175 -/
def compressedNumber (d : UInt64) : BitVec 32 :=
  let val := d.toBitVec
  let exp : Int := ((val &&& exponentMask) >>> 52).toNat - 1023
  if exp < 0 ∨ 25 < exp then intMax
  else if val &&& (fractionMask >>> exp.toNat) ≠ 0 then intMax
  else
    let neg := val >>> 63 ≠ 0
    let val := (val &&& fractionMask) ||| (1#64 <<< 52)
    let res := (val >>> (52 - exp.toNat)).setWidth 32
    if neg then -res else res

/-- The size of the data and `compressed`.
mirrors utils/json/Json.cpp:351-360 -/
def requiredStorage (d : UInt64) : Nat × Bool :=
  if compressedNumber d ≠ intMax then (0, true) else (8, false)

/-- mirrors utils/json/Json.cpp:382-403 -/
def valueToStore (d : UInt64) (offset : BitVec 32) : BitVec 32 :=
  let c := compressedNumber d
  if c ≠ intMax then c else offset

/-! ## The value word -/

/-- The assignments to `m_type`, `m_latinOrIntValue`, `m_latinKey` and `m_value`.
mirrors utils/json/internal/JsonPrivate.h:558-565 -/
def valueBits (word : BitVec 32) (type : BitVec 32) (latinOrInt latinKey : Bool)
    (value : BitVec 32) : BitVec 32 :=
  let word := assign 0 3 word type
  let word := assign 3 1 word (BitVec.ofNat 32 latinOrInt.toNat)
  let word := assign 4 1 word (BitVec.ofNat 32 latinKey.toNat)
  assign 5 27 word value

/-- What `insert` writes for a number: the word at `q`, the key behind it where there is one, and
the data at `offset` of the base at `p`. -/
def storeNumber (m : Bytes) (p q : Nat) (latinKey : Bool) (key : Bytes) (d : UInt64)
    (offset : Nat) : Option Bytes := do
  let word ← le 4 m q
  let (valueSize, compressed) := requiredStorage d
  let m ← poke m q (toLe 4 (valueBits (BitVec.ofNat 32 word) 2#32 compressed latinKey
    (valueToStore d (BitVec.ofNat 32 offset))).toNat)
  let m ← poke m (q + 4) key
  if valueSize = 0 then some m else poke m (p + offset) (toLe 8 d.toNat)

/-- `LocalValue::toDouble` of the word at `q`
mirrors utils/json/internal/JsonPrivate.h:715-725 -/
def toDouble (m : Bytes) (p q : Nat) : Option UInt64 := do
  let word ← le 4 m q
  let word := BitVec.ofNat 32 word
  if load 3 1 word ≠ 0#32 then some (doubleOfInt (loadSigned 5 27 word).toInt)
  else (le 8 m (p + (load 5 27 word).toNat)).map UInt64.ofNat

/-! ## Arrays and objects -/

/-- `insert` and `replace` of an array, behind `detach`.
mirrors utils/json/JsonArray.cpp:225-263 -/
def storeInArray (m : Bytes) (p i : Nat) (d : UInt64) (replace : Bool) : Option Bytes := do
  let m ← resetTable m p
  let (valueOffset, m) ← reserveSpace m p (requiredStorage d).1 i 1 replace
  if valueOffset = 0 then none
  else
    let t ← tableOffset m p
    storeNumber m p (p + t + 4 * i) false [] d valueOffset

/-- `(*m_array)[i].toDouble(m_array)` -/
def arrayNumber (m : Bytes) (p i : Nat) : Option UInt64 := do
  let t ← tableOffset m p
  toDouble m p (p + t + 4 * i)

/-- `insert` of an object, behind `detach`.
mirrors utils/json/JsonObject.cpp:240-260 -/
def storeInObject (m : Bytes) (p i : Nat) (key : Str) (d : UInt64) (keyExists : Bool) :
    Option Bytes := do
  let latinKey := useCompressed key
  let valueOffset := 4 + stringSize key latinKey
  let m ← resetTable m p
  let (off, m) ← reserveSpace m p (valueOffset + (requiredStorage d).1) i 1 keyExists
  if off = 0 then none
  else
    let entry ← tableAt m p i
    storeNumber m p (p + entry) latinKey (copyString (p + entry + 4) key latinKey) d
      (entry + valueOffset)

/-- `entryAt(i)->m_value.toDouble(m_object)` -/
def objectNumber (m : Bytes) (p i : Nat) : Option UInt64 := do
  let entry ← tableAt m p i
  toDouble m p (p + entry)

/-! ## The test by numbers -/

theorem exponent_eq (d : UInt64) :
    ((d.toBitVec &&& exponentMask) >>> 52).toNat = d.toNat / 2 ^ 52 % 2 ^ 11 := by
  have hmask : exponentMask = mask 64 52 11 := by decide
  rw [hmask]
  exact @load_toNat 64 52 11 d.toBitVec

theorem fractionMask_shift : ∀ n < 26, (fractionMask >>> n).toNat = 2 ^ (52 - n) - 1 := by
  decide

theorem nonInt_iff (d : UInt64) {n : Nat} (hn : n < 26) :
    d.toBitVec &&& (fractionMask >>> n) ≠ 0 ↔ d.toNat % 2 ^ 52 % 2 ^ (52 - n) ≠ 0 := by
  have hdvd : 2 ^ (52 - n) ∣ 2 ^ 52 := Nat.pow_dvd_pow 2 (by omega)
  rw [ne_eq, ne_eq, ← BitVec.toNat_inj, BitVec.toNat_and, fractionMask_shift n hn,
    Nat.and_two_pow_sub_one_eq_mod, Nat.mod_mod_of_dvd _ hdvd]
  rfl

theorem significand_eq (d : UInt64) :
    ((d.toBitVec &&& fractionMask) ||| (1#64 <<< 52)).toNat = d.toNat % 2 ^ 52 + 2 ^ 52 := by
  have hmask : fractionMask.toNat = 2 ^ 52 - 1 := rfl
  have hone : (1#64 <<< 52).toNat = 2 ^ 52 * 1 := rfl
  have hlt : d.toNat % 2 ^ 52 < 2 ^ 52 := Nat.mod_lt _ (Nat.two_pow_pos 52)
  rw [BitVec.toNat_or, BitVec.toNat_and, hmask, hone, Nat.and_two_pow_sub_one_eq_mod, Nat.or_comm]
  show 2 ^ 52 * 1 ||| d.toNat % 2 ^ 52 = _
  rw [← Nat.two_pow_add_eq_or_of_lt hlt, Nat.mul_one, Nat.add_comm]

theorem significand_shift (d : UInt64) (n : Nat) :
    ((((d.toBitVec &&& fractionMask) ||| (1#64 <<< 52)) >>> (52 - n)).setWidth 32 : BitVec 32) =
      BitVec.ofNat 32 ((d.toNat % 2 ^ 52 + 2 ^ 52) / 2 ^ (52 - n)) := by
  apply BitVec.eq_of_toNat_eq
  rw [BitVec.toNat_setWidth, BitVec.toNat_ushiftRight, significand_eq, Nat.shiftRight_eq_div_pow,
    BitVec.toNat_ofNat]

theorem neg_iff (d : UInt64) : d.toBitVec >>> 63 ≠ 0 ↔ d.toNat / 2 ^ 63 ≠ 0 := by
  rw [ne_eq, ne_eq, ← BitVec.toNat_inj, BitVec.toNat_ushiftRight, Nat.shiftRight_eq_div_pow]
  rfl

/-- The bits of the test are its numbers. -/
theorem compressedNumber_eq (d : UInt64) : compressedNumber d =
    match Json.compressedNumber d with
    | some c => BitVec.ofInt 32 c
    | none => intMax := by
  rw [compressedNumber, Json.compressedNumber]
  simp only [exponent_eq]
  by_cases hexp : ((d.toNat / 2 ^ 52 % 2 ^ 11 : Nat) : Int) - 1023 < 0 ∨
      25 < ((d.toNat / 2 ^ 52 % 2 ^ 11 : Nat) : Int) - 1023
  · rw [if_pos hexp, if_pos hexp]
  rw [if_neg hexp, if_neg hexp]
  have hn : (((d.toNat / 2 ^ 52 % 2 ^ 11 : Nat) : Int) - 1023).toNat < 26 := by omega
  generalize (((d.toNat / 2 ^ 52 % 2 ^ 11 : Nat) : Int) - 1023).toNat = n at hn ⊢
  by_cases hint : d.toNat % 2 ^ 52 % 2 ^ (52 - n) ≠ 0
  · rw [if_pos ((nonInt_iff d hn).mpr hint), if_pos hint]
  rw [if_neg (mt (nonInt_iff d hn).mp hint), if_neg hint, significand_shift d n]
  simp only [neg_iff]
  split
  · rw [BitVec.ofInt_neg, BitVec.ofInt_natCast]
  · rw [BitVec.ofInt_natCast]

/-- A number that goes into the word is an integer of less than 26 bits and a sign. -/
theorem compressedNumber_inline {d : UInt64} (h : compressedNumber d ≠ intMax) :
    ∃ c : Int, compressedNumber d = BitVec.ofInt 32 c ∧ -0x4000000 < c ∧ c < 0x4000000 ∧
      doubleOfInt c = d := by
  have heq := compressedNumber_eq d
  cases hc : Json.compressedNumber d with
  | none =>
    rw [hc] at heq
    exact absurd heq h
  | some c =>
    rw [hc] at heq
    obtain ⟨hdouble, hlo, hhi⟩ := compressedNumber_spec hc
    exact ⟨c, heq, hlo, hhi, hdouble⟩

/-! ## The word -/

section

variable (word type value : BitVec 32) (latinOrInt latinKey : Bool)

theorem valueBits_int : (load 3 1 (valueBits word type latinOrInt latinKey value)).toNat =
    latinOrInt.toNat := by
  rw [valueBits, load_assign_of_disjoint (by omega) (by omega),
    load_assign_of_disjoint (by omega) (by omega), load_assign (by omega)]
  cases latinOrInt <;> rfl

theorem valueBits_value : (load 5 27 (valueBits word type latinOrInt latinKey value)).toNat =
    value.toNat % 2 ^ 27 := by
  rw [valueBits, load_assign (by omega)]

/-- A signed value of 27 bits comes back with its sign. -/
theorem valueBits_signed {c : Int} (hlo : -0x4000000 < c) (hhi : c < 0x4000000) :
    (loadSigned 5 27 (valueBits word type latinOrInt latinKey (BitVec.ofInt 32 c))).toInt = c := by
  have hvalue := valueBits_value word type (BitVec.ofInt 32 c) latinOrInt latinKey
  obtain ⟨bits, hbits⟩ :
      ∃ bits, bits = valueBits word type latinOrInt latinKey (BitVec.ofInt 32 c) := ⟨_, rfl⟩
  rw [← hbits] at hvalue ⊢
  rw [load_toNat, BitVec.toNat_ofInt] at hvalue
  rw [loadSigned_toInt (by omega) (by omega)]
  have hlt := bits.isLt
  have hrest : ((bits.toNat / 2 ^ 5 : Nat) : Int) = c % 2 ^ 27 := by omega
  rw [hrest, Int.bmod_def]
  omega

end

/-! ## Reading back -/

/-- The word of a number. -/
def numberWord (word : BitVec 32) (latinKey : Bool) (d : UInt64) (offset : Nat) : Nat :=
  (valueBits word 2#32 (requiredStorage d).2 latinKey
    (valueToStore d (BitVec.ofNat 32 offset))).toNat

theorem toDouble_of (word : BitVec 32) (latinKey : Bool) (offset : Nat) {m : Bytes} {p q : Nat}
    {d : UInt64} (hword : le 4 m q = some (numberWord word latinKey d offset))
    (hdata : (requiredStorage d).1 ≠ 0 → le 8 m (p + offset) = some d.toNat)
    (hoffset : offset < 2 ^ 27) : toDouble m p q = some d := by
  have hint := valueBits_int word 2#32 (valueToStore d (BitVec.ofNat 32 offset))
    (requiredStorage d).2 latinKey
  have hvalue := valueBits_value word 2#32 (valueToStore d (BitVec.ofNat 32 offset))
    (requiredStorage d).2 latinKey
  rw [toDouble, hword, numberWord]
  simp only [Option.bind_eq_bind, Option.bind_some, BitVec.ofNat_toNat, BitVec.setWidth_eq]
  by_cases hinline : compressedNumber d ≠ intMax
  · have hflag : (requiredStorage d).2 = true := by rw [requiredStorage, if_pos hinline]
    obtain ⟨c, hc, hlo, hhi, hdouble⟩ := compressedNumber_inline hinline
    rw [if_pos, valueToStore, if_pos hinline, hc, valueBits_signed _ _ _ _ hlo hhi, hdouble]
    intro hzero
    rw [hzero, hflag] at hint
    exact absurd hint (by decide)
  · have hflag : (requiredStorage d).2 = false := by rw [requiredStorage, if_neg hinline]
    have hstored : valueToStore d (BitVec.ofNat 32 offset) = BitVec.ofNat 32 offset := by
      rw [valueToStore, if_neg hinline]
    have hplace : (BitVec.ofNat 32 offset).toNat % 2 ^ 27 = offset := by
      rw [BitVec.toNat_ofNat]
      omega
    have hzero : load 3 1 (valueBits word 2#32 (requiredStorage d).2 latinKey
        (valueToStore d (BitVec.ofNat 32 offset))) = 0#32 := by
      apply BitVec.eq_of_toNat_eq
      rw [hint, hflag]
      rfl
    rw [if_neg (not_not.mpr hzero), hvalue, hstored, hplace,
      hdata (by rw [requiredStorage, if_neg hinline]; decide), Option.map_some,
      UInt64.ofNat_toNat]

theorem requiredStorage_cases (d : UInt64) :
    (requiredStorage d).1 = 0 ∨ (requiredStorage d).1 = 8 := by
  rw [requiredStorage]
  split
  · exact .inl rfl
  · exact .inr rfl

theorem poke_nil {m : Bytes} {i : Nat} (h : i ≤ m.length) : poke m i [] = some m := by
  rw [poke, if_pos (by simpa using h), List.append_nil, List.length_nil, Nat.add_zero,
    List.take_append_drop]

theorem poke_length {m m' W : Bytes} {i : Nat} (h : poke m i W = some m') :
    m'.length = m.length := by
  rw [poke] at h
  split at h
  · cases h
    simp only [List.length_append, List.length_take, List.length_drop]
    omega
  · cases h

/-- A base in which an element can be stored: `detach` made the room. -/
structure Insertable (m pre : Bytes) (obj : Bool) (size : Nat) (body : Bytes) (words : List Nat)
    (rest : Bytes) (i dataSize : Nat) (replace : Bool) : Prop where
  base : BaseAt m pre obj size body words rest
  address : pre.length % 4 = 0
  index : if replace then i < words.length else i ≤ words.length
  small : size + dataSize < maxSize
  room : pre.length + size + dataSize + (if replace then 0 else 4) ≤ m.length

section

variable {m pre body rest : Bytes} {obj : Bool} {size : Nat} {words : List Nat} {i dataSize : Nat}
variable {replace : Bool}

/-- The base with room for an element at `i`. -/
def Reserved (m' pre : Bytes) (obj : Bool) (i dataSize off : Nat) : Prop :=
  ∃ size body gap ws₁ ws₂ rest, BaseAt m' pre obj size (body ++ gap) (ws₁ ++ off :: ws₂) rest ∧
    ws₁.length = i ∧ gap.length = dataSize ∧ off = 12 + body.length ∧ off % 4 = 0 ∧
      off + dataSize < 2 ^ 27

theorem Insertable.reset (h : Insertable m pre obj size body words rest i dataSize replace) :
    ∃ m' body' rest', Json.resetTable m pre.length = some m' ∧
      Insertable m' pre obj size body' words rest' i dataSize replace := by
  rw [Json.resetTable, h.base.baseLength]
  simp only [Option.bind_eq_bind, Option.bind_some]
  by_cases hnone : words.length = 0
  · have hnil := List.length_eq_zero_iff.mp hnone
    subst hnil
    obtain ⟨m', hset, hlen, hbase⟩ := h.base.resetTable
    rw [if_pos List.length_nil]
    exact ⟨m', [], _, hset, hbase, h.address, h.index, h.small, by rw [hlen]; exact h.room⟩
  · rw [if_neg hnone]
    exact ⟨m, body, rest, rfl, h⟩

theorem Insertable.reserve (h : Insertable m pre obj size body words rest i dataSize replace)
    (hds : dataSize % 4 = 0) :
    ∃ off m', reserveSpace m pre.length dataSize i 1 replace = some (off, m') ∧ off ≠ 0 ∧
      Reserved m' pre obj i dataSize off := by
  have hmax : maxSize = 0x7FFFFFF := rfl
  have hsmall := h.small
  have htable := h.base.table
  have haligned := h.base.body_aligned
  have hindex := h.index
  have hroom := h.room
  cases replace with
  | false =>
    simp only [Bool.false_eq_true, if_false] at hindex hroom
    have hsplit := List.take_append_drop i words
    have hbase := h.base
    rw [← hsplit] at hbase
    obtain ⟨gap, m', rest', hgap, -, hrun, hbase'⟩ := hbase.reserveSpace_insert hds hsmall hroom
    have hi : (words.take i).length = i := by rw [List.length_take]; omega
    rw [hi] at hrun
    exact ⟨_, m', hrun, by omega, _, body, gap, _, _, rest', hbase', hi, hgap, rfl, by omega,
      by omega⟩
  | true =>
    simp only [if_true] at hindex hroom
    have hsplit := List.take_append_drop i words
    rw [List.drop_eq_getElem_cons hindex] at hsplit
    have hbase := h.base
    rw [← hsplit] at hbase
    obtain ⟨gap, m', rest', hgap, -, hrun, hbase'⟩ := hbase.reserveSpace_replace hds hsmall hroom
    have hi : (words.take i).length = i := by rw [List.length_take]; omega
    rw [hi] at hrun
    exact ⟨_, m', hrun, by omega, _, body, gap, _, _, rest', hbase', hi, hgap, rfl, by omega,
      by omega⟩

/-- The data of a number, where it has some, goes to the end of the gap. -/
theorem storeData {size : Nat} {b gap₁ gap₂ : Bytes} {words : List Nat} {rest : Bytes}
    {d : UInt64} (h : BaseAt m pre obj size (b ++ gap₁ ++ gap₂) words rest)
    (hgap : gap₂.length = (requiredStorage d).1) :
    ∃ m' gap', (if (requiredStorage d).1 = 0 then some m
        else poke m (pre.length + (12 + (b ++ gap₁).length)) (toLe 8 d.toNat)) = some m' ∧
      BaseAt m' pre obj size (b ++ gap₁ ++ gap') words rest ∧
      ((requiredStorage d).1 ≠ 0 →
        le 8 m' (pre.length + (12 + (b ++ gap₁).length)) = some d.toNat) := by
  by_cases hzero : (requiredStorage d).1 = 0
  · rw [if_pos hzero]
    exact ⟨m, gap₂, rfl, h, fun hne => absurd hzero hne⟩
  · have height := (requiredStorage_cases d).resolve_left hzero
    rw [if_neg hzero]
    have hbase : BaseAt m pre obj size ((b ++ gap₁) ++ gap₂ ++ []) words rest := by
      rw [List.append_nil]
      exact h
    obtain ⟨m', hrun, -, hbase'⟩ := hbase.poke_body (W := toLe 8 d.toNat)
      (by rw [length_toLe, hgap, height])
    refine ⟨m', toLe 8 d.toNat, hrun, by rw [List.append_nil] at hbase'; exact hbase', fun _ => ?_⟩
    apply hbase'.le_body (by omega)
    exact le_of_split (A := b ++ gap₁) (B := []) rfl (by omega) d.toNat_lt

/-- An element of an array. -/
theorem storeInArray_spec {d : UInt64}
    (h : Insertable m pre false size body words rest i (requiredStorage d).1 replace) :
    ∃ m', storeInArray m pre.length i d replace = some m' ∧
      arrayNumber m' pre.length i = some d := by
  have hds : (requiredStorage d).1 % 4 = 0 := by
    rcases requiredStorage_cases d with hc | hc <;> rw [hc]
  obtain ⟨m₀, body₀, rest₀, hreset, hinsertable⟩ := h.reset
  obtain ⟨off, m₁, hreserve, hoff, hreserved⟩ := hinsertable.reserve hds
  obtain ⟨size', b, gap, ws₁, ws₂, rest', hbase, rfl, hgap, hplace, -, hlt⟩ := hreserved
  have hinside := hbase.table
  have hoffset := hbase.tableOffset
  have hbound : pre.length + (12 + (b ++ gap).length) + 4 * ws₁.length + 4 ≤ m₁.length := by
    rw [hbase.eq]
    simp only [List.length_append, length_headBytes, length_tableBytes, List.length_cons]
    omega
  have hword := hbase.tableAt
  rw [Json.tableAt, hoffset] at hword
  have hword : le 4 m₁ (pre.length + (12 + (b ++ gap).length) + 4 * ws₁.length) = some off := hword
  obtain ⟨word, hw⟩ : ∃ word, word = numberWord (BitVec.ofNat 32 off) false d off := ⟨_, rfl⟩
  have hwlt : word < 2 ^ 32 := by
    rw [hw, numberWord]
    exact BitVec.isLt _
  obtain ⟨m₂, hset, hbase₂⟩ := hbase.setTableAt word hwlt
  rw [Json.setTableAt, hoffset] at hset
  have hset : poke m₁ (pre.length + (12 + (b ++ gap).length) + 4 * ws₁.length) (toLe 4 word) =
    some m₂ := hset
  have hbase₂ : BaseAt m₂ pre false size' (b ++ [] ++ gap) (ws₁ ++ word :: ws₂) rest' := by
    rw [List.append_nil]
    exact hbase₂
  obtain ⟨m₃, gap', hdata, hbase₃, hread⟩ := storeData hbase₂ hgap
  rw [List.append_nil] at hdata hread hbase₃
  have hbound₂ : pre.length + (12 + (b ++ gap).length) + 4 * ws₁.length + 4 ≤ m₂.length := by
    rw [poke_length hset]
    exact hbound
  refine ⟨m₃, ?_, ?_⟩
  · rw [storeInArray, hreset]
    simp only [Option.bind_eq_bind, Option.bind_some, hreserve, if_neg hoff, hoffset]
    rw [storeNumber, hword]
    simp only [Option.bind_eq_bind, Option.bind_some]
    rw [← numberWord, ← hw, hset]
    simp only [Option.bind_some]
    rw [poke_nil hbound₂, hplace]
    exact hdata
  · have hoffset₃ := hbase₃.tableOffset
    have hword₃ := hbase₃.tableAt
    rw [Json.tableAt, hoffset₃] at hword₃
    rw [arrayNumber, hoffset₃]
    refine toDouble_of (BitVec.ofNat 32 off) false off ?_ (fun hne => ?_) (by omega)
    · exact hword₃.trans (congrArg some hw)
    · rw [hplace]
      exact hread hne

/-- An entry of an object. -/
theorem storeInObject_spec {d : UInt64} (key : Str)
    (h : Insertable m pre true size body words rest i
      (4 + stringSize key (useCompressed key) + (requiredStorage d).1) replace) :
    ∃ m', storeInObject m pre.length i key d replace = some m' ∧
      objectNumber m' pre.length i = some d := by
  obtain ⟨keySize, hkeySize⟩ : ∃ n, n = stringSize key (useCompressed key) := ⟨_, rfl⟩
  rw [← hkeySize] at h
  have hkeyAligned : keySize % 4 = 0 := by
    rw [hkeySize]
    exact align_mod _
  have hds : (4 + keySize + (requiredStorage d).1) % 4 = 0 := by
    rcases requiredStorage_cases d with hc | hc <;> rw [hc] <;> omega
  obtain ⟨m₀, body₀, rest₀, hreset, hinsertable⟩ := h.reset
  obtain ⟨off, m₁, hreserve, hoff, hreserved⟩ := hinsertable.reserve hds
  obtain ⟨size', b, gap, ws₁, ws₂, rest', hbase, rfl, hgap, hplace, haligned, hlt⟩ := hreserved
  have hentry := hbase.tableAt
  -- the word, the key and the data are written one after the other
  obtain ⟨g₁, g₂, g₃, rfl, hg₁, hg₂, hg₃⟩ : ∃ g₁ g₂ g₃, gap = g₁ ++ g₂ ++ g₃ ∧ g₁.length = 4 ∧
      g₂.length = keySize ∧ g₃.length = (requiredStorage d).1 := by
    refine ⟨gap.take 4, (gap.drop 4).take keySize, gap.drop (4 + keySize), ?_, ?_, ?_, ?_⟩
    · rw [List.append_assoc, ← List.drop_drop, List.take_append_drop, List.take_append_drop]
    · rw [List.length_take]
      omega
    · rw [List.length_take, List.length_drop]
      omega
    · rw [List.length_drop]
      omega
  obtain ⟨old, hold⟩ := le_isSome 4 (m := m₁) (i := pre.length + (12 + b.length)) (by
    rw [hbase.eq]
    simp only [List.length_append, length_headBytes]
    omega)
  obtain ⟨word, hw⟩ : ∃ word, word = numberWord (BitVec.ofNat 32 old) (useCompressed key) d
    (off + (4 + keySize)) := ⟨_, rfl⟩
  have hwlt : word < 2 ^ 32 := by
    rw [hw, numberWord]
    exact BitVec.isLt _
  have hbase₁ : BaseAt m₁ pre true size' (b ++ g₁ ++ (g₂ ++ g₃)) (ws₁ ++ off :: ws₂) rest' := by
    simpa only [List.append_assoc] using hbase
  obtain ⟨m₂, hset, -, hbase₂⟩ := hbase₁.poke_body (W := toLe 4 word) (by rw [length_toLe, hg₁])
  obtain ⟨bytes, hbytes⟩ : ∃ bytes, bytes =
    copyString (pre.length + off + 4) key (useCompressed key) := ⟨_, rfl⟩
  have hbytesLength : bytes.length = g₂.length := by
    have haddress := h.address
    rw [hbytes, length_copyString _ _ (by omega), hg₂, hkeySize]
  have hbase₂ : BaseAt m₂ pre true size' ((b ++ toLe 4 word) ++ g₂ ++ g₃) (ws₁ ++ off :: ws₂)
      rest' := by
    simpa only [List.append_assoc] using hbase₂
  obtain ⟨m₃, hkey, -, hbase₃⟩ := hbase₂.poke_body hbytesLength
  have hbase₃ : BaseAt m₃ pre true size' ((b ++ (toLe 4 word ++ bytes)) ++ [] ++ g₃)
      (ws₁ ++ off :: ws₂) rest' := by
    simpa only [List.append_assoc, List.append_nil] using hbase₃
  obtain ⟨m₄, gap', hdata, hbase₄, hread⟩ := storeData hbase₃ hg₃
  rw [List.append_nil] at hdata hread hbase₄
  have hdataPlace : pre.length + (12 + (b ++ (toLe 4 word ++ bytes)).length) =
      pre.length + (off + (4 + keySize)) := by
    simp only [List.length_append, length_toLe]
    omega
  rw [hdataPlace] at hdata hread
  refine ⟨m₄, ?_, ?_⟩
  · rw [List.length_append, length_toLe, show pre.length + (12 + (b.length + 4)) =
      pre.length + off + 4 by omega] at hkey
    rw [storeInObject, hreset]
    simp only [Option.bind_eq_bind, Option.bind_some, ← hkeySize, hreserve, if_neg hoff, hentry]
    rw [storeNumber, show pre.length + off = pre.length + (12 + b.length) by omega, hold]
    simp only [Option.bind_eq_bind, Option.bind_some]
    rw [← numberWord, ← hw, hset]
    simp only [Option.bind_some]
    rw [show pre.length + (12 + b.length) = pre.length + off by omega, ← hbytes, hkey]
    exact hdata
  · have hentry₄ := hbase₄.tableAt
    rw [objectNumber, hentry₄]
    refine toDouble_of (BitVec.ofNat 32 old) (useCompressed key) (off + (4 + keySize)) ?_ hread
      (by omega)
    rw [← hw, hplace]
    apply hbase₄.le_body (by omega)
    exact le_of_split (A := b) (B := bytes ++ gap')
      (by simp only [List.append_assoc]) (by omega) hwlt

end

/-- A double is stored without a loss: the word holds integers of less than 26 bits with their
sign, and whatever the double, an array and an object give it back. -/
theorem number_lossless (d : UInt64) :
    (compressedNumber d ≠ intMax → ∃ c : Int, -0x4000000 < c ∧ c < 0x4000000 ∧
      doubleOfInt c = d ∧ ∀ word offset latinKey,
        (loadSigned 5 27 (valueBits word 2#32 true latinKey (valueToStore d offset))).toInt = c) ∧
    (∀ m pre size body words rest i replace,
      Insertable m pre false size body words rest i (requiredStorage d).1 replace →
      ∃ m', storeInArray m pre.length i d replace = some m' ∧
        arrayNumber m' pre.length i = some d) ∧
    (∀ m pre size body words rest i replace key,
      Insertable m pre true size body words rest i
        (4 + stringSize key (useCompressed key) + (requiredStorage d).1) replace →
      ∃ m', storeInObject m pre.length i key d replace = some m' ∧
        objectNumber m' pre.length i = some d) := by
  refine ⟨fun h => ?_, fun _ _ _ _ _ _ _ _ h => storeInArray_spec h,
    fun _ _ _ _ _ _ _ _ key h => storeInObject_spec key h⟩
  obtain ⟨c, hc, hlo, hhi, hdouble⟩ := compressedNumber_inline h
  refine ⟨c, hlo, hhi, hdouble, fun word offset latinKey => ?_⟩
  rw [valueToStore, if_pos h, hc, valueBits_signed _ _ _ _ hlo hhi]

/-- A base with no elements and some room. -/
def emptyRoom (obj : Bool) : Bytes := headBytes obj 12 0 12 ++ List.replicate 16 0

theorem emptyRoom_insertable (obj : Bool) {dataSize : Nat} (h : dataSize ≤ 12) :
    Insertable (emptyRoom obj) [] obj 12 [] [] (List.replicate 16 0) 0 dataSize false where
  base := ⟨rfl, by decide, by decide, by decide, by decide, rfl, by decide⟩
  address := rfl
  index := Nat.le_refl 0
  small := by
    have hmax : maxSize = 0x7FFFFFF := rfl
    omega
  room := by
    have hlength : (emptyRoom obj).length = 28 := by cases obj <;> rfl
    rw [hlength]
    simp only [List.length_nil, Bool.false_eq_true, if_false]
    omega

/-- The number 1 in an array, and under "a" in an object. -/
theorem number_lossless_one :
    (∃ c : Int, -0x4000000 < c ∧ c < 0x4000000 ∧ doubleOfInt c = 0x3ff0000000000000 ∧
      ∀ word offset latinKey, (loadSigned 5 27 (valueBits word 2#32 true latinKey
        (valueToStore 0x3ff0000000000000 offset))).toInt = c) ∧
    (∃ m', storeInArray (emptyRoom false) 0 0 0x3ff0000000000000 false = some m' ∧
      arrayNumber m' 0 0 = some 0x3ff0000000000000) ∧
    (∃ m', storeInObject (emptyRoom true) 0 0 [unit 'a'] 0x3ff0000000000000 false = some m' ∧
      objectNumber m' 0 0 = some 0x3ff0000000000000) :=
  ⟨(number_lossless 0x3ff0000000000000).1 (by decide),
    (number_lossless 0x3ff0000000000000).2.1 _ [] _ _ _ _ _ _
      (emptyRoom_insertable false (by decide)),
    (number_lossless 0x3ff0000000000000).2.2 _ [] _ _ _ _ _ _ _
      (emptyRoom_insertable true (by decide))⟩

end Libpdk.Json.Number

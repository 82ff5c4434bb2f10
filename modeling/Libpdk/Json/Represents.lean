import Libpdk.Json.Stored

/-!
# What is stored for a value

`Represents` is the value that a `JsonValue` stands for. `requiredStorage_spec`
says of each that its data has the size that is asked for and that its word and
its data, put anywhere, are read back as the same value.
-/
namespace Libpdk.Json

open Libpdk.Mem

/-! ## Sizes -/

theorem align_mod (n : Nat) : align n % 4 = 0 := by
  unfold align
  omega

theorem le_align (n : Nat) : n ≤ align n := by
  unfold align
  omega

theorem align_of_mod {n : Nat} (h : n % 4 = 0) : align n = n := by
  unfold align
  omega

theorem alignedSize_ofNat {n : Nat} (h : n < 2 ^ 29) : alignedSize (n : Int) = (align n : Nat) := by
  unfold alignedSize toInt32 align
  have hb : ((n : Int) + 3).bmod 0x100000000 = (n : Int) + 3 := by
    unfold Int.bmod
    rw [Int.emod_eq_of_lt (by omega) (by omega)]
    simp only
    rw [if_pos (by omega)]
  rw [hb]
  omega

theorem toInt32_ofNat {n : Nat} (h : n < 2 ^ 29) : toInt32 (n : Int) = n := by
  unfold toInt32 Int.bmod
  rw [Int.emod_eq_of_lt (by omega) (by omega)]
  simp only
  rw [if_pos (by omega)]

/-! ## Numbers -/

theorem doubleOfInt_parts {q n : Nat} (neg : Bool) (hq : q < 2 ^ n) :
    doubleOfInt (if neg then -((q + 2 ^ n : Nat) : Int) else (q + 2 ^ n : Nat)) =
      UInt64.ofNat (neg.toNat * 2 ^ 63 + (1023 + n) * 2 ^ 52 + q * 2 ^ (52 - n)) := by
  have hpos := Nat.two_pow_pos n
  have hlog : Nat.log2 (q + 2 ^ n) = n := by
    refine (Nat.log2_eq_iff (by omega)).mpr ⟨by omega, ?_⟩
    rw [Nat.pow_succ]
    omega
  have habs : (if neg then -((q + 2 ^ n : Nat) : Int) else (q + 2 ^ n : Nat)).natAbs =
      q + 2 ^ n := by
    cases neg <;> simp only [if_true, Bool.false_eq_true, if_false] <;> omega
  have hne : ¬ (if neg then -((q + 2 ^ n : Nat) : Int) else (q + 2 ^ n : Nat)) = 0 := by
    cases neg <;> simp only [if_true, Bool.false_eq_true, if_false] <;> omega
  unfold doubleOfInt
  rw [if_neg hne]
  simp only [habs, hlog, Nat.add_sub_cancel]
  congr 3
  cases neg with
  | false =>
    rw [if_neg (by simp only [Bool.false_eq_true, if_false]; omega)]
    rfl
  | true =>
    rw [if_pos (by simp only [if_true]; omega)]
    rfl

/-- A compressed number is read back as the same double. -/
theorem compressedNumber_spec {bits : UInt64} {c : Int} (h : compressedNumber bits = some c) :
    doubleOfInt c = bits ∧ -0x4000000 < c ∧ c < 0x4000000 := by
  have hlt := bits.toNat_lt
  unfold compressedNumber at h
  obtain ⟨val, hval⟩ : ∃ val, val = bits.toNat := ⟨_, rfl⟩
  obtain ⟨ex, hex⟩ : ∃ ex, ex = val / 2 ^ 52 % 2 ^ 11 := ⟨_, rfl⟩
  obtain ⟨fr, hfr⟩ : ∃ fr, fr = val % 2 ^ 52 := ⟨_, rfl⟩
  rw [← hval] at hlt
  simp only [← hval, ← hex, ← hfr] at h
  split at h
  · cases h
  · next hrange =>
    obtain ⟨n, hn, hn25⟩ : ∃ n : Nat, ex = 1023 + n ∧ n ≤ 25 := ⟨ex - 1023, by omega, by omega⟩
    rw [show ((ex : Int) - 1023).toNat = n by omega] at h
    split at h
    · cases h
    · next hint =>
      -- the fraction is a multiple of the unit
      have hunit : 2 ^ 52 = 2 ^ n * 2 ^ (52 - n) := by
        rw [← Nat.pow_add]
        congr 1
        omega
      obtain ⟨q, hq⟩ : ∃ q, fr = q * 2 ^ (52 - n) := by
        refine ⟨fr / 2 ^ (52 - n), ?_⟩
        have := Nat.div_add_mod fr (2 ^ (52 - n))
        rw [Nat.mul_comm]
        omega
      have hqlt : q < 2 ^ n := by
        have : q * 2 ^ (52 - n) < 2 ^ n * 2 ^ (52 - n) := by
          rw [← hunit, ← hq, hfr]
          omega
        exact Nat.lt_of_mul_lt_mul_right this
      have hres : (fr + 2 ^ 52) / 2 ^ (52 - n) = q + 2 ^ n := by
        rw [hq, hunit, ← Nat.add_mul, Nat.mul_div_cancel _ (Nat.two_pow_pos _)]
      have hn26 : 2 ^ n ≤ 2 ^ 25 := Nat.pow_le_pow_right (by omega) hn25
      have hbits : bits = UInt64.ofNat val := by
        rw [hval]
        exact UInt64.ofNat_toNat.symm
      rw [hres] at h
      split at h
      · next hneg =>
        cases h
        refine ⟨?_, by omega, by omega⟩
        have hd := doubleOfInt_parts true hqlt
        rw [if_pos rfl] at hd
        rw [hd, hbits, ← hq, ← hn]
        congr 1
        simp only [Bool.toNat_true]
        omega
      · next hneg =>
        cases h
        refine ⟨?_, by omega, by omega⟩
        have hd := doubleOfInt_parts false hqlt
        rw [if_neg (by decide)] at hd
        rw [hd, hbits, ← hq, ← hn]
        congr 1
        simp only [Bool.toNat_false]
        omega

/-! ## Strings -/

@[simp] theorem length_unitBytes (s : Str) : (unitBytes s).length = 2 * s.length := by
  induction s with
  | nil => rfl
  | cons c s ih =>
    rw [unitBytes, List.flatMap_cons, List.length_append, length_toLe, ← unitBytes, ih,
      List.length_cons]
    omega

theorem units_unitBytes (s : Str) : units (unitBytes s) = s := by
  induction s with
  | nil => rfl
  | cons c s ih =>
    have hc := c.toNat_lt
    rw [unitBytes, List.flatMap_cons, ← unitBytes]
    simp only [toLe, List.cons_append, List.nil_append, units, ih]
    congr 1
    apply UInt16.toNat_inj.mp
    rw [UInt16.toNat_ofNat', UInt8.toNat_ofNat', UInt8.toNat_ofNat']
    omega

theorem latin1_toUInt8 {s : Str} (h : s.all (fun c => decide (c ≤ 0xFF)) = true) :
    latin1 (s.map UInt16.toUInt8) = s := by
  unfold latin1
  rw [List.map_map]
  conv_rhs => rw [← List.map_id s]
  refine List.map_congr_left fun c hc => ?_
  have hle : c ≤ 0xFF := by simpa using List.all_eq_true.mp h c hc
  rw [UInt16.le_iff_toNat_le] at hle
  apply UInt16.toNat_inj.mp
  simp only [Function.comp_apply, UInt8.toNat_toUInt16, UInt16.toNat_toUInt8, id_eq]
  have : (255 : UInt16).toNat = 255 := rfl
  omega

theorem lt_stringSize (s : Str) (c : Bool) : s.length < stringSize s c := by
  unfold stringSize
  cases c with
  | true =>
    have := le_align (2 + s.length)
    simp only [if_true]
    omega
  | false =>
    have := le_align ((2 + s.length) * 2)
    simp only [Bool.false_eq_true, if_false]
    omega

theorem length_copyString {dest : Nat} (s : Str) (c : Bool) (hd : dest % 4 = 0) :
    (copyString dest s c).length = stringSize s c := by
  unfold copyString stringSize
  cases c with
  | true =>
    simp only [if_true, List.length_append, length_toLe, List.length_map, List.length_replicate]
    unfold align
    omega
  | false =>
    simp only [Bool.false_eq_true, if_false, List.length_append, length_toLe, length_unitBytes]
    unfold align
    split
    · simp only [List.length_cons, List.length_nil]
      omega
    · simp only [List.length_nil]
      omega

/-- What is written for a string, with its length in front, is the string. -/
theorem readString_copyString {dest : Nat} {s : Str} (hs : s.length < 2 ^ 28) :
    readString (copyString dest s (useCompressed s)) (useCompressed s) 0 = some s := by
  unfold copyString readString
  cases hc : useCompressed s with
  | true =>
    unfold useCompressed at hc
    rw [Bool.and_eq_true] at hc
    obtain ⟨hlen, hall⟩ := hc
    have hlen' := of_decide_eq_true hlen
    simp only [if_true]
    unfold readLatin1
    rw [List.append_assoc, le_head _ (by omega), Option.bind_eq_bind, Option.bind_some,
      ← List.append_assoc, peek_of_split (A := toLe 2 s.length) (X := s.map UInt16.toUInt8) rfl
      (by rw [length_toLe]) (by rw [List.length_map]), Option.bind_eq_bind, Option.bind_some,
      latin1_toUInt8 hall]
  | false =>
    simp only [Bool.false_eq_true, if_false]
    unfold readUtf16
    rw [List.append_assoc, le_head _ (by omega), Option.bind_eq_bind, Option.bind_some,
      ← List.append_assoc]
    have hpos : ¬ toInt32 (s.length : Int) < 0 := by
      unfold toInt32 Int.bmod
      rw [Int.emod_eq_of_lt (by omega) (by omega)]
      simp only
      rw [if_pos (by omega)]
      omega
    rw [if_neg hpos, peek_of_split (A := toLe 4 s.length) (X := unitBytes s) rfl
      (by rw [length_toLe]) (by rw [length_unitBytes]), Option.map_some, units_unitBytes]

theorem getUsedStorage_copyString {dest w : Nat} {s : Str} (hd : dest % 4 = 0)
    (hs : stringSize s (useCompressed s) < 2 ^ 28) (hw : wordKind w = .string)
    (hflag : latinOrIntValue w = useCompressed s) (hv : wordValue w = 0) :
    getUsedStorage (copyString dest s (useCompressed s)) 0 w =
      some ((copyString dest s (useCompressed s)).length : Int) := by
  rw [length_copyString s _ hd]
  unfold getUsedStorage
  rw [hw]
  simp only [hflag, hv]
  unfold copyString stringSize at *
  cases hc : useCompressed s with
  | true =>
    rw [hc] at hs
    simp only [if_true] at hs ⊢
    have hlen : s.length < 0x8000 := by
      unfold useCompressed at hc
      rw [Bool.and_eq_true] at hc
      exact of_decide_eq_true hc.1
    rw [List.append_assoc, le_head _ (by omega), Option.map_some,
      show (2 + (s.length : Int)) = ((2 + s.length : Nat) : Int) by omega, alignedSize_ofNat (by omega)]
  | false =>
    rw [hc] at hs
    simp only [Bool.false_eq_true, if_false] at hs ⊢
    have hle := le_align ((2 + s.length) * 2)
    rw [List.append_assoc, le_head _ (by omega), Option.map_some, toInt32_ofNat (by omega),
      show 4 + 2 * (s.length : Int) = (((2 + s.length) * 2 : Nat) : Int) by omega,
      toInt32_ofNat (by omega), alignedSize_ofNat (by omega)]

/-! ## The stored word -/

section Word

variable {tag : Nat} (c k : Bool) (value : Nat)

theorem valueWord_kind : wordKind (valueWord tag c k value) = wordKind tag := by
  unfold wordKind valueWord
  rw [show (tag + 8 * c.toNat + 16 * k.toNat + 32 * (value % 2 ^ 27)) % 8 = tag % 8 by omega]

theorem valueWord_flag (h : tag < 8) : latinOrIntValue (valueWord tag c k value) = c := by
  have hk := Bool.toNat_le k
  unfold latinOrIntValue valueWord
  cases c <;> simp only [Bool.toNat_true, Bool.toNat_false, beq_iff_eq, beq_eq_false_iff_ne, ne_eq] <;>
    omega

theorem valueWord_value (h : tag < 8) : wordValue (valueWord tag c k value) = value % 2 ^ 27 := by
  have hc := Bool.toNat_le c
  have hk := Bool.toNat_le k
  unfold wordValue valueWord
  omega

theorem valueWord_lt (h : tag < 8) : valueWord tag c k value < 2 ^ 32 := by
  have hc := Bool.toNat_le c
  have hk := Bool.toNat_le k
  unfold valueWord
  omega

end Word

/-! ## What a value stands for -/

/-- The base at `p` is `v`, and nothing outside of its own bytes is. -/
def BaseIs (d : Data) (p : Nat) (obj : Bool) (v : Val) : Prop :=
  ∃ sub, peek d.raw p sub.length = some sub ∧ SelfContained sub obj v

def Represents : JsonValue → Val → Prop
  | .undefined, v => v = .null
  | .null, v => v = .null
  | .bool b, v => v = .bool b
  | .double bits, v => v = .double bits
  | .string s, v => v = .string s
  | .array none, v => v = .array []
  | .object none, v => v = .object []
  | .array (some (d, p)), v => BaseIs d p false v
  | .object (some (d, p)), v => BaseIs d p true v

/-- What an insertion relies on: `n` bytes of data, and a word that finds them. -/
structure Storable (v : JsonValue) (n : Nat) (c : Bool) (x : Val) : Prop where
  aligned : n % 4 = 0
  inline : n = 0 → ∀ k offset,
    outOfLine (valueWord (typeTag v) c k (valueToStore v offset)) = false ∧
      ∀ sub m p, readValue sub m p (valueWord (typeTag v) c k (valueToStore v offset)) = some x
  offset : 0 < n → ∀ offset, valueToStore v offset = offset
  data : 0 < n → n < 2 ^ 28 → ∀ dest, dest % 4 = 0 → ∃ bytes, dataBytes dest v c = some bytes ∧
    bytes.length = n ∧ ∀ k value, Payload (valueWord (typeTag v) c k value) bytes x

theorem typeTag_lt (v : JsonValue) : typeTag v < 8 := by
  cases v <;> simp only [typeTag] <;> omega

/-- `m_intValue` of a word with a compressed number. -/
theorem intValue_compressed {i : Int} (k : Bool) (hlo : -0x4000000 < i) (hhi : i < 0x4000000) :
    intValue (valueWord 2 true k (toUInt32 i)) = i := by
  unfold intValue
  rw [valueWord_value true k _ (by omega)]
  unfold toUInt32 Int.bmod
  simp only
  split <;> omega

theorem storable_null {v : JsonValue} (htag : typeTag v = 0) (hval : ∀ offset, valueToStore v offset = 0) :
    Storable v 0 false .null := by
  refine ⟨rfl, fun _ k offset => ?_, fun h => absurd h (by omega), fun h => absurd h (by omega)⟩
  have hkind : wordKind (valueWord 0 false k 0) = .null := valueWord_kind false k 0
  rw [htag, hval]
  refine ⟨?_, fun sub m p => ?_⟩
  · unfold outOfLine
    rw [hkind]
  · unfold readValue
    rw [hkind]

theorem storable_bool {b : Bool} : Storable (.bool b) 0 false (.bool b) := by
  refine ⟨rfl, fun _ k offset => ?_, fun h => absurd h (by omega), fun h => absurd h (by omega)⟩
  have hkind : wordKind (valueWord 1 false k b.toNat) = .bool := valueWord_kind false k _
  have hval := valueWord_value false k b.toNat (show 1 < 8 by omega)
  simp only [typeTag, valueToStore]
  refine ⟨?_, fun sub m p => ?_⟩
  · unfold outOfLine
    rw [hkind]
  · unfold readValue
    rw [hkind]
    simp only [hval]
    cases b <;> rfl

theorem storable_double {bits : UInt64} :
    Storable (.double bits) (if (compressedNumber bits).isSome then 0 else 8)
      (compressedNumber bits).isSome (.double bits) := by
  cases hc : compressedNumber bits with
  | some i =>
    obtain ⟨hdouble, hlo, hhi⟩ := compressedNumber_spec hc
    simp only [Option.isSome_some, if_true]
    refine ⟨rfl, fun _ k offset => ?_, fun h => absurd h (by omega), fun h => absurd h (by omega)⟩
    have hkind : wordKind (valueWord 2 true k (toUInt32 i)) = .double := valueWord_kind true k _
    have hflag := valueWord_flag true k (toUInt32 i) (show 2 < 8 by omega)
    simp only [typeTag, valueToStore, hc]
    refine ⟨?_, fun sub m p => ?_⟩
    · unfold outOfLine
      rw [hkind]
      simp only [hflag, Bool.not_true]
    · unfold readValue
      rw [hkind]
      simp only [hflag, if_true, intValue_compressed k hlo hhi, hdouble]
  | none =>
    simp only [Option.isSome_none, Bool.false_eq_true, if_false]
    refine ⟨rfl, fun h => absurd h (by omega), fun _ offset => by simp only [valueToStore, hc],
      fun _ _ dest _ => ⟨toLe 8 bits.toNat, rfl, length_toLe _ _, fun k value => ?_⟩⟩
    have hkind : wordKind (valueWord 2 false k value) = .double := valueWord_kind false k value
    have hflag := valueWord_flag false k value (show 2 < 8 by omega)
    simp only [typeTag]
    refine ⟨?_, ?_, ?_, ?_, ⟨0, ?_⟩, fun obj h => ?_⟩
    · unfold outOfLine
      rw [hkind]
      simp only [hflag, Bool.not_false]
    · rw [length_toLe]
    · rw [length_toLe]
      omega
    · unfold getUsedStorage
      rw [wordKind_mod, latinOrIntValue_mod, hkind, hflag, length_toLe]
      rfl
    · unfold readValue
      rw [wordKind_mod, latinOrIntValue_mod, wordValue_mod, hkind]
      have hbits := bits.toNat_lt
      have hle : le 8 (toLe 8 bits.toNat) 0 = some bits.toNat :=
        le_of_split (A := []) (B := []) (by simp) rfl (by omega)
      simp only [hflag, Bool.false_eq_true, if_false, hle, Option.map_some, UInt64.ofNat_toNat]
    · rw [hkind] at h
      cases obj <;> cases h

theorem storable_string {s : Str} :
    Storable (.string s) (stringSize s (useCompressed s)) (useCompressed s) (.string s) := by
  have hpos := lt_stringSize s (useCompressed s)
  refine ⟨align_mod _, fun h => absurd h (by omega), fun _ _ => rfl, fun _ hsmall dest hdest =>
    ⟨copyString dest s (useCompressed s), rfl, length_copyString s _ hdest, fun k value => ?_⟩⟩
  have hkind : wordKind (valueWord 3 (useCompressed s) k value) = .string := valueWord_kind _ k value
  have hflag := valueWord_flag (useCompressed s) k value (show 3 < 8 by omega)
  have hlen : s.length < 2 ^ 28 := by omega
  simp only [typeTag]
  refine ⟨?_, ?_, ?_, ?_, ⟨0, ?_⟩, fun obj h => ?_⟩
  · unfold outOfLine
    rw [hkind]
  · rw [length_copyString s _ hdest]
    exact align_mod _
  · rw [length_copyString s _ hdest]
    omega
  · exact getUsedStorage_copyString hdest hsmall (by rw [wordKind_mod, hkind])
      (by rw [latinOrIntValue_mod, hflag]) (wordValue_mod _)
  · unfold readValue
    rw [wordKind_mod, latinOrIntValue_mod, wordValue_mod, hkind, hflag]
    simp only [readString_copyString hlen, Option.map_some]
  · rw [hkind] at h
    cases obj <;> cases h

theorem SelfContained.payload {sub : Bytes} {obj : Bool} {v : Val} (h : SelfContained sub obj v)
    {w : Nat} (hw : wordKind w = if obj then .object else .array) : Payload w sub v := by
  have hhead := h.head
  have hsmall := h.small
  obtain ⟨n, hn⟩ := h.reads
  have hused : alignedSize (toInt32 sub.length) = (sub.length : Int) := by
    rw [toInt32_ofNat (by omega), alignedSize_ofNat (by omega), align_of_mod h.aligned]
  refine ⟨?_, h.aligned, by omega, ?_, ⟨n, ?_⟩, fun obj' hobj => ?_⟩
  · unfold outOfLine
    rw [hw]
    cases obj <;> rfl
  · unfold getUsedStorage
    rw [wordKind_mod, wordValue_mod, hw]
    cases obj with
    | true => simp only [if_true, Nat.add_zero, h.size, Option.map_some, hused]
    | false =>
      simp only [Bool.false_eq_true, if_false, Nat.add_zero, h.size, Option.map_some, hused]
  · unfold readValue
    rw [wordKind_mod, wordValue_mod, hw]
    cases obj with
    | true => simpa only [if_true] using hn
    | false => simpa only [Bool.false_eq_true, if_false] using hn
  · rw [hw] at hobj
    have : obj' = obj := by
      cases obj <;> cases obj' <;> first | rfl | cases hobj
    rwa [this]

theorem selfContained_emptyBase (obj : Bool) :
    SelfContained emptyBase obj (if obj then .object [] else .array []) := by
  refine ⟨by decide, by decide, by decide, by decide, 1, ?_⟩
  cases obj <;> rfl

/-! ## `requiredStorage` -/

theorem clone_eq {fill : Nat → UInt8} {d : Data} {p size reserve : Nat} {unique : Bool}
    {bytes : Bytes} (hs : baseSize d.raw p = some size) (hb : peek d.raw p size = some bytes) :
    clone fill d p unique reserve =
      some (if p = root ∧ unique ∧ 8 + size + reserve ≤ d.raw.length then some d
        else if reserve ≠ 0 ∧ maxSize < cloneSize (8 + size) reserve then none
        else some ⟨header ++ bytes ++ malloc fill (cloneSize (8 + size) reserve - (8 + size)), 0⟩) := by
  unfold clone
  rw [hs, Option.bind_eq_bind, Option.bind_some, hb]
  simp only
  split
  · rfl
  · split <;> rfl

@[simp] theorem length_header : header.length = root := rfl

theorem BaseIs.baseSize {d : Data} {p : Nat} {obj : Bool} {v : Val} (h : BaseIs d p obj v) :
    ∃ sub, SelfContained sub obj v ∧ Json.baseSize d.raw p = some sub.length ∧
      peek d.raw p sub.length = some sub := by
  obtain ⟨sub, hp, hs⟩ := h
  refine ⟨sub, hs, ?_, hp⟩
  have hle := (peek_eq_some hp).2
  have hm : d.raw = d.raw.take p ++ sub ++ d.raw.drop (p + sub.length) := by
    unfold peek at hp
    rw [if_pos hle] at hp
    conv_lhs => rw [← List.take_append_drop p d.raw,
      ← List.take_append_drop sub.length (d.raw.drop p), Option.some.inj hp, List.drop_drop]
    rw [List.append_assoc]
  have := le_embed hm hs.size
  rwa [List.length_take, Nat.add_zero, Nat.min_eq_left (by omega)] at this

theorem compacted_spec (fill : Nat → UInt8) {d : Data} {p : Nat} {obj : Bool} {v : Val}
    (h : BaseIs d p obj v) :
    ∃ d' p', compacted fill d p = some (d', p') ∧ BaseIs d' p' obj v := by
  unfold compacted
  split
  · exact ⟨d, p, rfl, h⟩
  · obtain ⟨sub, hs, hsize, hp⟩ := h.baseSize
    refine ⟨⟨header ++ sub, 0⟩, root, ?_, sub, ?_, hs⟩
    · unfold detachValue
      rw [clone_eq hsize hp, if_neg (by simp), if_neg (by simp)]
      simp [compact, cloneSize, malloc]
    · exact peek_of_split (A := header) (B := []) (by simp) rfl rfl

/-- A container is stored as a copy of its base. -/
theorem storable_container {base : Option (Data × Nat)} {sub : Bytes} {obj : Bool} {x : Val}
    (hb : baseBytes base = some sub) (hs : SelfContained sub obj x) :
    Storable (if obj then .object base else .array base) sub.length false x := by
  have hhead := hs.head
  refine ⟨hs.aligned, fun h => absurd h (by omega), fun _ offset => ?_, fun _ _ dest _ =>
    ⟨sub, ?_, rfl, fun k value => hs.payload ?_⟩⟩
  · cases obj <;> rfl
  · cases obj <;> exact hb
  · rw [valueWord_kind]
    cases obj <;> rfl

theorem BaseIs.baseBytes {d : Data} {p : Nat} {obj : Bool} {v : Val} (h : BaseIs d p obj v) :
    ∃ sub, SelfContained sub obj v ∧ Json.baseSize d.raw p = some sub.length ∧
      Json.baseBytes (some (d, p)) = some sub := by
  obtain ⟨sub, hs, hsize, hp⟩ := h.baseSize
  refine ⟨sub, hs, hsize, ?_⟩
  unfold Json.baseBytes
  simp only [hsize, hp, Option.bind_eq_bind, Option.bind_some]

/-- What is read from a word stands for the value that is there. -/
theorem BaseAt.ofWord {d : Data} {pre body rest : Bytes} {obj : Bool} {size w n : Nat}
    {words : List Nat} {v : Val} (h : BaseAt d.raw pre obj size body words rest)
    (hs : Stored body w v n) :
    ∃ x, JsonValue.ofWord d pre.length w = some x ∧ Represents x v := by
  obtain ⟨n₀, hread⟩ := h.readValue hs
  have hv := hread n₀ (Nat.le_refl _)
  have hbase : ∀ obj, wordKind w = (if obj then .object else .array) →
      BaseIs d (pre.length + wordValue w) obj v := by
    intro obj' hk
    cases hs with
    | inline hout _ =>
      unfold outOfLine at hout
      rw [hk] at hout
      cases obj' <;> cases hout
    | data data hd h12 hp => exact ⟨data, h.peek_body h12 hp, hd.base obj' hk⟩
  unfold JsonValue.ofWord
  unfold Json.readValue at hv
  cases hk : wordKind w with
  | null =>
    simp only [hk, Option.some.injEq] at hv
    exact ⟨.null, rfl, hv.symm⟩
  | bool =>
    simp only [hk, Option.some.injEq] at hv
    exact ⟨.bool _, rfl, hv.symm⟩
  | double =>
    simp only [hk] at hv ⊢
    split at hv
    · next hflag =>
      rw [if_pos hflag]
      exact ⟨_, rfl, (Option.some.inj hv).symm⟩
    · next hflag =>
      rw [if_neg hflag]
      obtain ⟨bits, hbits, rfl⟩ := Option.map_eq_some_iff.mp hv
      exact ⟨.double _, by rw [hbits]; rfl, rfl⟩
  | string =>
    simp only [hk] at hv ⊢
    obtain ⟨s, hstr, rfl⟩ := Option.map_eq_some_iff.mp hv
    exact ⟨.string s, by rw [hstr]; rfl, rfl⟩
  | array => exact ⟨_, rfl, hbase false hk⟩
  | object => exact ⟨_, rfl, hbase true hk⟩

theorem requiredStorage_spec (fill : Nat → UInt8) {v : JsonValue} {x : Val} (h : Represents v x) :
    ∃ v' n c, requiredStorage fill v = some (v', n, c) ∧ Storable v' n c x := by
  cases v with
  | undefined =>
    cases h
    exact ⟨_, _, _, rfl, storable_null rfl fun _ => rfl⟩
  | null =>
    cases h
    exact ⟨_, _, _, rfl, storable_null rfl fun _ => rfl⟩
  | bool b =>
    cases h
    exact ⟨_, _, _, rfl, storable_bool⟩
  | double bits =>
    cases h
    refine ⟨.double bits, _, _, ?_, storable_double⟩
    simp only [requiredStorage]
    cases hc : (compressedNumber bits).isSome with
    | true => rw [if_pos rfl, if_pos rfl]
    | false => rw [if_neg Bool.false_ne_true, if_neg Bool.false_ne_true]
  | string s =>
    cases h
    exact ⟨_, _, _, rfl, storable_string⟩
  | array base =>
    cases base with
    | none =>
      cases h
      exact ⟨_, _, _, rfl, storable_container rfl (selfContained_emptyBase false)⟩
    | some base =>
      obtain ⟨d', p', hc, hb⟩ := compacted_spec fill h
      obtain ⟨sub, hs, hsize, hbytes⟩ := hb.baseBytes
      refine ⟨.array (some (d', p')), sub.length, false, ?_, storable_container hbytes hs⟩
      simp only [requiredStorage, hc, hsize, Option.bind_eq_bind, Option.bind_some]
  | object base =>
    cases base with
    | none =>
      cases h
      exact ⟨_, _, _, rfl, storable_container rfl (selfContained_emptyBase true)⟩
    | some base =>
      obtain ⟨d', p', hc, hb⟩ := compacted_spec fill h
      obtain ⟨sub, hs, hsize, hbytes⟩ := hb.baseBytes
      refine ⟨.object (some (d', p')), sub.length, false, ?_, storable_container hbytes hs⟩
      simp only [requiredStorage, hc, hsize, Option.bind_eq_bind, Option.bind_some]

end Libpdk.Json

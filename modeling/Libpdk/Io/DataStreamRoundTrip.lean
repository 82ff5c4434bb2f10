import Libpdk.Io.DataStreamWire
import Libpdk.Io.DataStream
import Libpdk.Io.Buffering
import Mathlib.Data.List.Forall2

/-!
# Round trips through a data stream

A value is read back from its bytes (`read_wire`), with two exceptions: the halves of a
64-bit integer are exchanged in big-endian streams of the default version, and a
block or a container whose length is not that of its prefix does not come back.
`round_trips_iff`: a sequence written is read as it was exactly where it has neither.
-/
namespace Libpdk.Io

open ByteQueue Mem

set_option linter.unusedSectionVars false

/-! ## Values -/

namespace Ty

/-- The value read is the value written; of a NaN, that it is one. -/
def Same : (t : Ty) → t.Val → t.Val → Prop
  | float, v', v => v' = v ∨ (v'.IsNaN ∧ v.IsNaN)
  | double, v', v => v' = v ∨ (v'.IsNaN ∧ v.IsNaN)
  | vector t, c', c | list t, c', c => List.Forall₂ (Same t) c' c
  | _, v', v => v' = v

/-- The values that come back. -/
def Sound (bo : ByteOrder) : (t : Ty) → t.Val → Prop
  | pint64, v | puint64, v =>
    bo = .littleEndian ∨ v.toNat / 4294967296 = v.toNat % 4294967296
  | block, data => data.length < 2147483648
  | vector t, c | list t, c => c.length < 4294967296 ∧ ∀ x ∈ c, Sound bo t x
  | _, _ => True

end Ty

theorem toLe_mod (n : Nat) : ∀ v : Nat, toLe n (v % 256 ^ n) = toLe n v := by
  induction n with
  | zero => exact fun _ => rfl
  | succ n ih =>
    intro v
    rw [toLe, toLe, Nat.pow_succ, Nat.mul_comm, Nat.mod_mul_right_div_self, ih]
    congr 1
    apply UInt8.toNat_inj.mp
    rw [UInt8.toNat_ofNat', UInt8.toNat_ofNat', Nat.mod_mul_right_mod]

theorem toLe_append (m : Nat) : ∀ n v : Nat, toLe (n + m) v = toLe n v ++ toLe m (v / 256 ^ n)
  | 0, v => by simp [toLe]
  | n + 1, v => by
    rw [Nat.add_right_comm, toLe, toLe, toLe_append m n, List.cons_append, Nat.div_div_eq_div_mul,
      Nat.pow_succ, Nat.mul_comm 256]

theorem fixedBytes_mod (bo : ByteOrder) (n v : Nat) :
    fixedBytes bo n (v % 256 ^ n) = fixedBytes bo n v := by
  cases bo <;> simp [fixedBytes, toLe_mod]

/-- The halves of a 64-bit integer, in the order in which the reader takes them. -/
def readHalves (bo : ByteOrder) (v : Nat) : Nat × Nat :=
  match bo with
  | .littleEndian => (v % 4294967296, v / 4294967296)
  | .bigEndian => (v / 4294967296, v % 4294967296)

theorem fixedBytes_halves (bo : ByteOrder) (v : Nat) :
    fixedBytes bo 8 v =
      fixedBytes bo 4 (readHalves bo v).1 ++ fixedBytes bo 4 (readHalves bo v).2 := by
  have hsplit : toLe 8 v = toLe 4 (v % 4294967296) ++ toLe 4 (v / 4294967296) := by
    rw [show (8 : Nat) = 4 + 4 from rfl, toLe_append, show (4294967296 : Nat) = 256 ^ 4 from rfl,
      toLe_mod]
  cases bo <;> simp [fixedBytes, readHalves, hsplit]

theorem join_halves {high low : Nat} (hhigh : high < 4294967296) (hlow : low < 4294967296) :
    (high % 2 ^ 32 % 2 ^ 64 * 2 ^ 32 % 2 ^ 64 + low % 2 ^ 32 % 2 ^ 64) % 2 ^ 64 =
      high * 4294967296 + low := by
  omega

namespace DataStream

variable {B D : Type} [ByteQueue B] [ByteFileDevice D] [Host]

/-- The stream can read `rest`, the end of the file `data`. -/
structure Ready (s : DataStream B D) (bo : ByteOrder) (precision : FloatingPointPrecision)
    (data rest : Bytes) : Prop where
  settings : Settings s bo precision
  status : s.status = .ok
  suffix : rest <:+ data
  holds : ∃ writable,
    IoDevice.Holds s.device ⟨true, writable, data, data.length - rest.length, none⟩

variable {bo : ByteOrder} {precision : FloatingPointPrecision} {s : DataStream B D}
  {data rest tail : Bytes}

theorem Ready.rest_eq (h : Ready s bo precision data rest) :
    data.drop (data.length - rest.length) = rest :=
  (List.suffix_iff_eq_drop.mp h.suffix).symm

theorem Ready.not_started (h : Ready s bo precision data rest) :
    s.device.transactionStarted = false := by
  obtain ⟨_, hh⟩ := h.holds
  have := hh.saved
  by_contra hstarted
  rw [if_pos (by simpa using hstarted)] at this
  exact absurd this (by simp)

theorem readBlock_ready {bytes : Bytes} (h : Ready s bo precision data (bytes ++ tail)) :
    ∃ s', s.readBlock bytes.length = some (some bytes, s') ∧ Ready s' bo precision data tail := by
  obtain ⟨writable, hh⟩ := h.holds
  obtain ⟨device, hread, hd⟩ := IoDevice.read_holds hh bytes.length
  have hle := h.suffix.length_le
  rw [List.length_append] at hle
  simp only [Cursor.read, Cursor.rest, h.rest_eq, Int.toNat_natCast, List.take_left,
    not_true_eq_false, or_false] at hread hd
  rw [if_neg (by omega)] at hread hd
  refine ⟨{ s with device := device }, ?_, ⟨h.settings.1, h.settings.2, h.settings.3, h.settings.4⟩,
    h.status, (List.suffix_append bytes tail).trans h.suffix, writable, ?_⟩
  · rw [readBlock, if_neg (by simp [h.status]), hread]
    simp [readResult]
  · have hpos : data.length - (bytes ++ tail).length + bytes.length =
        data.length - tail.length := by
      rw [List.length_append]
      omega
    simp only [Cursor.past, Cursor.advance, hpos] at hd
    exact hd

theorem readBlock_short {n : Nat} (h : Ready s bo precision data rest) (hlt : rest.length < n) :
    ∃ block s', s.readBlock n = some (block, s') ∧ readResult block ≠ n ∧ s'.status ≠ .ok := by
  obtain ⟨writable, hh⟩ := h.holds
  obtain ⟨device, hread, -⟩ := IoDevice.read_holds hh n
  simp only [Cursor.read, Cursor.rest, h.rest_eq, Int.toNat_natCast, not_true_eq_false,
    or_false] at hread
  rw [if_neg (by omega), List.take_of_length_le (by omega)] at hread
  have hne : (rest.length : Int) ≠ n := by omega
  refine ⟨some rest, { s with device := device, status := .readPastEnd }, ?_, hne, by simp⟩
  rw [readBlock, if_neg (by simp [h.status]), hread]
  simp [readResult, hne, setStatus, h.status]

theorem readFixed_ready {n v : Nat} (h : Ready s bo precision data (fixedBytes bo n v ++ tail)) :
    ∃ s', readFixed n s = some (v % 256 ^ n, s') ∧ Ready s' bo precision data tail := by
  obtain ⟨s', hs', h'⟩ := readBlock_ready h
  rw [length_fixedBytes] at hs'
  refine ⟨s', ?_, h'⟩
  have hswap : (if s'.noswap then ofMemory (fixedBytes bo n v)
      else bswap n (ofMemory (fixedBytes bo n v))) = v % 256 ^ n := by
    have := swapped_ofMemory bo (Nat.mod_lt v (Nat.pow_pos (n := n) (show 0 < 256 by decide)))
    rw [fixedBytes_mod, swapped] at this
    rw [h'.settings.noswap, ← this]
    simp
  rw [readFixed, hs']
  simp only [Option.map_some, readResult, length_fixedBytes, ne_eq, not_true_eq_false, if_false,
    Option.getD_some, hswap]

/-- An integer of `w` bits is read from its bytes. -/
theorem readFixed_ofNat {n w : Nat} (hw : 256 ^ n = 2 ^ w) {v : BitVec w}
    (h : Ready s bo precision data (fixedBytes bo n v.toNat ++ tail)) :
    ∃ s', (readFixed n s).map (fun (i, s) => (BitVec.ofNat w i, s)) = some (v, s') ∧
      Ready s' bo precision data tail := by
  obtain ⟨s', hs', h'⟩ := readFixed_ready h
  refine ⟨s', ?_, h'⟩
  rw [hs', Option.map_some, hw, Nat.mod_eq_of_lt v.isLt]
  simp only [BitVec.ofNat_toNat, BitVec.setWidth_eq]

theorem readInt32_ready {v : Nat} (h : Ready s bo precision data (fixedBytes bo 4 v ++ tail)) :
    ∃ s', s.readInt32 = some (BitVec.ofNat 32 v, s') ∧ Ready s' bo precision data tail := by
  have hmod : fixedBytes bo 4 v = fixedBytes bo 4 (BitVec.ofNat 32 v).toNat := by
    rw [BitVec.toNat_ofNat, show (2 : Nat) ^ 32 = 256 ^ 4 from rfl, fixedBytes_mod]
  rw [hmod] at h
  exact readFixed_ofNat (by decide) h

theorem readInt8_ready {v : BitVec 8}
    (h : Ready s bo precision data ([UInt8.ofNat v.toNat] ++ tail)) :
    ∃ s', s.readInt8 = some (v, s') ∧ Ready s' bo precision data tail := by
  obtain ⟨s', hs', h'⟩ := readBlock_ready h
  refine ⟨s', ?_, h'⟩
  have hv : v.toNat < UInt8.size := v.isLt
  rw [readInt8, show s.readBlock 1 = _ from hs', Option.map_some]
  simp only [UInt8.toNat_ofNat_of_lt' hv, BitVec.ofNat_toNat, BitVec.setWidth_eq]

/-- The number that comes back: its halves are exchanged in big-endian streams. -/
theorem readInt64_ready {v : BitVec 64}
    (h : Ready s bo precision data (fixedBytes bo 8 v.toNat ++ tail)) :
    ∃ v' s', s.readInt64 = some (v', s') ∧ Ready s' bo precision data tail ∧
      (v' = v ↔ bo = .littleEndian ∨ v.toNat / 4294967296 = v.toNat % 4294967296) := by
  rw [fixedBytes_halves, List.append_assoc] at h
  obtain ⟨s₁, hs₁, h₁⟩ := readInt32_ready h
  obtain ⟨s₂, hs₂, h₂⟩ := readInt32_ready h₁
  have hversion : s.version < 6 := by
    rw [h.settings.version]
    decide
  refine ⟨(BitVec.ofNat 32 (readHalves bo v.toNat).2).setWidth 64 <<< 32 +
    (BitVec.ofNat 32 (readHalves bo v.toNat).1).setWidth 64, s₂, ?_, h₂, ?_⟩
  · rw [readInt64, if_pos hversion, hs₁, Option.bind_some]
    simp only [hs₂]
    rfl
  have hv := v.isLt
  rw [← BitVec.toNat_inj]
  simp only [BitVec.toNat_add, BitVec.toNat_shiftLeft, BitVec.toNat_setWidth, BitVec.toNat_ofNat,
    Nat.shiftLeft_eq]
  cases bo with
  | littleEndian =>
    rw [readHalves, join_halves (by omega) (by omega)]
    simp only [true_or, iff_true]
    omega
  | bigEndian =>
    rw [readHalves, join_halves (by omega) (by omega)]
    simp only [reduceCtorEq, false_or]
    omega

theorem readStringLoop_ready (len : Nat) : ∀ (rounds : Nat) {s : DataStream B D}
    {bytes : Bytes} (acc : Bytes) (allocated : Nat),
    Ready s bo precision data (bytes ++ tail) → bytes.length = 2 * (len - allocated) →
    allocated ≤ len → len - allocated < rounds →
    ∃ s', readStringLoop len s acc allocated rounds = some (some (acc ++ bytes), s') ∧
      Ready s' bo precision data tail
  | 0, _, _, _, _, _, _, _, hr => absurd hr (Nat.not_lt_zero _)
  | rounds + 1, s, bytes, acc, allocated, h, hlen, hle, hr => by
    rw [readStringLoop]
    by_cases hmore : allocated < len
    · rw [if_pos hmore]
      generalize hk : min step (len - allocated) = k
      have hstep : step = 1048576 := rfl
      have hk0 : 0 < k ∧ k ≤ len - allocated := by omega
      have htake : (bytes.take (k * 2)).length = k * 2 := by
        rw [List.length_take]
        omega
      rw [← List.take_append_drop (k * 2) bytes, List.append_assoc] at h
      obtain ⟨s₁, hs₁, h₁⟩ := readBlock_ready h
      rw [htake] at hs₁
      obtain ⟨s₂, hs₂, h₂⟩ := readStringLoop_ready len rounds (acc ++ bytes.take (k * 2))
        (allocated + k) h₁ (by rw [List.length_drop]; omega) (by omega) (by omega)
      refine ⟨s₂, ?_, h₂⟩
      simp only [readRawData]
      rw [hs₁, Option.bind_some, readResult, htake, if_neg (by simp), Option.getD_some, hs₂,
        List.append_assoc, List.take_append_drop]
    · obtain rfl : bytes = [] := List.length_eq_zero_iff.mp (by omega)
      rw [if_neg hmore, List.append_nil]
      exact ⟨s, rfl, h⟩

theorem readString_ready {str : Option Str} (hfits : ∀ l, str = some l → l.length < 1073741824)
    (h : Ready s bo precision data (stringWire bo str ++ tail)) :
    ∃ s', s.readString = some (str, s') ∧ Ready s' bo precision data tail := by
  cases str with
  | none =>
    obtain ⟨s', hs', h'⟩ := readInt32_ready h
    refine ⟨s', ?_, h'⟩
    rw [readString, hs', Option.bind_some]
    rfl
  | some str =>
    have hlt := hfits str rfl
    rw [stringWire, List.append_assoc] at h
    obtain ⟨s₁, hs₁, h₁⟩ := readInt32_ready h
    have hbytes : (BitVec.ofNat 32 (2 * str.length)).toNat = 2 * str.length := by
      rw [BitVec.toNat_ofNat]
      omega
    rw [readString, hs₁, Option.bind_some]
    simp only [hbytes]
    rw [if_neg (by omega)]
    by_cases hempty : str = []
    · subst hempty
      exact ⟨s₁, rfl, h₁⟩
    · have hpos : 0 < str.length := List.length_pos_iff.mpr hempty
      rw [if_pos (by omega), if_neg (by omega), show 2 * str.length / 2 = str.length from by omega]
      obtain ⟨s₂, hs₂, h₂⟩ := readStringLoop_ready str.length (str.length + 1) [] 0 h₁
        (by simp [List.length_flatMap, Nat.mul_comm]) (Nat.zero_le _) (by omega)
      refine ⟨s₂, ?_, h₂⟩
      rw [hs₂]
      have hback := ofRawData_flatMap bo str
      simp only [Option.map_some, List.nil_append, h₂.settings.byteorder]
      rw [Option.some_inj, Prod.mk.injEq, Option.some_inj]
      refine ⟨Eq.trans ?_ hback, rfl⟩
      cases Host.byteOrder <;> cases bo <;> rfl

theorem readBytesLoop_ready (len : Nat) (hlen : len < 4294967295) : ∀ (rounds : Nat)
    {s : DataStream B D} {bytes : Bytes} (acc : Bytes),
    Ready s bo precision data (bytes ++ tail) → acc.length + bytes.length = len →
    bytes ≠ [] → bytes.length ≤ rounds →
    ∃ s', readBytesLoop len s acc rounds = some (some (acc ++ bytes), s') ∧
      Ready s' bo precision data tail
  | 0, _, bytes, _, _, _, hne, hr =>
    absurd (List.length_eq_zero_iff.mp (Nat.le_zero.mp hr)) hne
  | rounds + 1, s, bytes, acc, h, htotal, hne, hr => by
    have hpos := List.length_pos_iff.mpr hne
    rw [readBytesLoop]
    generalize hk : min step (len - acc.length) = k
    have hstep : step = 1048576 := rfl
    have htake : (bytes.take k).length = k := by
      rw [List.length_take]
      omega
    rw [← List.take_append_drop k bytes, List.append_assoc] at h
    obtain ⟨s₁, hs₁, h₁⟩ := readBlock_ready h
    rw [htake] at hs₁
    simp only
    rw [if_neg (by omega), hs₁, Option.bind_some]
    simp only [readResult, htake, ne_eq, not_true_eq_false, if_false, Option.getD_some,
      List.length_append]
    by_cases hmore : acc.length + k < len
    · rw [if_pos hmore]
      obtain ⟨s₂, hs₂, h₂⟩ := readBytesLoop_ready len hlen rounds (acc ++ bytes.take k) h₁
        (by rw [List.length_append, htake, List.length_drop]; omega)
        (by rw [Ne, ← List.length_eq_zero_iff, List.length_drop]; omega)
        (by rw [List.length_drop]; omega)
      refine ⟨s₂, ?_, h₂⟩
      rw [hs₂, List.append_assoc, List.take_append_drop]
    · have hall : bytes.take k = bytes := List.take_of_length_le (by omega)
      have hnil : bytes.drop k = [] := List.drop_of_length_le (by omega)
      rw [if_neg hmore, hall]
      rw [hnil, List.nil_append] at h₁
      exact ⟨s₁, rfl, h₁⟩

/-- The longest block there is needs more memory than is allocated. -/
theorem readBytesLoop_longest : ∀ (rounds : Nat) {s : DataStream B D} {rest acc : Bytes},
    Ready s bo precision data rest → acc.length < 4294967295 →
    ∀ v s', readBytesLoop 4294967295 s acc rounds = some (v, s') → s'.status ≠ .ok
  | 0, _, _, _, _, _, _, _, he => absurd he (by simp [readBytesLoop])
  | rounds + 1, s, rest, acc, h, hacc, v, s', he => by
    rw [readBytesLoop] at he
    generalize hk : min step (4294967295 - acc.length) = k at he
    have hstep : step = 1048576 := rfl
    simp only at he
    split at he
    · exact absurd he (by simp)
    · rename_i hlt
      by_cases hle : rest.length < k
      · obtain ⟨block, s₁, hs₁, hne, hst⟩ := readBlock_short h hle
        rw [hs₁, Option.bind_some, if_pos hne, Option.some_inj, Prod.mk.injEq] at he
        rw [← he.2]
        exact hst
      · have htake : (rest.take k).length = k := by
          rw [List.length_take]
          omega
        rw [← List.take_append_drop k rest] at h
        obtain ⟨s₁, hs₁, h₁⟩ := readBlock_ready h
        rw [htake] at hs₁
        rw [hs₁, Option.bind_some] at he
        simp only [readResult, htake, ne_eq, not_true_eq_false, if_false, Option.getD_some,
          List.length_append] at he
        rw [if_pos (by omega)] at he
        exact readBytesLoop_longest rounds h₁ (by rw [List.length_append, htake]; omega) v s' he

theorem readBytes_ready {bytes : Bytes} (hlt : bytes.length < 2147483648)
    (h : Ready s bo precision data ((blockWire bo bytes).1 ++ tail)) :
    ∃ s', s.readBytes = some (bytes, s') ∧ Ready s' bo precision data tail := by
  rw [blockWire, if_pos hlt, List.append_assoc] at h
  obtain ⟨s₁, hs₁, h₁⟩ := readInt32_ready h
  have hlen : (BitVec.ofNat 32 bytes.length).toNat = bytes.length := by
    rw [BitVec.toNat_ofNat]
    omega
  rw [readBytes, hs₁, Option.bind_some]
  by_cases hempty : bytes = []
  · subst hempty
    exact ⟨s₁, rfl, h₁⟩
  · have hpos := List.length_pos_iff.mpr hempty
    have hne : BitVec.ofNat 32 bytes.length ≠ 0 := by
      intro h0
      rw [h0] at hlen
      simp at hlen
      omega
    obtain ⟨s₂, hs₂, h₂⟩ := readBytesLoop_ready bytes.length (by omega) (bytes.length + 1) [] h₁
      (by simp) hempty (by omega)
    refine ⟨s₂, ?_, h₂⟩
    simp only [hlen]
    rw [if_neg hne, hs₂]
    rfl

/-- A block that is too long does not come back. -/
theorem readBytes_long {bytes : Bytes} (hlt : bytes.length < 4294967296)
    (hlong : ¬ bytes.length < 2147483648)
    (h : Ready s bo precision data ((blockWire bo bytes).1 ++ tail))
    (htail : (blockWire bo bytes).2 = false → tail = []) :
    ∀ v s', s.readBytes = some (v, s') → s'.status ≠ .ok := by
  intro v s' he
  rw [blockWire, if_neg hlong, List.append_nil] at h
  obtain ⟨s₁, hs₁, h₁⟩ := readInt32_ready h
  have hlen : (BitVec.ofNat 32 bytes.length).toNat = bytes.length := by
    rw [BitVec.toNat_ofNat]
    omega
  have hne : BitVec.ofNat 32 bytes.length ≠ 0 := by
    intro h0
    rw [h0] at hlen
    simp at hlen
    omega
  rw [readBytes, hs₁, Option.bind_some] at he
  simp only [hlen] at he
  rw [if_neg hne, Option.map_eq_some_iff] at he
  obtain ⟨⟨block, s₂⟩, hs₂, he⟩ := he
  rw [Prod.mk.injEq] at he
  rw [← he.2]
  by_cases hend : bytes.length = 4294967295
  · rw [hend] at hs₂
    exact readBytesLoop_longest _ h₁ (by simp) _ _ hs₂
  · obtain rfl : tail = [] := by
      apply htail
      simp [blockWire, hlong, hend]
    have hstep : step = 1048576 := rfl
    obtain ⟨block', s₃, hs₃, hne', hst⟩ := readBlock_short (n := min step bytes.length) h₁ (by
      simp only [List.length_nil]
      omega)
    rw [readBytesLoop] at hs₂
    simp only [List.length_nil, Nat.sub_zero, Nat.zero_add] at hs₂
    rw [if_neg (by omega), hs₃, Option.bind_some, if_pos hne', Option.some_inj,
      Prod.mk.injEq] at hs₂
    rw [← hs₂.2]
    exact hst

theorem readFloat_ready {f : Binary32}
    (h : Ready s bo precision data (floatWire bo precision f ++ tail)) :
    ∃ v s', s.readFloat = some (v, s') ∧ Ty.float.Same v f ∧ Ready s' bo precision data tail := by
  rw [readFloat, h.settings.precision]
  cases precision with
  | doublePrecision =>
    obtain ⟨s', hs', h'⟩ := readFixed_ready h
    rw [show (256 : Nat) ^ 8 = 18446744073709551616 from rfl,
      Nat.mod_eq_of_lt (Binary64.toBits_lt _)] at hs'
    refine ⟨f.widen.narrow, s', by simp [hs'], ?_, h'⟩
    by_cases hnan : f.IsNaN
    · exact .inr ⟨Binary64.narrow_isNaN (Binary32.widen_isNaN hnan), hnan⟩
    · exact .inl (Binary32.narrow_widen hnan)
  | singlePrecision =>
    obtain ⟨s', hs', h'⟩ := readFixed_ready h
    rw [show (256 : Nat) ^ 4 = 4294967296 from rfl, Nat.mod_eq_of_lt (Binary32.toBits_lt _)] at hs'
    exact ⟨f, s', by simp [hs'], .inl rfl, h'⟩

theorem readDouble_ready {d : Binary64}
    (hfits : precision = .singlePrecision → ∃ f : Binary32, f.widen = d)
    (h : Ready s bo precision data (doubleWire bo precision d ++ tail)) :
    ∃ v s', s.readDouble = some (v, s') ∧ Ty.double.Same v d ∧ Ready s' bo precision data tail := by
  rw [readDouble, h.settings.precision]
  cases precision with
  | doublePrecision =>
    obtain ⟨s', hs', h'⟩ := readFixed_ready h
    rw [show (256 : Nat) ^ 8 = 18446744073709551616 from rfl,
      Nat.mod_eq_of_lt (Binary64.toBits_lt _)] at hs'
    exact ⟨d, s', by simp [hs'], .inl rfl, h'⟩
  | singlePrecision =>
    obtain ⟨f, rfl⟩ := hfits rfl
    obtain ⟨s', hs', h'⟩ := readFixed_ready h
    rw [show (256 : Nat) ^ 4 = 4294967296 from rfl, Nat.mod_eq_of_lt (Binary32.toBits_lt _)] at hs'
    refine ⟨f.widen.narrow.widen, s', by simp [hs'], ?_, h'⟩
    by_cases hnan : f.IsNaN
    · have hwiden := Binary32.widen_isNaN hnan
      exact .inr ⟨Binary32.widen_isNaN (Binary64.narrow_isNaN hwiden), hwiden⟩
    · exact .inl (by rw [Binary32.narrow_widen hnan])

/-! ## Containers -/

/-- The loop appends as many elements as it is asked for, or the status says why not. -/
theorem readElements_length {α : Type} (f : DataStream B D → Option (α × DataStream B D)) :
    ∀ (n : Nat) {s : DataStream B D} {acc r : List α} {s' : DataStream B D},
    readElements f n s acc = some (r, s') →
    s'.status ≠ .ok ∨ ∃ c, r = acc ++ c ∧ c.length = n
  | 0, s, acc, r, s', he => by
    rw [readElements, Option.some_inj, Prod.mk.injEq] at he
    exact .inr ⟨[], by rw [List.append_nil, he.1], rfl⟩
  | n + 1, s, acc, r, s', he => by
    rw [readElements] at he
    obtain ⟨⟨v, s₁⟩, -, he⟩ := Option.bind_eq_some_iff.mp he
    simp only at he
    split at he
    · rename_i hst
      rw [Option.some_inj, Prod.mk.injEq] at he
      exact .inl (by rw [← he.2]; exact hst)
    · rcases readElements_length f n he with hst | ⟨c, rfl, hlen⟩
      · exact .inl hst
      · exact .inr ⟨v :: c, by simp, by simp [hlen]⟩

/-- What reading a value from its bytes does: a sound value comes back, another one does
not or the status is no longer Ok. -/
structure Back (bo : ByteOrder) (precision : FloatingPointPrecision) (data tail : Bytes) (t : Ty)
    (v : t.Val) (r : Option (t.Val × DataStream B D)) : Prop where
  sound : t.Sound bo v →
    ∃ v' s', r = some (v', s') ∧ t.Same v' v ∧ Ready s' bo precision data tail
  unsound : ¬ t.Sound bo v → ∀ v' s', r = some (v', s') → s'.status ≠ .ok ∨ ¬ t.Same v' v

/-- All bytes that follow a value that could not be written are missing. -/
def Follows (written : Bool) (tail : Bytes) : Prop := written = false → tail = []

section Elements

variable {t : Ty}
  (hread : ∀ {s : DataStream B D} {tail : Bytes} (v : t.Val), t.Fits precision v →
    Ready s bo precision data ((t.wire bo precision v).1 ++ tail) →
    Follows (t.wire bo precision v).2 tail → Back bo precision data tail t v (read t s))
include hread

/-- The bytes of the first element and of the others. -/
theorem readElement_back {s : DataStream B D} {tail : Bytes} {x : t.Val} {c : List t.Val}
    (hx : t.Fits precision x)
    (h : Ready s bo precision data ((wireElements (t.wire bo precision) (x :: c)).1 ++ tail))
    (hf : Follows (wireElements (t.wire bo precision) (x :: c)).2 tail) :
    ∃ tail', Back bo precision data tail' t x (read t s) ∧
      ((t.wire bo precision x).2 = true →
        tail' = (wireElements (t.wire bo precision) c).1 ++ tail ∧
        Follows (wireElements (t.wire bo precision) c).2 tail) := by
  rw [wireElements] at h hf
  by_cases hw : (t.wire bo precision x).2 = true
  · rw [if_pos hw] at h hf
    rw [List.append_assoc] at h
    refine ⟨_, hread x hx h ?_, fun _ => ⟨rfl, hf⟩⟩
    intro hfalse
    exact absurd (hw.symm.trans hfalse) (by simp)
  · rw [if_neg hw] at h hf
    obtain rfl := hf rfl
    exact ⟨[], hread x hx h fun _ => rfl, fun hw' => absurd hw' hw⟩

theorem readElements_sound
    (hwire : ∀ v : t.Val, t.Sound bo v → (t.wire bo precision v).2 = true) :
    ∀ (c : List t.Val) {s : DataStream B D} (acc : List t.Val) {tail : Bytes},
    (∀ x ∈ c, t.Fits precision x) → (∀ x ∈ c, t.Sound bo x) →
    Ready s bo precision data ((wireElements (t.wire bo precision) c).1 ++ tail) →
    Follows (wireElements (t.wire bo precision) c).2 tail →
    ∃ c' s', readElements (read t) c.length s acc = some (acc ++ c', s') ∧
      List.Forall₂ t.Same c' c ∧ Ready s' bo precision data tail
  | [], s, acc, tail, _, _, h, _ => ⟨[], s, by rw [List.append_nil]; rfl, .nil, h⟩
  | x :: c, s, acc, tail, hfits, hsound, h, hf => by
    obtain ⟨tail', hback, hnext⟩ := readElement_back hread (hfits x (by simp)) h hf
    obtain ⟨v, s₁, hs₁, hsame, h₁⟩ := hback.sound (hsound x (by simp))
    obtain ⟨rfl, hf'⟩ := hnext (hwire x (hsound x (by simp)))
    obtain ⟨c', s₂, hs₂, hc', h₂⟩ := readElements_sound hwire c (acc ++ [v])
      (fun y hy => hfits y (by simp [hy])) (fun y hy => hsound y (by simp [hy])) h₁ hf'
    refine ⟨v :: c', s₂, ?_, .cons hsame hc', h₂⟩
    rw [List.length_cons, readElements, hs₁, Option.bind_some]
    simp only [h₁.status, ne_eq, not_true_eq_false, if_false, hs₂]
    rw [List.append_assoc, List.singleton_append]

theorem readElements_unsound
    (hwire : ∀ v : t.Val, t.Sound bo v → (t.wire bo precision v).2 = true) :
    ∀ (c : List t.Val) {s : DataStream B D} (acc : List t.Val) {tail : Bytes},
    (∀ x ∈ c, t.Fits precision x) → ¬ (∀ x ∈ c, t.Sound bo x) →
    Ready s bo precision data ((wireElements (t.wire bo precision) c).1 ++ tail) →
    Follows (wireElements (t.wire bo precision) c).2 tail →
    ∀ r s', readElements (read t) c.length s acc = some (r, s') →
      s'.status ≠ .ok ∨ ∃ c', r = acc ++ c' ∧ ¬ List.Forall₂ t.Same c' c
  | [], s, acc, tail, _, hun, _, _, _, _, _ => absurd (by simp) hun
  | x :: c, s, acc, tail, hfits, hun, h, hf, r, s', he => by
    obtain ⟨tail', hback, hnext⟩ := readElement_back hread (hfits x (by simp)) h hf
    rw [List.length_cons, readElements] at he
    obtain ⟨⟨v, s₁⟩, hs₁, he⟩ := Option.bind_eq_some_iff.mp he
    simp only at he
    by_cases hst : s₁.status = .ok
    · rw [if_neg (by simp [hst])] at he
      by_cases hx : t.Sound bo x
      · -- the first element comes back, so another one does not
        obtain ⟨v', s₁', hs₁', hsame, h₁⟩ := hback.sound hx
        obtain ⟨rfl, rfl⟩ : v' = v ∧ s₁' = s₁ := by simpa [hs₁] using hs₁'.symm
        obtain ⟨rfl, hf'⟩ := hnext (hwire x hx)
        have hun' : ¬ ∀ y ∈ c, t.Sound bo y := by
          intro hall
          apply hun
          intro y hy
          rcases List.mem_cons.mp hy with rfl | hy
          · exact hx
          · exact hall y hy
        rcases readElements_unsound hwire c _ (fun y hy => hfits y (by simp [hy])) hun' h₁ hf' r s'
          he with hst' | ⟨c', rfl, hne⟩
        · exact .inl hst'
        · refine .inr ⟨v' :: c', by simp, ?_⟩
          intro hall
          rw [List.forall₂_cons] at hall
          exact hne hall.2
      · rcases readElements_length _ _ he with hst' | ⟨c', rfl, -⟩
        · exact .inl hst'
        · refine .inr ⟨v :: c', by simp, ?_⟩
          intro hall
          rw [List.forall₂_cons] at hall
          rcases hback.unsound hx v s₁ hs₁ with hst' | hne
          · exact hst' hst
          · exact hne hall.1
    · rw [if_pos hst] at he
      exact .inl (by rw [← (Prod.mk.inj (Option.some_inj.mp he)).2]; exact hst)

theorem readContainer_back
    (hwire : ∀ v : t.Val, t.Sound bo v → (t.wire bo precision v).2 = true)
    {c : List t.Val} {tail : Bytes} (hfits : ∀ x ∈ c, t.Fits precision x)
    (h : Ready s bo precision data (fixedBytes bo 4 (c.length % 4294967296) ++
      (wireElements (t.wire bo precision) c).1 ++ tail))
    (hf : Follows (wireElements (t.wire bo precision) c).2 tail) :
    Back bo precision data tail (.vector t) c (s.readContainer (read t)) := by
  rw [List.append_assoc] at h
  have hready : Ready s.resetStatus bo precision data (fixedBytes bo 4 (c.length % 4294967296) ++
      ((wireElements (t.wire bo precision) c).1 ++ tail)) :=
    ⟨⟨h.settings.1, h.settings.2, h.settings.3, h.settings.4⟩, rfl, h.suffix, h.holds⟩
  obtain ⟨s₁, hs₁, h₁⟩ := readInt32_ready hready
  have hn : (BitVec.ofNat 32 (c.length % 4294967296)).toNat = c.length % 4294967296 := by
    rw [BitVec.toNat_ofNat]
    exact Nat.mod_mod _ _
  have heq : s.readContainer (read t) = readElements (read t) (c.length % 4294967296) s₁ [] := by
    rw [readContainer]
    simp only [h.not_started, Bool.false_eq_true, not_false_eq_true, if_true, hs₁,
      Option.bind_some, hn, h.status, ne_eq, not_true_eq_false, if_false]
    cases readElements (read t) (c.length % 4294967296) s₁ [] <;> rfl
  rw [heq]
  constructor
  · rintro ⟨hlen, hsound⟩
    obtain ⟨c', s₂, hs₂, hc', h₂⟩ := readElements_sound hread hwire c [] hfits hsound h₁ hf
    rw [Nat.mod_eq_of_lt hlen]
    exact ⟨c', s₂, hs₂, hc', h₂⟩
  · intro hun r s' he
    by_cases hlen : c.length < 4294967296
    · rw [Nat.mod_eq_of_lt hlen] at he
      have hun' : ¬ ∀ x ∈ c, t.Sound bo x := fun hall => hun ⟨hlen, hall⟩
      rcases readElements_unsound hread hwire c [] hfits hun' h₁ hf r s' he with
        hst | ⟨c', rfl, hne⟩
      · exact .inl hst
      · exact .inr hne
    · rcases readElements_length _ _ he with hst | ⟨c', hr, hlen'⟩
      · exact .inl hst
      · refine .inr fun hall => ?_
        have hsame := List.Forall₂.length_eq hall
        rw [hr, List.nil_append, hlen'] at hsame
        omega

end Elements

theorem wireElements_true {t : Ty} (hwire : ∀ v : t.Val, t.Sound bo v →
    (t.wire bo precision v).2 = true) :
    ∀ c : List t.Val, (∀ x ∈ c, t.Sound bo x) → (wireElements (t.wire bo precision) c).2 = true
  | [], _ => rfl
  | x :: c, h => by
    rw [wireElements, if_pos (hwire x (h x (by simp)))]
    exact wireElements_true hwire c fun y hy => h y (by simp [hy])

theorem wire_sound (precision : FloatingPointPrecision) : ∀ (t : Ty) (v : t.Val),
    t.Sound bo v → (t.wire bo precision v).2 = true
  | .pint8, _, _ | .puint8, _, _ | .pint16, _, _ | .puint16, _, _ | .pint32, _, _
  | .puint32, _, _ | .pint64, _, _ | .puint64, _, _ | .bool, _, _ | .float, _, _
  | .double, _, _ | .string, _, _ => rfl
  | .block, _, h => by
    have : _ < 2147483648 := h
    simp [Ty.wire, blockWire, this]
  | .vector t, c, h | .list t, c, h => wireElements_true (wire_sound precision t) c h.2

/-- Reading a value from its bytes. -/
theorem read_wire : ∀ (t : Ty) {s : DataStream B D} {tail : Bytes} (v : t.Val),
    t.Fits precision v → Ready s bo precision data ((t.wire bo precision v).1 ++ tail) →
    Follows (t.wire bo precision v).2 tail → Back bo precision data tail t v (read t s)
  | .pint8, s, tail, v, _, h, _ | .puint8, s, tail, v, _, h, _ => by
    obtain ⟨s', hs', h'⟩ := readInt8_ready h
    exact ⟨fun _ => ⟨v, s', hs', rfl, h'⟩, fun hun => absurd trivial hun⟩
  | .pint16, s, tail, v, _, h, _ | .puint16, s, tail, v, _, h, _
  | .pint32, s, tail, v, _, h, _ | .puint32, s, tail, v, _, h, _ => by
    obtain ⟨s', hs', h'⟩ := readFixed_ofNat (by decide) h
    exact ⟨fun _ => ⟨v, s', hs', rfl, h'⟩, fun hun => absurd trivial hun⟩
  | .pint64, s, tail, v, _, h, _ | .puint64, s, tail, v, _, h, _ => by
    obtain ⟨v', s', hs', h', hiff⟩ := readInt64_ready h
    refine ⟨fun hsound => ⟨v', s', hs', hiff.mpr hsound, h'⟩, fun hun v₁ s₁ he => .inr ?_⟩
    intro hsame
    apply hun
    apply hiff.mp
    have he' := hs'.symm.trans he
    rw [Option.some_inj, Prod.mk.injEq] at he'
    rw [he'.1]
    exact hsame
  | .bool, s, tail, v, _, h, _ => by
    have h' : Ready s bo precision data ([UInt8.ofNat (BitVec.ofNat 8 v.toNat).toNat] ++ tail) := by
      cases v <;> exact h
    obtain ⟨s', hs', h'⟩ := readInt8_ready h'
    refine ⟨fun _ => ⟨v, s', ?_, rfl, h'⟩, fun hun => absurd trivial hun⟩
    rw [read, readBool, hs']
    cases v <;> rfl
  | .float, s, tail, v, _, h, _ => by
    obtain ⟨v', s', hs', hsame, h'⟩ := readFloat_ready h
    exact ⟨fun _ => ⟨v', s', hs', hsame, h'⟩, fun hun => absurd trivial hun⟩
  | .double, s, tail, v, hfits, h, _ => by
    obtain ⟨v', s', hs', hsame, h'⟩ := readDouble_ready hfits h
    exact ⟨fun _ => ⟨v', s', hs', hsame, h'⟩, fun hun => absurd trivial hun⟩
  | .string, s, tail, v, hfits, h, _ => by
    obtain ⟨s', hs', h'⟩ := readString_ready hfits h
    exact ⟨fun _ => ⟨v, s', hs', rfl, h'⟩, fun hun => absurd trivial hun⟩
  | .block, s, tail, v, hfits, h, hf => by
    refine ⟨fun hsound => ?_, fun hun v' s' he => .inl ?_⟩
    · obtain ⟨s', hs', h'⟩ := readBytes_ready hsound h
      exact ⟨v, s', hs', rfl, h'⟩
    · exact readBytes_long hfits hun h hf v' s' he
  | .vector t, s, tail, v, hfits, h, hf =>
    readContainer_back (read_wire t) (wire_sound precision t) hfits h hf
  | .list t, s, tail, v, hfits, h, hf => by
    have hback := readContainer_back (read_wire t) (wire_sound precision t) hfits h hf
    exact ⟨hback.1, hback.2⟩

end DataStream

/-! ## Sequences -/

/-- Values of the given types. -/
@[reducible] def Row : List Ty → Type
  | [] => Unit
  | t :: ts => t.Val × Row ts

namespace Row

def Fits (precision : FloatingPointPrecision) : (ts : List Ty) → Row ts → Prop
  | [], _ => True
  | t :: ts, (v, vs) => t.Fits precision v ∧ Fits precision ts vs

def Same : (ts : List Ty) → Row ts → Row ts → Prop
  | [], _, _ => True
  | t :: ts, (v', vs'), (v, vs) => t.Same v' v ∧ Same ts vs' vs

def Sound (bo : ByteOrder) : (ts : List Ty) → Row ts → Prop
  | [], _ => True
  | t :: ts, (v, vs) => t.Sound bo v ∧ Sound bo ts vs

def wire (bo : ByteOrder) (precision : FloatingPointPrecision) : (ts : List Ty) → Row ts → Bytes
  | [], _ => []
  | t :: ts, (v, vs) =>
    if (t.wire bo precision v).2 then (t.wire bo precision v).1 ++ wire bo precision ts vs
    else (t.wire bo precision v).1

end Row

/-- The values that can be written with a precision. -/
abbrev Sequence (precision : FloatingPointPrecision) (ts : List Ty) :=
  { vs : Row ts // Row.Fits precision ts vs }

/-- A device that was just opened, over a file with the given bytes. -/
abbrev Holding (D : Type) [ByteFileDevice D] (data : Bytes) :=
  { d : D // ByteFileDevice.offset d = 0 ∧ ByteFileDevice.file d = data }

namespace DataStream

variable {B D : Type} [ByteQueue B] [ByteFileDevice D] [Host]

def writeRow : (ts : List Ty) → DataStream B D → Row ts → DataStream B D
  | [], s, _ => s
  | t :: ts, s, (v, vs) => writeRow ts (write t s v) vs

def readRow : (ts : List Ty) → DataStream B D → Option (Row ts × DataStream B D)
  | [], s => some ((), s)
  | t :: ts, s => (read t s).bind fun (v, s) => (readRow ts s).map fun (vs, s) => ((v, vs), s)

variable {bo : ByteOrder} {precision : FloatingPointPrecision} {data : Bytes}

theorem writeRow_failed : ∀ (ts : List Ty) {s : DataStream B D} (_ : s.status ≠ .ok) (vs : Row ts),
    writeRow ts s vs = s
  | [], _, _, _ => rfl
  | t :: ts, _, h, (v, vs) => by
    rw [writeRow, write_failed t h]
    exact writeRow_failed ts h vs

theorem writeRow_wrote : ∀ (ts : List Ty) {s : DataStream B D} {data : Bytes} {vs : Row ts},
    AtEnd s bo precision data → s.status = .ok → Row.Fits precision ts vs →
    AtEnd (writeRow ts s vs) bo precision (data ++ Row.wire bo precision ts vs)
  | [], s, data, _, h, _, _ => by
    rw [writeRow, Row.wire, List.append_nil]
    exact h
  | t :: ts, s, data, (v, vs), h, hs, hfits => by
    have hw := write_wrote t v h hs hfits.1
    rw [writeRow, Row.wire]
    cases hok : (t.wire bo precision v).2 with
    | true =>
      rw [hok] at hw
      rw [if_pos rfl, ← List.append_assoc]
      exact writeRow_wrote ts hw.atEnd hw.status hfits.2
    | false =>
      rw [hok] at hw
      rw [if_neg (by simp), writeRow_failed ts (by rw [hw.status]; simp)]
      exact hw.atEnd

theorem readRow_failed : ∀ ts : List Ty, Keeps (fun s : DataStream B D => s.status ≠ .ok)
    fun s => readRow ts s
  | [] => fun _ _ _ he hs => Keeps.of_some (P := fun s => s.status ≠ .ok) hs he
  | t :: ts => (read_failed t).bind fun _ => (readRow_failed ts).map fun _ _ hs => hs

theorem readRow_sound : ∀ (ts : List Ty) {s : DataStream B D} {vs : Row ts},
    Row.Fits precision ts vs → Row.Sound bo ts vs →
    Ready s bo precision data (Row.wire bo precision ts vs) →
    ∃ vs' s', readRow ts s = some (vs', s') ∧ Row.Same ts vs' vs ∧ Ready s' bo precision data []
  | [], s, _, _, _, h => ⟨(), s, rfl, trivial, h⟩
  | t :: ts, s, (v, vs), hfits, hsound, h => by
    have hok := wire_sound precision t v hsound.1
    rw [Row.wire, if_pos hok] at h
    obtain ⟨v', s₁, hs₁, hsame, h₁⟩ := (read_wire t v hfits.1 h fun hf =>
      absurd (hok.symm.trans hf) (by simp)).sound hsound.1
    obtain ⟨vs', s₂, hs₂, hsame', h₂⟩ := readRow_sound ts hfits.2 hsound.2 h₁
    refine ⟨(v', vs'), s₂, ?_, ⟨hsame, hsame'⟩, h₂⟩
    rw [readRow, hs₁, Option.bind_some]
    simp only [hs₂, Option.map_some]

theorem readRow_unsound : ∀ (ts : List Ty) {s : DataStream B D} {vs : Row ts},
    Row.Fits precision ts vs → ¬ Row.Sound bo ts vs →
    Ready s bo precision data (Row.wire bo precision ts vs) →
    ∀ vs' s', readRow ts s = some (vs', s') → s'.status ≠ .ok ∨ ¬ Row.Same ts vs' vs
  | [], _, _, _, hun, _, _, _, _ => absurd trivial hun
  | t :: ts, s, (v, vs), hfits, hun, h, (v', vs'), s', he => by
    rw [readRow] at he
    obtain ⟨⟨v₁, s₁⟩, hs₁, he⟩ := Option.bind_eq_some_iff.mp he
    obtain ⟨⟨vs₁, s₂⟩, hs₂, he⟩ := Option.map_eq_some_iff.mp he
    obtain ⟨⟨rfl, rfl⟩, rfl⟩ : (v₁ = v' ∧ vs₁ = vs') ∧ s₂ = s' := by simpa using he
    rw [Row.wire] at h
    by_cases hsound : t.Sound bo v
    · -- this value comes back, so another one does not
      have hok := wire_sound precision t v hsound
      rw [if_pos hok] at h
      obtain ⟨v₂, s₃, hs₃, hsame, h₃⟩ := (read_wire t v hfits.1 h fun hf =>
        absurd (hok.symm.trans hf) (by simp)).sound hsound
      obtain ⟨rfl, rfl⟩ : v₁ = v₂ ∧ s₁ = s₃ := by simpa [hs₁] using hs₃
      rcases readRow_unsound ts hfits.2 (fun hs => hun ⟨hsound, hs⟩) h₃ _ _ hs₂ with hst | hne
      · exact .inl hst
      · exact .inr fun hall => hne hall.2
    · obtain ⟨tail, hready, hfollows⟩ : ∃ tail,
          Ready s bo precision data ((t.wire bo precision v).1 ++ tail) ∧
          Follows (t.wire bo precision v).2 tail := by
        split at h
        · rename_i hok
          exact ⟨_, h, fun hf => absurd (hok.symm.trans hf) (by simp)⟩
        · exact ⟨[], by rwa [List.append_nil], fun _ => rfl⟩
      rcases (read_wire t v hfits.1 hready hfollows).unsound hsound v₁ s₁ hs₁ with hst | hne
      · exact .inl (readRow_failed ts s₁ vs₁ s₂ hs₂ hst)
      · exact .inr fun hall => hne hall.1

/-- A stream with the given settings on a device that is opened. -/
def on (bo : ByteOrder) (precision : FloatingPointPrecision)
    (readable writable unbuffered : Bool) (chunk : ChunkSize) (d : D) : DataStream B D :=
  ((new (IoDevice.opened readable writable unbuffered chunk d)).setByteOrder
    bo).setFloatingPointPrecision precision

theorem on_settings (readable writable unbuffered : Bool) (chunk : ChunkSize) (d : D) :
    Settings (on bo precision readable writable unbuffered chunk d : DataStream B D) bo
      precision := by
  refine ⟨rfl, ?_, rfl, rfl⟩
  simp only [on, setByteOrder, setFloatingPointPrecision]
  cases Host.byteOrder <;> cases bo <;> rfl

/-- The bytes that a stream writes to an empty file. -/
def written {ts : List Ty} (B : Type) [ByteQueue B] (bo : ByteOrder)
    (precision : FloatingPointPrecision) (readable unbuffered : Bool) (chunk : ChunkSize)
    (d : Holding D []) (vs : Row ts) : Bytes :=
  ByteFileDevice.file
    (writeRow ts (on bo precision readable true unbuffered chunk d.1 : DataStream B D)
      vs).device.device

/-- The values are read, the stream is at the end of the data, and the status is Ok. -/
def RoundTrips {ts : List Ty} (s : DataStream B D) (data : Bytes) (vs : Row ts) : Prop :=
  ∃ vs' s', readRow ts s = some (vs', s') ∧ Row.Same ts vs' vs ∧
    s'.device.getPosition = data.length ∧ s'.status = .ok

theorem written_eq {ts : List Ty} (readable unbuffered : Bool) (chunk : ChunkSize)
    (d : Holding D []) (vs : Sequence precision ts) :
    written B bo precision readable unbuffered chunk d vs.1 = Row.wire bo precision ts vs.1 := by
  have hopen := IoDevice.opened_holds (B := B) readable true unbuffered chunk ⟨d.1, d.2.1⟩
  have hend : AtEnd (on bo precision readable true unbuffered chunk d.1 : DataStream B D) bo
      precision [] := by
    refine ⟨on_settings readable true unbuffered chunk d.1, readable, ?_⟩
    simp only [Cursor.opened, d.2.2] at hopen
    exact hopen
  have hw := writeRow_wrote ts hend rfl vs.2
  rw [List.nil_append] at hw
  obtain ⟨_, hh⟩ := hw.holds
  exact hh.onFile.file

theorem on_ready (bo : ByteOrder) (precision : FloatingPointPrecision) (writable unbuffered : Bool)
    (chunk : ChunkSize) (d : Holding D data) :
    Ready (on bo precision true writable unbuffered chunk d.1 : DataStream B D) bo precision data
      data := by
  have hopen := IoDevice.opened_holds (B := B) true writable unbuffered chunk ⟨d.1, d.2.1⟩
  refine ⟨on_settings true writable unbuffered chunk d.1, rfl, List.suffix_refl data, writable, ?_⟩
  simp only [Cursor.opened, d.2.2] at hopen
  rw [Nat.sub_self]
  exact hopen

theorem roundTrips_wire {ts : List Ty} (vs : Sequence precision ts) (writable unbuffered : Bool)
    (chunk : ChunkSize) (d : Holding D (Row.wire bo precision ts vs.1)) :
    RoundTrips (on bo precision true writable unbuffered chunk d.1 : DataStream B D)
      (Row.wire bo precision ts vs.1) vs.1 ↔ Row.Sound bo ts vs.1 := by
  have hready := on_ready (B := B) bo precision writable unbuffered chunk d
  constructor
  · rintro ⟨vs', s', hs', hsame, -, hst⟩
    by_contra hun
    rcases readRow_unsound ts vs.2 hun hready vs' s' hs' with hst' | hne
    · exact hst' hst
    · exact hne hsame
  · intro hsound
    obtain ⟨vs', s', hs', hsame, h'⟩ := readRow_sound ts vs.2 hsound hready
    obtain ⟨_, hh⟩ := h'.holds
    exact ⟨vs', s', hs', hsame, hh.pos, h'.status⟩

variable {B' D' : Type} [ByteQueue B'] [ByteFileDevice D']

/-- A sequence of values makes the round trip exactly if each of them is sound. -/
theorem round_trips_iff {ts : List Ty} (vs : Sequence precision ts)
    (readable unbuffered : Bool) (chunk : ChunkSize) (d : Holding D [])
    (writable' unbuffered' : Bool) (chunk' : ChunkSize)
    (d' : Holding D' (written B bo precision readable unbuffered chunk d vs.1)) :
    RoundTrips (on bo precision true writable' unbuffered' chunk' d'.1 : DataStream B' D')
      (written B bo precision readable unbuffered chunk d vs.1) vs.1 ↔ Row.Sound bo ts vs.1 := by
  revert d'
  rw [written_eq]
  intro d'
  exact roundTrips_wire vs writable' unbuffered' chunk' d'

end DataStream

/-- On a little-endian machine the number 1 does not come back from a stream in its
default byte order. -/
theorem DataStream.round_trips_false :
    letI : Host := ⟨.littleEndian⟩
    ¬ ∀ (bo : ByteOrder) (precision : FloatingPointPrecision) (ts : List Ty)
      (vs : Sequence precision ts) (d : Holding MemoryFile [])
      (d' : Holding MemoryFile (written Ds.RingBuffer.Valid bo precision true false
        ⟨16384, by decide⟩ d vs.1)),
      RoundTrips (on bo precision true false false ⟨16384, by decide⟩ d'.1 :
          DataStream Ds.RingBuffer.Valid MemoryFile)
        (written Ds.RingBuffer.Valid bo precision true false ⟨16384, by decide⟩ d vs.1)
        vs.1 := by
  let _ : Host := ⟨.littleEndian⟩
  intro h
  let vs : Sequence .doublePrecision [.pint64] := ⟨(1#64, ()), trivial, trivial⟩
  have hone := h .bigEndian .doublePrecision [.pint64] vs ⟨⟨[], 0⟩, rfl, rfl⟩
  rw [written_eq] at hone
  have hsound := (roundTrips_wire vs false false ⟨16384, by decide⟩
    ⟨⟨Row.wire .bigEndian .doublePrecision [.pint64] vs.1, 0⟩, rfl, rfl⟩).mp (hone _)
  rcases hsound.1 with hbo | hhalves
  · exact absurd hbo (by simp)
  · exact absurd hhalves (by decide)

end Libpdk.Io

import Libpdk.Utils.LocaleTools

/-!
# Integers in byte arrays

`number` writes into a buffer of 66 characters, and `toInt` and its siblings read with the C
library up to the first NUL. So a text is read back (`number_exact`), and an array is converted as
its content says except where it has a NUL and the part in front of that is a number
(`integers_iff`).
-/
namespace Libpdk.Ds.ByteArray

open Numeral Utils
open Time (int64)

/-! ## Writing -/

/-- `c + (c < 10 ? '0' : b)` -/
def ulltoaSymbol (c : Nat) : UInt8 := UInt8.ofNat c + if c < 10 then byte '0' else byte 'a' - 10

/-- `slots` are left in the buffer in front of `p`.
mirrors ds/ByteArray.cpp:50-65 -/
def pdkUlltoa2 (slots n base : Nat) : Option Bytes :=
  match slots with
  | 0 => none
  | slots + 1 => ulltoaLoop ulltoaSymbol base slots (n / base) [ulltoaSymbol (n % base)]

def buffsize : Nat := 66

/-- mirrors ds/ByteArray.cpp:110-125 -/
def numberPlonglong (n : Int) (base : Nat) : Option Bytes := do
  if n < 0 ∧ base = 10 then
    let magnitude ← int64 (-(1 + n))
    let p ← pdkUlltoa2 buffsize (magnitude.toNat + 1) base
    if p.length < buffsize then some (byte '-' :: p) else none
  else pdkUlltoa2 buffsize (n % 2 ^ 64).toNat base

/-- mirrors ds/ByteArray.cpp:127-136 -/
def numberPulonglong (n base : Nat) : Option Bytes := pdkUlltoa2 buffsize n base

/-! ## Reading -/

/-- An integer type. -/
structure IntegralType where
  isUnsigned : Bool
  bits : Nat
  bits_pos : 0 < bits
  bits_le : bits ≤ 64

namespace IntegralType

/-- The numbers that a type has. -/
def Fits (T : IntegralType) (n : Int) : Prop :=
  if T.isUnsigned then 0 ≤ n ∧ n < 2 ^ T.bits else -2 ^ (T.bits - 1) ≤ n ∧ n < 2 ^ (T.bits - 1)

instance (T : IntegralType) (n : Int) : Decidable (T.Fits n) :=
  inferInstanceAs (Decidable (if T.isUnsigned then _ else _))

/-- A conversion from a 64-bit type. -/
def cast (T : IntegralType) (n : Int) : Int :=
  if T.isUnsigned then n % 2 ^ T.bits else n.bmod (2 ^ T.bits)

def short : IntegralType := ⟨false, 16, by decide, by decide⟩
def ushort : IntegralType := ⟨true, 16, by decide, by decide⟩
def int : IntegralType := ⟨false, 32, by decide, by decide⟩
def uint : IntegralType := ⟨true, 32, by decide, by decide⟩
def plonglong : IntegralType := ⟨false, 64, by decide, by decide⟩
def pulonglong : IntegralType := ⟨true, 64, by decide, by decide⟩

/-- `long` has 64 bits except on Windows. -/
def long (windows : Bool) : IntegralType := if windows then int else plonglong

def ulong (windows : Bool) : IntegralType := if windows then uint else pulonglong

end IntegralType

/-- mirrors ds/ByteArray.cpp:1358-1389 -/
def toIntegralHelper (T : IntegralType) (data : Bytes) (base : Nat) : Option (Bool × Int) := do
  let (ok, val) ← bytearrayTo T.isUnsigned data base
  if T.cast val ≠ val then some (false, T.cast 0) else some (ok, T.cast val)

/-- The array with its terminator.
mirrors ds/ByteArray.cpp:1391-1429 -/
def toIntegral (T : IntegralType) (a : Bytes) (base : Nat) : Option (Bool × Int) :=
  toIntegralHelper T (a ++ [0]) base

def toShort := toIntegral .short
def toUShort := toIntegral .ushort
def toInt := toIntegral .int
def toUInt := toIntegral .uint
def toLong (windows : Bool) := toIntegral (.long windows)
def toULong (windows : Bool) := toIntegral (.ulong windows)
def toLongLong := toIntegral .plonglong
def toULongLong := toIntegral .pulonglong

/-! ## Types -/

namespace IntegralType

/-- A number is kept by the conversion to a type that has it, and no other is. -/
theorem cast_eq_iff (T : IntegralType) {n : Int} : T.cast n = n ↔ T.Fits n := by
  rw [cast, Fits]
  split
  · have hpos : (0 : Int) < 2 ^ T.bits := by positivity
    constructor
    · intro h
      have hnonneg := Int.emod_nonneg n (b := 2 ^ T.bits) (by omega)
      have hlt := Int.emod_lt_of_pos n hpos
      omega
    · rintro ⟨hnonneg, hlt⟩
      exact Int.emod_eq_of_lt hnonneg hlt
  · obtain ⟨k, hk⟩ := Nat.exists_eq_add_of_lt T.bits_pos
    have hpow : (2 ^ T.bits : Nat) = 2 * 2 ^ (T.bits - 1) := by
      rw [hk, Nat.zero_add, Nat.add_sub_cancel, Nat.pow_succ]
      omega
    have hcast : ((2 ^ (T.bits - 1) : Nat) : Int) = 2 ^ (T.bits - 1) := by push_cast; rfl
    rw [hpow]
    generalize 2 ^ (T.bits - 1) = m at hcast ⊢
    rw [← hcast]
    constructor
    · intro h
      have hm : 0 < m := by
        rcases Nat.eq_zero_or_pos m with hm | hm
        · rw [hm] at hcast
          have hne : (0 : Int) < 2 ^ (T.bits - 1) := by positivity
          omega
        · exact hm
      have hle := Int.le_bmod (x := n) (m := 2 * m) (by omega)
      have hlt := Int.bmod_lt (x := n) (m := 2 * m) (by omega)
      omega
    · rintro ⟨hle, hlt⟩
      exact Int.bmod_eq_of_le (by omega) (by omega)

theorem cast_zero (T : IntegralType) : T.cast 0 = 0 := by
  rw [cast_eq_iff, Fits]
  split
  · exact ⟨le_refl 0, by positivity⟩
  · have hpos : (0 : Int) < 2 ^ (T.bits - 1) := by positivity
    omega

/-- A number of a type is one of the 64-bit type that is read. -/
theorem Fits.fits64 {T : IntegralType} {n : Int} (h : T.Fits n) : Fits64 T.isUnsigned n := by
  have hle := T.bits_le
  rw [Fits] at h
  rw [Fits64]
  split at h
  · next hun =>
    rw [if_pos hun]
    have hpow : (2 : Int) ^ T.bits ≤ 2 ^ 64 := pow_le_pow_right₀ (by decide) hle
    omega
  · next hun =>
    rw [if_neg hun]
    have hpow : (2 : Int) ^ (T.bits - 1) ≤ 2 ^ 63 := pow_le_pow_right₀ (by decide) (by omega)
    omega

end IntegralType

/-! ## What is written -/

theorem digitValue_ulltoaSymbol {d : Nat} (h : d < 36) : digitValue (ulltoaSymbol d) = some d := by
  have hall : ∀ d : Fin 36, digitValue (ulltoaSymbol d) = some d.val := by decide
  exact hall ⟨d, h⟩

/-- The digits that are written, at least one. -/
def writtenDigits (n base : Nat) : List Nat := digits base (n / base) ++ [n % base]

theorem pdkUlltoa2_eq {base : Nat} (hbase : 2 ≤ base) {n : Nat} (hn : n < 2 ^ 64) :
    pdkUlltoa2 buffsize n base = some ((writtenDigits n base).map ulltoaSymbol) := by
  have hlt : n / base < base ^ 65 :=
    Nat.lt_of_le_of_lt (Nat.div_le_self n base) (lt_pow_slots hbase hn)
  rw [show buffsize = 65 + 1 from rfl, pdkUlltoa2, ulltoaLoop_eq hbase 65 _ _ hlt, writtenDigits, List.map_append]
  rfl

theorem writtenDigits_lt {base : Nat} (hbase : 2 ≤ base) (n : Nat) :
    ∀ d ∈ writtenDigits n base, d < base := by
  intro d hd
  rcases List.mem_append.mp hd with hd | hd
  · exact digits_lt hbase hd
  · rw [List.mem_singleton.mp hd]
    exact Nat.mod_lt n (by omega)

/-- What is written is the number in its base. -/
theorem literal_written {base : Nat} (hbase : 2 ≤ base) (hle : base ≤ 36) (n : Nat) :
    Literal base ((writtenDigits n base).map ulltoaSymbol) n := by
  have hlt := writtenDigits_lt hbase n
  have hread : ∀ d ∈ writtenDigits n base, digitValue (ulltoaSymbol d) = some d := fun d hd =>
    digitValue_ulltoaSymbol (Nat.lt_of_lt_of_le (hlt d hd) hle)
  have hvalue : value base (digitsOf digitValue ((writtenDigits n base).map ulltoaSymbol)) = n := by
    rw [digitsOf_write hread, writtenDigits, value_concat, value_digits, Nat.mul_comm]
    exact Nat.div_add_mod n base
  have hliteral := @Literal.plain base
    ((writtenDigits n base).map ulltoaSymbol) (by omega) (by simp [writtenDigits])
    (isDigit_write hread hlt)
  rwa [hvalue] at hliteral

theorem length_written_le {base : Nat} (hbase : 2 ≤ base) {n : Nat} (hn : n < 2 ^ 64) :
    ((writtenDigits n base).map ulltoaSymbol).length ≤ 65 := by
  have hlen : (digits base (n / base)).length ≤ 64 := by
    refine length_digits_le hbase ?_
    calc n / base ≤ n := Nat.div_le_self n base
      _ < 2 ^ 64 := hn
      _ ≤ base ^ 64 := Nat.pow_le_pow_left hbase 64
  rw [List.length_map, writtenDigits, List.length_append, List.length_singleton]
  omega

/-! ## What is read -/

/-- What `toIntegral` should do with an array: a number of the type that is all of it is returned,
and anything else gives zero. -/
def Exact (T : IntegralType) (a : Bytes) (base : Nat) : Prop :=
  (∀ n, Whole T.isUnsigned base a n → T.Fits n → toIntegral T a base = some (true, n)) ∧
    ((∀ n, Whole T.isUnsigned base a n → ¬T.Fits n) → toIntegral T a base = some (false, 0))

/-- The part of an array in front of its first NUL. -/
def cString (a : Bytes) : Bytes := a.takeWhile (· ≠ 0)

theorem cString_no_nul (a : Bytes) : 0 ∉ cString a := by
  intro h
  have hne := List.mem_takeWhile_imp h
  simp at hne

theorem cString_append (a : Bytes) : ∃ tail, a ++ [0] = cString a ++ 0 :: tail := by
  induction a with
  | nil => exact ⟨[], rfl⟩
  | cons c a ih =>
    by_cases hc : c = 0
    · exact ⟨a ++ [0], by simp [cString, hc]⟩
    · obtain ⟨tail, htail⟩ := ih
      refine ⟨tail, ?_⟩
      rw [cString, List.takeWhile_cons_of_pos (by simpa using hc), List.cons_append,
        List.cons_append, htail]
      rfl

theorem cString_eq {a : Bytes} (h : 0 ∉ a) : cString a = a := by
  rw [cString, List.takeWhile_eq_self_iff]
  intro c hc
  simp only [decide_eq_true_eq]
  rintro rfl
  exact h hc

/-- The part in front of the first NUL is read, and nothing else. -/
theorem toIntegral_spec (T : IntegralType) (a : Bytes) (base : Nat) :
    (∀ n, Whole T.isUnsigned base (cString a) n → T.Fits n →
      toIntegral T a base = some (true, n)) ∧
    ((∀ n, Whole T.isUnsigned base (cString a) n → ¬T.Fits n) →
      toIntegral T a base = some (false, 0)) := by
  obtain ⟨tail, htail⟩ := cString_append a
  obtain ⟨hfits, hother⟩ :=
    @bytearrayTo_spec base _ (cString_no_nul a) tail T.isUnsigned
  rw [toIntegral, toIntegralHelper, htail]
  constructor
  · intro n hn hT
    rw [hfits n hn hT.fits64]
    have hcast := T.cast_eq_iff.mpr hT
    simp [hcast]
  · intro hnone
    by_cases hsome : ∃ n, Whole T.isUnsigned base (cString a) n ∧ Fits64 T.isUnsigned n
    · obtain ⟨n, hn, h64⟩ := hsome
      have hcast : T.cast n ≠ n := fun h => hnone n hn (T.cast_eq_iff.mp h)
      rw [hfits n hn h64]
      simp [hcast, T.cast_zero]
    · rw [hother fun n hn h64 => hsome ⟨n, hn, h64⟩]
      simp [T.cast_zero]

theorem exact_number (T : IntegralType) (a : Bytes) (base : Nat) : Exact T a base ↔
    (0 ∈ a → ∀ n, Whole T.isUnsigned base (cString a) n → ¬T.Fits n) := by
  obtain ⟨hfits, hother⟩ := toIntegral_spec T a base
  by_cases hnul : 0 ∈ a
  · have hnone : ∀ n, ¬Whole T.isUnsigned base a n := fun n hn => hn.no_nul hnul
    constructor
    · rintro ⟨-, hzero⟩ - n hn hT
      have heq := (hfits n hn hT).symm.trans (hzero fun m hm => absurd hm (hnone m))
      simp at heq
    · intro h
      exact ⟨fun n hn => absurd hn (hnone n), fun _ => hother (h hnul)⟩
  · rw [cString_eq hnul] at hfits hother
    exact ⟨fun _ h => absurd h hnul, fun _ => ⟨hfits, hother⟩⟩

/-! ## Both -/

theorem toIntegral_number {T : IntegralType} {base : Nat} {text : Bytes} {n : Int}
    (hn : Whole T.isUnsigned base text n) (hT : T.Fits n) :
    toIntegral T text base = some (true, n) := by
  have h := (toIntegral_spec T text base).1 n
  rw [cString_eq hn.no_nul] at h
  exact h hn hT

theorem whole_literal {isUnsigned : Bool} {base v : Nat} {text : Bytes} (h : Literal base text v) :
    Whole isUnsigned base text v :=
  ⟨false, v, ⟨[], [], text, rfl, by simp, h, .inl rfl⟩, fun _ => rfl, rfl⟩

/-- Every number is read back, in every base. -/
theorem numberPulonglong_read {base : Nat} (hbase : 2 ≤ base) (hle : base ≤ 36) {n : Nat}
    (hn : n < 2 ^ 64) :
    (numberPulonglong n base).bind (toULongLong · base) = some (true, (n : Int)) := by
  rw [numberPulonglong, pdkUlltoa2_eq hbase hn, Option.bind_some]
  refine toIntegral_number (T := .pulonglong) (whole_literal (literal_written hbase hle n)) ?_
  show 0 ≤ (n : Int) ∧ (n : Int) < 2 ^ 64
  omega

theorem numberPlonglong_read {base : Nat} (hbase : 2 ≤ base) (hle : base ≤ 36) {n : Int}
    (hlow : -2 ^ 63 ≤ n) (hhigh : n < 2 ^ 63) (hn : 0 ≤ n ∨ base = 10) :
    (numberPlonglong n base).bind (toLongLong · base) = some (true, n) := by
  have hT : IntegralType.plonglong.Fits n := ⟨hlow, hhigh⟩
  rw [numberPlonglong]
  split
  · next hneg =>
    obtain ⟨hneg, rfl⟩ := hneg
    have hmagnitude : (-(1 + n)).toNat + 1 = n.natAbs := by omega
    have hlt : n.natAbs < 2 ^ 64 := by omega
    have hlen := @length_written_le 10 (by decide) _ hlt
    rw [Time.int64_bind (by omega) (by omega), hmagnitude, pdkUlltoa2_eq (by decide) hlt]
    simp only [Option.bind_eq_bind, Option.bind_some]
    rw [if_pos (by rw [buffsize]; omega), Option.bind_some]
    refine toIntegral_number (T := .plonglong) ?_ hT
    refine ⟨true, n.natAbs, ⟨[], [byte '-'], _, rfl, by simp,
      literal_written (by decide) (by decide) _, rfl⟩, fun h => absurd h (by decide), ?_⟩
    rw [if_pos rfl]
    omega
  · next hpos =>
    have hnonneg : 0 ≤ n := by
      rcases hn with hn | hn
      · exact hn
      · by_contra hneg
        exact hpos ⟨by omega, hn⟩
    have hmod : (n % 2 ^ 64).toNat = n.toNat := by omega
    rw [hmod, pdkUlltoa2_eq hbase (by omega), Option.bind_some]
    refine toIntegral_number (T := .plonglong) ?_ hT
    have hwhole := @whole_literal false _ _ _ (literal_written hbase hle n.toNat)
    rwa [Int.toNat_of_nonneg hnonneg] at hwhole

/-- Integers are written and read back exactly; an array is converted as its content says if and
only if it has no NUL, or what is in front of its first NUL is no number of the type. -/
theorem integers_iff (T : IntegralType) (a : Bytes) (base : Nat)
    (_hbase : base = 0 ∨ (2 ≤ base ∧ base ≤ 36)) :
    (∀ base, 2 ≤ base → base ≤ 36 →
      (∀ n < 2 ^ 64, (numberPulonglong n base).bind (toULongLong · base) = some (true, (n : Int))) ∧
      (∀ n : Int, -2 ^ 63 ≤ n → n < 2 ^ 63 → 0 ≤ n ∨ base = 10 →
        (numberPlonglong n base).bind (toLongLong · base) = some (true, n))) ∧
    (Exact T a base ↔ (0 ∈ a → ∀ n, Whole T.isUnsigned base (cString a) n → ¬T.Fits n)) :=
  ⟨fun _ hbase hle => ⟨fun _ hn => numberPulonglong_read hbase hle hn,
    fun _ hlow hhigh hn => numberPlonglong_read hbase hle hlow hhigh hn⟩,
    exact_number T a base⟩

/-- A number in base 16, and an array that is one with a sign. -/
theorem integers_iff_hex :
    (numberPulonglong 255 16).bind (toULongLong · 16) = some (true, 255) ∧
      Exact .int [byte '-', byte '0', byte 'x', byte 'F'] 16 := by
  obtain ⟨hnumber, hexact⟩ := integers_iff .int [byte '-', byte '0', byte 'x', byte 'F'] 16
    (.inr ⟨by decide, by decide⟩)
  exact ⟨(hnumber 16 (by decide) (by decide)).1 255 (by decide),
    hexact.mpr fun h => absurd h (by decide)⟩

/-- `12` and a NUL is converted to 12. -/
theorem toInt_nul : toInt [byte '1', byte '2', 0] 10 = some (true, 12) ∧
    ¬Exact .int [byte '1', byte '2', 0] 10 := by
  refine ⟨by decide +kernel, fun h => ?_⟩
  have hnone := h.2 fun n hn => absurd hn.no_nul (by decide)
  exact absurd hnone (by decide +kernel)

end Libpdk.Ds.ByteArray

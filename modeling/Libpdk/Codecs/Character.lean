import Libpdk.Core.Unicode

/-!
# Code units and code points

The tests of `Character` that the codecs use; a `char32_t` is a number below 2^32.
`isSurrogate` takes U+E000 to U+F847 for surrogates as well (`isSurrogate_iff`):
the range it tests has 0x2048 numbers and not 2048.
-/
namespace Libpdk.Codecs

open Unicode

namespace Character

def minHighSurrogate : Nat := 0xd800

def minLowSurrogate : Nat := 0xdc00

def surrogateRange : Nat := 0x2048

def surrogateMask : Nat := 0xfffffc00

def lastValidCodePoint : Nat := 0x10ffff

def byteOrderMark : UInt16 := 0xfeff

def byteOrderSwapped : UInt16 := 0xfffe

/-- mirrors lang/Character.h:611-614 -/
def isHighSurrogate (ucs4 : Nat) : Bool := ucs4 &&& surrogateMask == minHighSurrogate

/-- mirrors lang/Character.h:616-619 -/
def isLowSurrogate (ucs4 : Nat) : Bool := ucs4 &&& surrogateMask == minLowSurrogate

/-- The difference is unsigned.
mirrors lang/Character.h:621-624 -/
def isSurrogate (ucs4 : Nat) : Bool :=
  decide ((ucs4 + 4294967296 - minHighSurrogate) % 4294967296 < surrogateRange)

/-- mirrors lang/Character.h:626-629 -/
def requiresSurrogates (ucs4 : Nat) : Bool := decide (ucs4 ≥ 0x10000)

/-- mirrors lang/Character.h:631-647 -/
def surrogateToUcs4 (high low : UInt16) : Nat :=
  ((high.toNat <<< 10) + low.toNat + 4294967296 - 0x35fdc00) % 4294967296

/-- mirrors lang/Character.h:649-654 -/
def getHighSurrogate (ucs4 : Nat) : UInt16 := UInt16.ofNat (ucs4 >>> 10) + 0xd7c0

/-- mirrors lang/Character.h:656-661 -/
def getLowSurrogate (ucs4 : Nat) : UInt16 := UInt16.ofNat (ucs4 % 0x400 + minLowSurrogate)

/-! ## What they test -/

theorem and_surrogateMask {n : Nat} (h : n < 4294967296) :
    n &&& surrogateMask = n / 1024 * 1024 := by
  have hdiv : (n &&& surrogateMask) / 2 ^ 10 = n / 2 ^ 10 := by
    rw [Nat.and_div_two_pow]
    have hm : surrogateMask / 2 ^ 10 = 2 ^ 22 - 1 := rfl
    rw [hm, Nat.and_two_pow_sub_one_eq_mod, Nat.mod_eq_of_lt (by omega)]
  have hmod : (n &&& surrogateMask) % 2 ^ 10 = 0 := by
    rw [Nat.and_mod_two_pow, show surrogateMask % 2 ^ 10 = 0 from rfl, Nat.and_zero]
  omega

theorem isHighSurrogate_iff {n : Nat} (h : n < 4294967296) :
    isHighSurrogate n = true ↔ 0xd800 ≤ n ∧ n < 0xdc00 := by
  rw [isHighSurrogate, and_surrogateMask h, beq_iff_eq, minHighSurrogate]
  omega

theorem isLowSurrogate_iff {n : Nat} (h : n < 4294967296) :
    isLowSurrogate n = true ↔ 0xdc00 ≤ n ∧ n < 0xe000 := by
  rw [isLowSurrogate, and_surrogateMask h, beq_iff_eq, minLowSurrogate]
  omega

theorem isSurrogate_iff {n : Nat} (h : n < 4294967296) :
    isSurrogate n = true ↔ 0xd800 ≤ n ∧ n < 0xf848 := by
  rw [isSurrogate, decide_eq_true_eq, minHighSurrogate, surrogateRange]
  omega

theorem requiresSurrogates_iff {n : Nat} : requiresSurrogates n = true ↔ 0x10000 ≤ n := by
  rw [requiresSurrogates, decide_eq_true_eq]

theorem not_requiresSurrogates (c : UInt16) : requiresSurrogates c.toNat = false := by
  have hlt := c.toNat_lt
  rw [← Bool.not_eq_true, requiresSurrogates_iff]
  omega

theorem surrogateToUcs4_eq {high low : UInt16} (hh : 0xd800 ≤ high.toNat)
    (hl : 0xdc00 ≤ low.toNat) (hh' : high.toNat < 0xdc00) (hl' : low.toNat < 0xe000) :
    surrogateToUcs4 high low =
      0x10000 + (high.toNat - 0xd800) * 0x400 + (low.toNat - 0xdc00) := by
  rw [surrogateToUcs4, Nat.shiftLeft_eq]
  omega

theorem getHighSurrogate_eq {n : Nat} (h : 0x10000 ≤ n) (h' : n < 0x110000) :
    getHighSurrogate n = UInt16.ofNat (0xd800 + (n - 0x10000) / 0x400) := by
  rw [getHighSurrogate, Nat.shiftRight_eq_div_pow, ← UInt16.toNat_inj, UInt16.toNat_add,
    toNat_ofNat16 (by omega), toNat_ofNat16 (by omega)]
  simp only [UInt16.reduceToNat]
  omega

theorem getLowSurrogate_eq (n : Nat) : getLowSurrogate n = UInt16.ofNat (0xdc00 + n % 0x400) := by
  rw [getLowSurrogate, minLowSurrogate, Nat.add_comm]

/-! ## Scalar values -/

/-- A scalar value that is taken for a surrogate. -/
def Mistaken (c : Char) : Prop := isSurrogate c.toNat = true

instance : DecidablePred Mistaken := fun _ => inferInstanceAs (Decidable (_ = true))

theorem mistaken_iff (c : Char) : Mistaken c ↔ 0xe000 ≤ c.toNat ∧ c.toNat < 0xf848 := by
  have hc := scalar c
  rw [Mistaken, isSurrogate_iff (by omega)]
  omega

/-- The surrogates of a scalar value outside the first plane. -/
theorem surrogates {c : Char} (h : 0x10000 ≤ c.toNat) :
    units c = [getHighSurrogate c.toNat, getLowSurrogate c.toNat] := by
  have hc := scalar c
  rw [units_of_ge h, getHighSurrogate_eq h (by omega), getLowSurrogate_eq]

end Character

end Libpdk.Codecs

import Mathlib.Data.List.Lex
import Mathlib.Tactic.Ring

/-!
# Bytes and UTF-16

`Bytes` is a `ByteArray`, `Str` a `String` of UTF-16 code units. Strings are
ordered as `unicode_strcmp` orders them: by the first code unit that differs,
then by length.
-/
namespace Libpdk

abbrev Bytes := List UInt8

abbrev Str := List UInt16

instance instLinearOrderUInt16 : LinearOrder UInt16 where
  le_refl := UInt16.le_refl
  le_trans _ _ _ := UInt16.le_trans
  le_antisymm _ _ := UInt16.le_antisymm
  le_total := UInt16.le_total
  lt_iff_le_not_ge a b := by simp only [UInt16.lt_iff_toNat_lt, UInt16.le_iff_toNat_le]; omega
  toDecidableLE := inferInstance

/-- An ASCII character as a byte. -/
abbrev byte (c : Char) : UInt8 := UInt8.ofNat c.toNat

/-- An ASCII character as a code unit. -/
abbrev unit (c : Char) : UInt16 := UInt16.ofNat c.toNat

/-- An ASCII literal. -/
def lit (s : String) : Bytes := s.toList.map byte

/-- An ASCII literal as a string. -/
def lit16 (s : String) : Str := s.toList.map unit

/-- `Latin1String(a)`: each byte becomes the code unit of that number. -/
def latin1 (a : Bytes) : Str := a.map UInt8.toUInt16

/-- `toLatin1()` on code units up to 0xFF; the others become a question mark.
mirrors lang/String.cpp:646-676 -/
def toLatin1 (s : Str) : Bytes := s.map fun c => if 0xFF < c then byte '?' else c.toUInt8

@[simp] theorem toLatin1_latin1 (a : Bytes) : toLatin1 (latin1 a) = a := by
  simp only [toLatin1, latin1, List.map_map]
  conv_rhs => rw [← List.map_id a]
  refine List.map_congr_left fun b _ => ?_
  have hb := b.toNat_lt
  have hn : ¬ (0xFF : UInt16) < b.toUInt16 := by
    rw [UInt16.lt_iff_toNat_lt, UInt8.toNat_toUInt16]
    simp only [UInt16.reduceToNat]
    omega
  simp only [Function.comp_apply, if_neg hn, id_eq]
  apply UInt8.toNat_inj.mp
  simp

@[simp] theorem latin1_append (a b : Bytes) : latin1 (a ++ b) = latin1 a ++ latin1 b :=
  List.map_append

@[simp] theorem latin1_nil : latin1 [] = [] := rfl

end Libpdk

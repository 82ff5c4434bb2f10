import Libpdk.Core.Text

/-!
# UTF-8 and UTF-16

A text is a list of scalar values (`Char`). `utf8` and `utf16` are its two encodings;
a byte sequence is valid UTF-8 and a string is well-formed UTF-16 where it is the
encoding of a text. `Utf8.Reads` is what a decoder makes of any bytes: the scalar
values that are encoded there, and one U+FFFD for each byte where none is.
-/
namespace Libpdk.Unicode

/-- One code unit, or a surrogate pair. -/
def units (c : Char) : Str :=
  if c.toNat < 0x10000 then [UInt16.ofNat c.toNat]
  else [UInt16.ofNat (0xd800 + (c.toNat - 0x10000) / 0x400),
    UInt16.ofNat (0xdc00 + c.toNat % 0x400)]

def bytes (c : Char) : Bytes := String.utf8EncodeChar c

def utf16 (text : List Char) : Str := text.flatMap units

def utf8 (text : List Char) : Bytes := text.flatMap bytes

@[simp] theorem utf16_nil : utf16 [] = [] := rfl

@[simp] theorem utf8_nil : utf8 [] = [] := rfl

@[simp] theorem utf16_cons (c : Char) (text : List Char) :
    utf16 (c :: text) = units c ++ utf16 text := List.flatMap_cons

@[simp] theorem utf8_cons (c : Char) (text : List Char) :
    utf8 (c :: text) = bytes c ++ utf8 text := List.flatMap_cons

@[simp] theorem utf16_append (t t' : List Char) : utf16 (t ++ t') = utf16 t ++ utf16 t' :=
  List.flatMap_append

@[simp] theorem utf8_append (t t' : List Char) : utf8 (t ++ t') = utf8 t ++ utf8 t' :=
  List.flatMap_append

/-- A scalar value is no surrogate. -/
theorem scalar (c : Char) :
    c.toNat < 0xd800 ∨ (0xdfff < c.toNat ∧ c.toNat < 0x110000) := c.valid

theorem eq_of_toNat {c d : Char} (h : c.toNat = d.toNat) : c = d :=
  Char.ext (UInt32.toNat_inj.mp h)

/-- The scalar value of a number that is one. -/
theorem exists_char {n : Nat} (h : n < 0xd800 ∨ (0xdfff < n ∧ n < 0x110000)) :
    ∃ c : Char, c.toNat = n := by
  have hn : (UInt32.ofNat n).toNat = n :=
    UInt32.toNat_ofNat_of_lt' (by simp only [UInt32.size]; omega)
  refine ⟨⟨UInt32.ofNat n, ?_⟩, hn⟩
  rw [UInt32.isValidChar, hn]
  exact h

/-! ## UTF-16 -/

theorem units_of_lt {c : Char} (h : c.toNat < 0x10000) : units c = [UInt16.ofNat c.toNat] :=
  if_pos h

theorem units_of_ge {c : Char} (h : 0x10000 ≤ c.toNat) :
    units c = [UInt16.ofNat (0xd800 + (c.toNat - 0x10000) / 0x400),
      UInt16.ofNat (0xdc00 + c.toNat % 0x400)] :=
  if_neg (by omega)

theorem units_ne_nil (c : Char) : units c ≠ [] := by
  rw [units]
  split <;> simp

theorem toNat_ofNat16 {n : Nat} (h : n < 0x10000) : (UInt16.ofNat n).toNat = n :=
  UInt16.toNat_ofNat_of_lt h

theorem toNat_ofNat8 {n : Nat} (h : n < 0x100) : (UInt8.ofNat n).toNat = n :=
  UInt8.toNat_ofNat_of_lt h

theorem ofNat8_eq {n : Nat} {b : UInt8} (h : n = b.toNat) : UInt8.ofNat n = b := by
  rw [h, UInt8.ofNat_toNat]

/-- The first unit tells whether there is a second one. -/
theorem units_append_inj {c d : Char} {s t : Str} (h : units c ++ s = units d ++ t) :
    c = d ∧ s = t := by
  have hc := scalar c
  have hd := scalar d
  by_cases hc' : c.toNat < 0x10000 <;> by_cases hd' : d.toNat < 0x10000
  · rw [units_of_lt hc', units_of_lt hd', List.singleton_append, List.singleton_append,
      List.cons.injEq, ← UInt16.toNat_inj, toNat_ofNat16 hc', toNat_ofNat16 hd'] at h
    exact ⟨eq_of_toNat h.1, h.2⟩
  · rw [units_of_lt hc', units_of_ge (by omega), List.singleton_append, List.cons_append,
      List.cons.injEq, ← UInt16.toNat_inj, toNat_ofNat16 hc', toNat_ofNat16 (by omega)] at h
    omega
  · rw [units_of_ge (by omega), units_of_lt hd', List.singleton_append, List.cons_append,
      List.cons.injEq, ← UInt16.toNat_inj, toNat_ofNat16 hd', toNat_ofNat16 (by omega)] at h
    omega
  · rw [units_of_ge (by omega), units_of_ge (by omega)] at h
    simp only [List.cons_append, List.nil_append, List.cons.injEq, ← UInt16.toNat_inj] at h
    rw [toNat_ofNat16 (by omega), toNat_ofNat16 (by omega), toNat_ofNat16 (by omega),
      toNat_ofNat16 (by omega)] at h
    exact ⟨eq_of_toNat (by omega), h.2.2⟩

theorem utf16_inj : ∀ {t t' : List Char}, utf16 t = utf16 t' → t = t'
  | [], [], _ => rfl
  | [], c :: t, h => absurd h.symm (by simp [units_ne_nil])
  | c :: t, [], h => absurd h (by simp [units_ne_nil])
  | c :: t, d :: t', h => by
    rw [utf16_cons, utf16_cons] at h
    obtain ⟨hc, ht⟩ := units_append_inj h
    rw [hc, utf16_inj ht]

/-! ## UTF-8 -/

/-- The four forms of an encoded scalar value. -/
theorem bytes_cases (c : Char) :
    (c.toNat < 0x80 ∧ bytes c = [UInt8.ofNat c.toNat]) ∨
    (0x80 ≤ c.toNat ∧ c.toNat < 0x800 ∧
      bytes c = [UInt8.ofNat (0xc0 + c.toNat / 0x40), UInt8.ofNat (0x80 + c.toNat % 0x40)]) ∨
    (0x800 ≤ c.toNat ∧ c.toNat < 0x10000 ∧
      bytes c = [UInt8.ofNat (0xe0 + c.toNat / 0x1000),
        UInt8.ofNat (0x80 + c.toNat / 0x40 % 0x40), UInt8.ofNat (0x80 + c.toNat % 0x40)]) ∨
    (0x10000 ≤ c.toNat ∧ c.toNat < 0x110000 ∧
      bytes c = [UInt8.ofNat (0xf0 + c.toNat / 0x40000),
        UInt8.ofNat (0x80 + c.toNat / 0x1000 % 0x40),
        UInt8.ofNat (0x80 + c.toNat / 0x40 % 0x40), UInt8.ofNat (0x80 + c.toNat % 0x40)]) := by
  have hc := scalar c
  simp only [bytes, String.utf8EncodeChar, show c.val.toNat = c.toNat from rfl]
  rcases Nat.lt_or_ge c.toNat 0x80 with h | h
  · exact .inl ⟨h, if_pos (by omega)⟩
  rcases Nat.lt_or_ge c.toNat 0x800 with h' | h'
  · refine .inr (.inl ⟨h, h', ?_⟩)
    rw [if_neg (by omega), if_pos (by omega), Nat.add_comm (_ % _), Nat.add_comm (_ % _),
      Nat.mod_eq_of_lt (a := _ / 64) (by omega)]
  rcases Nat.lt_or_ge c.toNat 0x10000 with h'' | h''
  · refine .inr (.inr (.inl ⟨h', h'', ?_⟩))
    rw [if_neg (by omega), if_neg (by omega), if_pos (by omega), Nat.add_comm (_ % _),
      Nat.add_comm (_ % _), Nat.add_comm (_ % _), Nat.mod_eq_of_lt (a := _ / 4096) (by omega)]
  · refine .inr (.inr (.inr ⟨h'', by omega, ?_⟩))
    rw [if_neg (by omega), if_neg (by omega), if_neg (by omega), Nat.add_comm (_ % _),
      Nat.add_comm (_ % _), Nat.add_comm (_ % _), Nat.add_comm (_ % _),
      Nat.mod_eq_of_lt (a := _ / 262144) (by omega)]

theorem bytes_one {c : Char} (h : c.toNat < 0x80) : bytes c = [UInt8.ofNat c.toNat] := by
  rcases bytes_cases c with h' | h' | h' | h'
  · exact h'.2
  all_goals omega

theorem bytes_two {c : Char} (h : 0x80 ≤ c.toNat) (hlt : c.toNat < 0x800) :
    bytes c = [UInt8.ofNat (0xc0 + c.toNat / 0x40), UInt8.ofNat (0x80 + c.toNat % 0x40)] := by
  rcases bytes_cases c with h' | h' | h' | h'
  case inr.inl => exact h'.2.2
  all_goals omega

theorem bytes_three {c : Char} (h : 0x800 ≤ c.toNat) (hlt : c.toNat < 0x10000) :
    bytes c = [UInt8.ofNat (0xe0 + c.toNat / 0x1000),
      UInt8.ofNat (0x80 + c.toNat / 0x40 % 0x40), UInt8.ofNat (0x80 + c.toNat % 0x40)] := by
  rcases bytes_cases c with h' | h' | h' | h'
  case inr.inr.inl => exact h'.2.2
  all_goals omega

theorem bytes_four {c : Char} (h : 0x10000 ≤ c.toNat) :
    bytes c = [UInt8.ofNat (0xf0 + c.toNat / 0x40000),
      UInt8.ofNat (0x80 + c.toNat / 0x1000 % 0x40),
      UInt8.ofNat (0x80 + c.toNat / 0x40 % 0x40), UInt8.ofNat (0x80 + c.toNat % 0x40)] := by
  rcases bytes_cases c with h' | h' | h' | h'
  case inr.inr.inr => exact h'.2.2
  all_goals omega

theorem bytes_ne_nil (c : Char) : bytes c ≠ [] := String.utf8EncodeChar_ne_nil

/-- The first byte tells how many there are. -/
theorem bytes_append_inj {c d : Char} {s t : Bytes} (h : bytes c ++ s = bytes d ++ t) :
    c = d ∧ s = t := by
  rcases bytes_cases c with ⟨hc, e⟩ | ⟨hc, hc', e⟩ | ⟨hc, hc', e⟩ | ⟨hc, hc', e⟩ <;>
  rcases bytes_cases d with ⟨hd, e'⟩ | ⟨hd, hd', e'⟩ | ⟨hd, hd', e'⟩ | ⟨hd, hd', e'⟩ <;>
  rw [e, e'] at h <;>
  simp only [List.cons_append, List.nil_append, List.cons.injEq, ← UInt8.toNat_inj,
    UInt8.toNat_ofNat'] at h
  case inl.inl => exact ⟨eq_of_toNat (by omega), h.2⟩
  case inr.inl.inr.inl => exact ⟨eq_of_toNat (by omega), h.2.2⟩
  case inr.inr.inl.inr.inr.inl => exact ⟨eq_of_toNat (by omega), h.2.2.2⟩
  case inr.inr.inr.inr.inr.inr => exact ⟨eq_of_toNat (by omega), h.2.2.2.2⟩
  all_goals omega

theorem bytes_prefix_inj {c d : Char} {b : Bytes} (h : bytes c <+: b) (h' : bytes d <+: b) :
    c = d := by
  obtain ⟨s, hs⟩ := h
  obtain ⟨t, ht⟩ := h'
  exact (bytes_append_inj (hs.trans ht.symm)).1

theorem utf8_inj : ∀ {t t' : List Char}, utf8 t = utf8 t' → t = t'
  | [], [], _ => rfl
  | [], c :: t, h => absurd h.symm (by simp [bytes_ne_nil])
  | c :: t, [], h => absurd h (by simp [bytes_ne_nil])
  | c :: t, d :: t', h => by
    rw [utf8_cons, utf8_cons] at h
    obtain ⟨hc, ht⟩ := bytes_append_inj h
    rw [hc, utf8_inj ht]

/-! ## Decoding any bytes -/

def replacement : UInt16 := 0xfffd

/-- The bytes are decoded from the front: a scalar value that is encoded there is read, where
none is one byte is replaced. -/
inductive Reads : Bytes → Str → Prop
  | nil : Reads [] []
  | char (c : Char) {b : Bytes} {s : Str} (h : Reads b s) : Reads (bytes c ++ b) (units c ++ s)
  | invalid {x : UInt8} {b : Bytes} {s : Str} (hx : ∀ c, ¬ bytes c <+: x :: b) (h : Reads b s) :
    Reads (x :: b) (replacement :: s)

end Libpdk.Unicode

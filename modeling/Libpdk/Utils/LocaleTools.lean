import Libpdk.Core.Numeral
import Libpdk.Core.Text
import Libpdk.Time.Calendar

/-!
# Integers and text

`std::strtoll` and `std::strtoull` as the C standard has them in the C locale, and what
`LocaleTools` makes of them. A pointer into a text is the memory from there on; where that ends
before the text does, reading it is undefined and the result is `none`.

`subject_whole` says when a number is all there is up to the terminator.
-/
namespace Libpdk.Utils

open Numeral
open Time (int64)

/-! ## The C library -/

/-- `isspace` in the C locale. -/
def isspace (c : UInt8) : Bool := c == 32 || (9 ≤ c && c ≤ 13)

/-- What a character is worth as a digit. -/
def digitValue (c : UInt8) : Option Nat :=
  if byte '0' ≤ c ∧ c ≤ byte '9' then some (c.toNat - 48)
  else if byte 'a' ≤ c ∧ c ≤ byte 'z' then some (c.toNat - 97 + 10)
  else if byte 'A' ≤ c ∧ c ≤ byte 'Z' then some (c.toNat - 65 + 10)
  else none

/-- An optional sign: whether it is a minus, and what is behind it. -/
def splitSign : Bytes → Bool × Bytes
  | [] => (false, [])
  | c :: m => if c = byte '-' then (true, m) else (false, if c = byte '+' then m else c :: m)

/-- An `0x` with a digit behind it. -/
def hexMark : Bytes → Bool
  | z :: x :: c :: _ =>
    z == byte '0' && (x == byte 'x' || x == byte 'X') && isDigit digitValue 16 c
  | _ => false

/-- The parts of a number, and the memory behind it. -/
structure Subject where
  negative : Bool
  base : Nat
  digits : Bytes
  rest : Bytes

def Subject.magnitude (s : Subject) : Nat := value s.base (digitsOf digitValue s.digits)

def Subject.number (s : Subject) : Int := if s.negative then -s.magnitude else s.magnitude

/-- The base, and where the digits begin. Base 0 stands for the one that a C constant has. -/
def numeralAt (base : Nat) (m : Bytes) : Nat × Bytes :=
  if (base = 0 || base = 16) && hexMark m then (16, m.drop 2)
  else (if base = 0 then if m.head? = some (byte '0') then 8 else 10 else base, m)

/-- The subject sequence. -/
def subject (base : Nat) (nptr : Bytes) : Subject :=
  let (negative, m) := splitSign (nptr.dropWhile isspace)
  let (b, m) := numeralAt base m
  ⟨negative, b, run digitValue b m, behind digitValue b m⟩

/-- What a conversion returns, the pointer that it stores, and whether `errno` is `ERANGE`. -/
structure Conversion where
  result : Int
  endptr : Bytes
  erange : Bool

def strtoull (nptr : Bytes) (base : Nat) : Option Conversion :=
  let s := subject base nptr
  if s.rest = [] then none
  else if s.digits = [] then some ⟨0, nptr, false⟩
  else if 2 ^ 64 ≤ s.magnitude then some ⟨2 ^ 64 - 1, s.rest, true⟩
  else some ⟨if s.negative then (2 ^ 64 - s.magnitude : Int) % 2 ^ 64 else s.magnitude, s.rest, false⟩

def strtoll (nptr : Bytes) (base : Nat) : Option Conversion :=
  let s := subject base nptr
  if s.rest = [] then none
  else if s.digits = [] then some ⟨0, nptr, false⟩
  else if s.number < -2 ^ 63 then some ⟨-2 ^ 63, s.rest, true⟩
  else if 2 ^ 63 ≤ s.number then some ⟨2 ^ 63 - 1, s.rest, true⟩
  else some ⟨s.number, s.rest, false⟩

/-! ## Reading -/

/-- mirrors kernel/StringUtils.h:73-83 -/
def asciiIsspace (c : UInt8) : Bool := 1 ≤ c && c ≤ 32 && (0x80001F00 >>> (c.toNat - 1)) &&& 1 == 1

/-- What the functions below return, with the pointer that they store, if any. -/
structure Parsed where
  ok : Bool
  value : Int
  endptr : Option Bytes

/-- mirrors utils/LocaleTools.cpp:314-341 -/
def pdkStrtoull (nptr : Bytes) (base : Nat) : Option Parsed := do
  let c ← (nptr.dropWhile asciiIsspace).head?
  if c = byte '-' then some ⟨false, 0, none⟩
  else
    let r ← strtoull nptr base
    if (r.result = 0 ∨ r.result = 2 ^ 64 - 1) ∧ (r.erange ∨ r.endptr = nptr) then
      some ⟨false, 0, some r.endptr⟩
    else some ⟨true, r.result, some r.endptr⟩

/-- mirrors utils/LocaleTools.cpp:343-360 -/
def pdkStrtoll (nptr : Bytes) (base : Nat) : Option Parsed := do
  let r ← strtoll nptr base
  if (r.result = 0 ∨ r.result = -2 ^ 63 ∨ r.result = 2 ^ 63 - 1) ∧ (r.erange ∨ nptr = r.endptr) then
    some ⟨false, 0, some r.endptr⟩
  else some ⟨true, r.result, some r.endptr⟩

/-! ## Writing -/

/-- The loop that writes a number into memory, from the end on: `slots` are left in front of what
is written. -/
def ulltoaLoop {α : Type} (symbol : Nat → α) (base : Nat) : Nat → Nat → List α → Option (List α)
  | slots, l, text =>
    if l = 0 then some text
    else match slots with
      | 0 => none
      | slots + 1 => ulltoaLoop symbol base slots (l / base) (symbol (l % base) :: text)

/-- The digits of the C locale. -/
def asciiSymbol (c : Nat) : UInt16 :=
  if c < 10 then unit '0' + UInt16.ofNat c else UInt16.ofNat c - 10 + unit 'a'

/-- mirrors utils/LocaleTools.cpp:362-386 -/
def pdkUlltoa (l base : Nat) (zero : UInt16) : Option Str :=
  if base ≠ 10 ∨ zero = unit '0' then ulltoaLoop asciiSymbol base 65 l []
  else ulltoaLoop (fun c => zero + UInt16.ofNat c) base 65 l []

/-- mirrors utils/LocaleTools.cpp:388-391 -/
def pdkLltoa (l : Int) (base : Nat) (zero : UInt16) : Option Str := do
  let magnitude ← if l < 0 then int64 (-l) else some l
  pdkUlltoa magnitude.toNat base zero

/-! ## Numbers in a byte array -/

/-- "we stopped at a non-digit character after converting some digits" -/
def Parsed.whole (l : Parsed) : Option (Bool × Int) := do
  if !l.ok then some (false, 0)
  else if (← (← l.endptr).head?) ≠ 0 then some (false, 0)
  else some (true, l.value)

/-- mirrors utils/Locale.cpp:2708-2741 -/
def bytearrayToLongLong (num : Bytes) (base : Nat) : Option (Bool × Int) := do
  if (← num.head?) = 0 then some (false, 0) else (← pdkStrtoll num base).whole

/-- mirrors utils/Locale.cpp:2743-2759 -/
def bytearrayToUnsLongLong (num : Bytes) (base : Nat) : Option (Bool × Int) := do
  (← pdkStrtoull num base).whole

/-! ## What is written -/

section

variable {α : Type} {symbol : Nat → α} {base : Nat}

theorem ulltoaLoop_eq (hbase : 2 ≤ base) : ∀ (slots l : Nat) (text : List α), l < base ^ slots →
    ulltoaLoop symbol base slots l text = some ((digits base l).map symbol ++ text)
  | 0, l, text, hl => by
    have hzero : l = 0 := by simpa using hl
    rw [ulltoaLoop, if_pos hzero, hzero, digits_zero]
    rfl
  | slots + 1, l, text, hl => by
    rw [ulltoaLoop]
    split
    · next hzero =>
      rw [hzero, digits_zero]
      rfl
    · next hne =>
      have hdiv : l / base < base ^ slots := Nat.div_lt_of_lt_mul (by rwa [← Nat.pow_succ'])
      rw [ulltoaLoop_eq hbase slots _ _ hdiv, digits_step hbase hne, List.map_append,
        List.append_assoc]
      rfl

end

theorem lt_pow_slots {base l : Nat} (hbase : 2 ≤ base) (hl : l < 2 ^ 64) : l < base ^ 65 :=
  calc l < 2 ^ 64 := hl
    _ ≤ 2 ^ 65 := Nat.pow_le_pow_right (by decide) (by decide)
    _ ≤ base ^ 65 := Nat.pow_le_pow_left hbase 65

/-- The digits that `pdk_ulltoa` writes. -/
def localeSymbol (base : Nat) (zero : UInt16) : Nat → UInt16 :=
  if base ≠ 10 ∨ zero = unit '0' then asciiSymbol else fun c => zero + UInt16.ofNat c

theorem pdkUlltoa_eq {base l : Nat} (hbase : 2 ≤ base) (hl : l < 2 ^ 64) (zero : UInt16) :
    pdkUlltoa l base zero = some ((digits base l).map (localeSymbol base zero)) := by
  have hlt := lt_pow_slots hbase hl
  rw [pdkUlltoa, localeSymbol]
  split
  · rw [ulltoaLoop_eq hbase 65 l [] hlt, List.append_nil]
  · rw [ulltoaLoop_eq hbase 65 l [] hlt, List.append_nil]

/-- Only the absolute value of the most negative number overflows. -/
theorem pdkLltoa_eq {base : Nat} {l : Int} (hbase : 2 ≤ base) (hlow : -2 ^ 63 < l)
    (hhigh : l < 2 ^ 63) (zero : UInt16) :
    pdkLltoa l base zero = some ((digits base l.natAbs).map (localeSymbol base zero)) := by
  have hl : l.natAbs < 2 ^ 64 := by omega
  rw [pdkLltoa]
  split
  · next hneg =>
    have heq : (-l).toNat = l.natAbs := by omega
    rw [Time.int64_bind (by omega) (by omega), ← pdkUlltoa_eq hbase hl zero, ← heq]
  · next hpos =>
    have heq : l.toNat = l.natAbs := by omega
    rw [Option.bind_eq_bind, Option.bind_some, ← pdkUlltoa_eq hbase hl zero, ← heq]

/-! ## What is read -/

theorem asciiIsspace_eq (c : UInt8) : asciiIsspace c = isspace c := by
  by_cases hc : c.toNat < 33
  · have hall : ∀ n : Fin 33, asciiIsspace (UInt8.ofNat n) = isspace (UInt8.ofNat n) := by decide
    have h := hall ⟨c.toNat, hc⟩
    rwa [UInt8.ofNat_toNat] at h
  · rw [Bool.eq_iff_iff]
    simp [asciiIsspace, isspace, UInt8.le_iff_toNat_le, ← UInt8.toNat_inj]
    omega

theorem dropWhile_asciiIsspace (m : Bytes) : m.dropWhile asciiIsspace = m.dropWhile isspace := by
  rw [funext asciiIsspace_eq]

/-- A number in a base, as a constant in the C language has it in base 0. -/
inductive Literal (base : Nat) : Bytes → Nat → Prop
  | plain {ds : Bytes} (hbase : base ≠ 0) (hne : ds ≠ [])
      (h : ∀ c ∈ ds, isDigit digitValue base c = true) :
      Literal base ds (value base (digitsOf digitValue ds))
  | hex {x : UInt8} {ds : Bytes} (hbase : base = 0 ∨ base = 16) (hx : x = byte 'x' ∨ x = byte 'X')
      (hne : ds ≠ []) (h : ∀ c ∈ ds, isDigit digitValue 16 c = true) :
      Literal base (byte '0' :: x :: ds) (value 16 (digitsOf digitValue ds))
  | octal {ds : Bytes} (hbase : base = 0) (h : ∀ c ∈ ds, isDigit digitValue 8 c = true) :
      Literal base (byte '0' :: ds) (value 8 (digitsOf digitValue ds))
  | decimal {c : UInt8} {ds : Bytes} (hbase : base = 0) (hc : c ≠ byte '0')
      (h : ∀ d ∈ c :: ds, isDigit digitValue 10 d = true) :
      Literal base (c :: ds) (value 10 (digitsOf digitValue (c :: ds)))

/-- The text is a number: optional white space and sign, and the digits with their prefix. -/
def Written (negative : Bool) (base : Nat) (text : Bytes) (v : Nat) : Prop :=
  ∃ blanks sign digits : Bytes, text = blanks ++ sign ++ digits ∧
    (∀ c ∈ blanks, isspace c = true) ∧ Literal base digits v ∧
    if negative then sign = [byte '-'] else sign = [] ∨ sign = [byte '+']

theorem isDigit_nul (b : Nat) : isDigit digitValue b 0 = false := rfl

theorem run_nul (b : Nat) (u tail : Bytes) : run digitValue b (u ++ 0 :: tail) = run digitValue b u := by
  induction u with
  | nil => exact run_cons_other (isDigit_nul b)
  | cons c u ih =>
    cases hc : isDigit digitValue b c with
    | true => rw [List.cons_append, run_cons hc, run_cons hc, ih]
    | false => rw [List.cons_append, run_cons_other hc, run_cons_other hc]

theorem behind_nul (b : Nat) (u tail : Bytes) :
    behind digitValue b (u ++ 0 :: tail) = behind digitValue b u ++ 0 :: tail := by
  induction u with
  | nil => exact behind_cons_other (isDigit_nul b)
  | cons c u ih =>
    cases hc : isDigit digitValue b c with
    | true => rw [List.cons_append, behind_cons hc, behind_cons hc, ih]
    | false => rw [List.cons_append, behind_cons_other hc, behind_cons_other hc, List.cons_append]

theorem dropWhile_isspace_nul (u tail : Bytes) :
    (u ++ 0 :: tail).dropWhile isspace = u.dropWhile isspace ++ 0 :: tail := by
  induction u with
  | nil => rfl
  | cons c u ih =>
    cases hc : isspace c with
    | true => rw [List.cons_append, List.dropWhile_cons_of_pos hc, List.dropWhile_cons_of_pos hc, ih]
    | false =>
      rw [List.cons_append, List.dropWhile_cons_of_neg (by simp [hc]),
        List.dropWhile_cons_of_neg (by simp [hc]), List.cons_append]

theorem splitSign_nul (u tail : Bytes) :
    splitSign (u ++ 0 :: tail) = ((splitSign u).1, (splitSign u).2 ++ 0 :: tail) := by
  cases u with
  | nil => rfl
  | cons c u =>
    rw [List.cons_append, splitSign, splitSign]
    split
    · rfl
    · split <;> rfl

theorem hexMark_nul (u tail : Bytes) : hexMark (u ++ 0 :: tail) = hexMark u := by
  match u with
  | [] =>
    cases tail with
    | nil => rfl
    | cons x tail => cases tail <;> rfl
  | [z] =>
    cases tail with
    | nil => rfl
    | cons c tail => simp [hexMark, byte]
  | [z, x] => simp [hexMark, isDigit_nul]
  | z :: x :: c :: u => rfl

theorem drop_hexMark {u : Bytes} (h : hexMark u = true) (tail : Bytes) :
    (u ++ 0 :: tail).drop 2 = u.drop 2 ++ 0 :: tail := by
  match u with
  | [] => cases h
  | [z] => cases h
  | z :: x :: u => rfl

theorem numeralAt_nul (base : Nat) (u tail : Bytes) :
    numeralAt base (u ++ 0 :: tail) = ((numeralAt base u).1, (numeralAt base u).2 ++ 0 :: tail) := by
  have hhead : (u ++ 0 :: tail).head? = some (byte '0') ↔ u.head? = some (byte '0') := by
    cases u with
    | nil => simp [byte]
    | cons c u => rfl
  rw [numeralAt, numeralAt, hexMark_nul]
  simp only [hhead]
  split
  · next hmark =>
    rw [Bool.and_eq_true] at hmark
    rw [drop_hexMark hmark.2]
  · rfl

/-- Up to the terminator it does not matter what is in the memory. -/
theorem subject_nul (base : Nat) (text tail : Bytes) :
    subject base (text ++ 0 :: tail) =
      { subject base text with rest := (subject base text).rest ++ 0 :: tail } := by
  rw [subject, subject, dropWhile_isspace_nul, splitSign_nul]
  simp only [numeralAt_nul, run_nul, behind_nul]

/-! ## Whole numbers -/

theorem hexMark_iff {u : Bytes} : hexMark u = true ↔ ∃ x c t, u = byte '0' :: x :: c :: t ∧
    (x = byte 'x' ∨ x = byte 'X') ∧ isDigit digitValue 16 c = true := by
  match u with
  | [] => simp [hexMark]
  | [z] => simp [hexMark]
  | [z, x] => simp [hexMark]
  | z :: x :: c :: t =>
    constructor
    · intro h
      simp only [hexMark, Bool.and_eq_true, Bool.or_eq_true, beq_iff_eq] at h
      exact ⟨x, c, t, by rw [h.1.1], h.1.2, h.2⟩
    · rintro ⟨x', c', t', heq, hx, hc⟩
      injection heq with hz heq
      injection heq with hx' heq
      injection heq with hc' heq
      simp only [hexMark, hz, hx', hc', hc, beq_self_eq_true, Bool.and_true, Bool.true_and,
        Bool.or_eq_true, beq_iff_eq]
      exact hx

/-- `x` is no digit of base 16. -/
theorem hexMark_digits {b : Nat} (hb : b ≤ 16) {u : Bytes}
    (h : ∀ c ∈ u, isDigit digitValue b c = true) : hexMark u = false := by
  by_contra hmark
  rw [Bool.not_eq_false, hexMark_iff] at hmark
  obtain ⟨x, c, t, rfl, hx, -⟩ := hmark
  obtain ⟨d, hd, hlt⟩ := isDigit_iff.mp (h x (by simp))
  rcases hx with rfl | rfl
  · rw [show digitValue (byte 'x') = some 33 from rfl] at hd
    cases hd
    omega
  · rw [show digitValue (byte 'X') = some 33 from rfl] at hd
    cases hd
    omega

theorem isDigit_zero {b : Nat} (hb : 0 < b) : isDigit digitValue b (byte '0') = true :=
  isDigit_iff.mpr ⟨0, rfl, hb⟩

theorem Literal.numeralAt {base v : Nat} {u : Bytes} (h : Literal base u v) :
    behind digitValue (numeralAt base u).1 (numeralAt base u).2 = [] ∧
      run digitValue (numeralAt base u).1 (numeralAt base u).2 ≠ [] ∧
      v = value (numeralAt base u).1
        (digitsOf digitValue (run digitValue (numeralAt base u).1 (numeralAt base u).2)) := by
  cases h with
  | plain hbase hne h =>
    have hat : Utils.numeralAt base u = (base, u) := by
      rw [Utils.numeralAt, if_neg hbase, if_neg]
      intro hmark
      simp only [Bool.and_eq_true, Bool.or_eq_true, decide_eq_true_eq, hbase, false_or] at hmark
      rw [hexMark_digits (b := base) (by omega) h] at hmark
      cases hmark.2
    rw [hat]
    exact ⟨behind_of_all h, by rwa [run_of_all h], by rw [run_of_all h]⟩
  | @hex x ds hbase hx hne h =>
    have hat : Utils.numeralAt base (byte '0' :: x :: ds) = (16, ds) := by
      obtain ⟨c, t, rfl⟩ := List.exists_cons_of_ne_nil hne
      have hmark : hexMark (byte '0' :: x :: c :: t) = true :=
        hexMark_iff.mpr ⟨x, c, t, rfl, hx, h c List.mem_cons_self⟩
      rw [Utils.numeralAt, if_pos (by rw [hmark, Bool.and_true]; simpa using hbase)]
      rfl
    rw [hat]
    exact ⟨behind_of_all h, by rwa [run_of_all h], by rw [run_of_all h]⟩
  | @octal ds hbase h =>
    have hall : ∀ c ∈ byte '0' :: ds, isDigit digitValue 8 c = true := by
      intro c hc
      rcases List.mem_cons.mp hc with rfl | hc
      · exact isDigit_zero (by decide)
      · exact h c hc
    have hat : Utils.numeralAt base (byte '0' :: ds) = (8, byte '0' :: ds) := by
      rw [Utils.numeralAt, hexMark_digits (by decide) hall, Bool.and_false, if_neg (by decide),
        if_pos hbase]
      rfl
    rw [hat]
    refine ⟨behind_of_all hall, by rw [run_of_all hall]; simp, ?_⟩
    rw [run_of_all hall]
    exact (value_zeros 1 _).symm
  | @decimal c ds hbase hc h =>
    have hat : Utils.numeralAt base (c :: ds) = (10, c :: ds) := by
      rw [Utils.numeralAt, hexMark_digits (by decide) h, Bool.and_false, if_neg (by decide),
        if_pos hbase, if_neg]
      simpa using hc
    rw [hat]
    exact ⟨behind_of_all h, by rw [run_of_all h]; simp, by rw [run_of_all h]⟩

theorem eq_run {b : Nat} {u : Bytes} (h : behind digitValue b u = []) : run digitValue b u = u := by
  have heq := @run_append_behind _ digitValue b u
  rwa [h, List.append_nil] at heq

theorem isDigit_of_behind {b : Nat} {u : Bytes} (h : behind digitValue b u = []) :
    ∀ c ∈ u, isDigit digitValue b c = true := by
  intro c hc
  rw [← eq_run h] at hc
  exact isDigit_of_mem_run hc

theorem literal_of_numeralAt {base : Nat} {u : Bytes}
    (hbehind : behind digitValue (numeralAt base u).1 (numeralAt base u).2 = [])
    (hrun : run digitValue (numeralAt base u).1 (numeralAt base u).2 ≠ []) :
    ∃ v, Literal base u v := by
  have hall := isDigit_of_behind hbehind
  rw [eq_run hbehind] at hrun
  revert hrun hall
  rw [numeralAt]
  split
  · next hmark =>
    intro hrun hall
    simp only [Bool.and_eq_true, Bool.or_eq_true, decide_eq_true_eq] at hmark
    obtain ⟨x, c, t, rfl, hx, -⟩ := hexMark_iff.mp hmark.2
    exact ⟨_, .hex hmark.1 hx hrun hall⟩
  · intro hrun hall
    by_cases hbase : base = 0
    · obtain ⟨c, t, rfl⟩ := List.exists_cons_of_ne_nil hrun
      rw [if_pos hbase] at hall
      by_cases hc : c = byte '0'
      · subst hc
        exact ⟨_, .octal hbase fun d hd => hall d (List.mem_cons_of_mem _ hd)⟩
      · rw [if_neg (by simpa using hc)] at hall
        exact ⟨_, .decimal hbase hc hall⟩
    · rw [if_neg hbase] at hall
      exact ⟨_, .plain hbase hrun hall⟩

/-- A number begins with a digit. -/
theorem Literal.head {base v : Nat} {u : Bytes} (h : Literal base u v) :
    ∃ c t, u = c :: t ∧ (digitValue c).isSome = true := by
  have of {b : Nat} {c : UInt8} (hc : isDigit digitValue b c = true) :
      (digitValue c).isSome = true := by
    obtain ⟨d, hd, -⟩ := isDigit_iff.mp hc
    rw [hd]
    rfl
  cases h with
  | plain hbase hne h =>
    obtain ⟨c, t, rfl⟩ := List.exists_cons_of_ne_nil hne
    exact ⟨c, t, rfl, of (h c List.mem_cons_self)⟩
  | hex => exact ⟨_, _, rfl, rfl⟩
  | octal => exact ⟨_, _, rfl, rfl⟩
  | decimal hbase hc h => exact ⟨_, _, rfl, of (h _ List.mem_cons_self)⟩

theorem digitValue_isspace {c : UInt8} (h : isspace c = true) : digitValue c = none := by
  simp [isspace, UInt8.le_iff_toNat_le, ← UInt8.toNat_inj] at h
  simp only [digitValue, UInt8.le_iff_toNat_le]
  split_ifs <;> simp at * <;> omega

theorem dropWhile_blanks {blanks u : Bytes} (h : ∀ c ∈ blanks, isspace c = true)
    (hu : ∀ c t, u = c :: t → isspace c = false) : (blanks ++ u).dropWhile isspace = u := by
  rw [List.dropWhile_append_of_pos h]
  cases u with
  | nil => rfl
  | cons c t => exact List.dropWhile_cons_of_neg (by simp [hu c t rfl])

/-- A signed number is a sign of the C library and a number. -/
theorem splitSign_literal {base v : Nat} {sign u : Bytes} (h : Literal base u v)
    (hsign : sign = [] ∨ sign = [byte '+'] ∨ sign = [byte '-']) :
    splitSign (sign ++ u) = (decide (sign = [byte '-']), u) ∧
      ∀ c t, sign ++ u = c :: t → isspace c = false := by
  obtain ⟨c, t, rfl, hc⟩ := h.head
  rcases hsign with rfl | rfl | rfl
  · have hne : c ≠ byte '-' ∧ c ≠ byte '+' := by
      constructor <;> (rintro rfl; cases hc)
    refine ⟨by rw [List.nil_append, splitSign, if_neg hne.1, if_neg hne.2]; rfl, ?_⟩
    intro c' t' heq
    injection heq with heq
    subst heq
    by_contra hspace
    rw [digitValue_isspace (by simpa using hspace)] at hc
    cases hc
  · exact ⟨rfl, by rintro c' t' heq; injection heq with heq; subst heq; rfl⟩
  · exact ⟨rfl, by rintro c' t' heq; injection heq with heq; subst heq; rfl⟩

/-- A whole text is a number exactly if the subject sequence has digits and nothing is left. -/
theorem written_iff {negative : Bool} {base v : Nat} {text : Bytes} :
    Written negative base text v ↔
      (subject base text).rest = [] ∧ (subject base text).digits ≠ [] ∧
        (subject base text).negative = negative ∧ (subject base text).magnitude = v := by
  constructor
  · rintro ⟨blanks, sign, digits, rfl, hblanks, hliteral, hsign⟩
    have hany : sign = [] ∨ sign = [byte '+'] ∨ sign = [byte '-'] := by
      cases negative with
      | true => exact .inr (.inr hsign)
      | false => exact hsign.elim .inl fun h => .inr (.inl h)
    obtain ⟨hsplit, hhead⟩ := splitSign_literal hliteral hany
    obtain ⟨hbehind, hrun, hv⟩ := hliteral.numeralAt
    have hdrop := dropWhile_blanks hblanks hhead
    rw [List.append_assoc, subject, hdrop, hsplit]
    refine ⟨hbehind, hrun, ?_, hv.symm⟩
    cases negative with
    | true => exact decide_eq_true hsign
    | false => rcases hsign with rfl | rfl <;> rfl
  · rintro ⟨hrest, hdigits, rfl, rfl⟩
    generalize hu : splitSign (text.dropWhile isspace) = p at *
    obtain ⟨negative, u⟩ := p
    have hsubject : subject base text = ⟨negative, (numeralAt base u).1,
        run digitValue (numeralAt base u).1 (numeralAt base u).2,
        behind digitValue (numeralAt base u).1 (numeralAt base u).2⟩ := by
      rw [subject, hu]
    rw [hsubject] at hrest hdigits ⊢
    obtain ⟨v, hliteral⟩ := literal_of_numeralAt hrest hdigits
    obtain ⟨-, -, hv⟩ := hliteral.numeralAt
    have hblanks : ∀ c ∈ text.takeWhile isspace, isspace c = true := fun c hc =>
      List.mem_takeWhile_imp hc
    have htext : text = text.takeWhile isspace ++ text.dropWhile isspace :=
      List.takeWhile_append_dropWhile.symm
    rw [Subject.magnitude]
    simp only [← hv]
    cases hw : text.dropWhile isspace with
    | nil =>
      rw [hw, splitSign] at hu
      cases hu
      obtain ⟨c, t, heq, -⟩ := hliteral.head
      cases heq
    | cons c w =>
      rw [hw] at hu htext
      rw [splitSign] at hu
      split at hu
      · next hminus =>
        cases hu
        exact ⟨_, [byte '-'], u, htext.trans (by rw [hminus, List.append_assoc]; rfl), hblanks,
          hliteral, rfl⟩
      · split at hu
        · next hplus =>
          cases hu
          exact ⟨_, [byte '+'], u, htext.trans (by rw [hplus, List.append_assoc]; rfl), hblanks,
            hliteral, .inr rfl⟩
        · cases hu
          exact ⟨_, [], _, by rw [List.append_nil, ← htext], hblanks, hliteral, .inl rfl⟩

theorem no_nul_of_digits {b : Nat} {ds : Bytes} (h : ∀ c ∈ ds, isDigit digitValue b c = true) :
    0 ∉ ds := fun hmem => absurd (h 0 hmem) (by rw [isDigit_nul]; decide)

theorem Literal.no_nul {base v : Nat} {u : Bytes} (h : Literal base u v) : 0 ∉ u := by
  cases h with
  | plain _ _ h => exact no_nul_of_digits h
  | hex _ hx _ h =>
    rw [List.mem_cons, List.mem_cons]
    rintro (hzero | hzero | hmem)
    · exact absurd hzero (by decide)
    · rcases hx with rfl | rfl <;> exact absurd hzero (by decide)
    · exact no_nul_of_digits h hmem
  | octal _ h =>
    rw [List.mem_cons]
    rintro (hzero | hmem)
    · exact absurd hzero (by decide)
    · exact no_nul_of_digits h hmem
  | decimal _ _ h => exact no_nul_of_digits h

theorem Written.no_nul {negative : Bool} {base v : Nat} {text : Bytes}
    (h : Written negative base text v) : 0 ∉ text := by
  obtain ⟨blanks, sign, digits, rfl, hblanks, hliteral, hsign⟩ := h
  rw [List.mem_append, List.mem_append]
  rintro ((hmem | hmem) | hmem)
  · exact absurd (hblanks 0 hmem) (by decide)
  · cases negative with
    | true =>
      rw [show sign = [byte '-'] from hsign] at hmem
      exact absurd hmem (by decide)
    | false => rcases hsign with rfl | rfl <;> exact absurd hmem (by decide)
  · exact hliteral.no_nul hmem

/-! ## Numbers in a byte array -/

/-- What a text stands for. There is no minus sign for unsigned types. -/
def Whole (isUnsigned : Bool) (base : Nat) (text : Bytes) (n : Int) : Prop :=
  ∃ (negative : Bool) (v : Nat), Written negative base text v ∧
    (isUnsigned = true → negative = false) ∧ n = if negative then -(v : Int) else v

theorem Whole.no_nul {isUnsigned : Bool} {base : Nat} {text : Bytes} {n : Int}
    (h : Whole isUnsigned base text n) : 0 ∉ text := by
  obtain ⟨negative, v, hwritten, -⟩ := h
  exact hwritten.no_nul

section

variable {base : Nat} {text : Bytes}

theorem splitSign_suffix (u : Bytes) : ∃ t, u = t ++ (splitSign u).2 := by
  cases u with
  | nil => exact ⟨[], rfl⟩
  | cons c u =>
    rw [splitSign]
    split
    · exact ⟨[c], rfl⟩
    · split
      · exact ⟨[c], rfl⟩
      · exact ⟨[], rfl⟩

theorem numeralAt_suffix (base : Nat) (u : Bytes) : ∃ t, u = t ++ (numeralAt base u).2 := by
  rw [numeralAt]
  split
  · exact ⟨u.take 2, (List.take_append_drop 2 u).symm⟩
  · exact ⟨[], rfl⟩

/-- The digits and the rest are the end of the text. -/
theorem subject_split (base : Nat) (text : Bytes) :
    ∃ t, text = t ++ ((subject base text).digits ++ (subject base text).rest) := by
  have hblanks : text = text.takeWhile isspace ++ text.dropWhile isspace :=
    List.takeWhile_append_dropWhile.symm
  obtain ⟨t, ht⟩ := splitSign_suffix (text.dropWhile isspace)
  obtain ⟨t', ht'⟩ := numeralAt_suffix base (splitSign (text.dropWhile isspace)).2
  refine ⟨text.takeWhile isspace ++ (t ++ t'), ?_⟩
  rw [subject]
  simp only
  rw [run_append_behind, List.append_assoc, List.append_assoc, ← ht', ← ht, ← hblanks]

theorem rest_length (hdigits : (subject base text).digits ≠ []) :
    (subject base text).rest.length < text.length := by
  obtain ⟨t, ht⟩ := subject_split base text
  have hlen := congrArg List.length ht
  have hpos := List.length_pos_iff.mpr hdigits
  rw [List.length_append, List.length_append] at hlen
  omega

/-- A character of the rest is no terminator. -/
theorem rest_ne_nul (hnul : 0 ∉ text) {c : UInt8} {u : Bytes}
    (hrest : (subject base text).rest = c :: u) : c ≠ 0 := by
  obtain ⟨t, ht⟩ := subject_split base text
  rintro rfl
  refine hnul ?_
  rw [ht, hrest]
  simp

/-- The numbers of the text that a type has, by what the C library finds in front of the
terminator. -/
theorem whole_cases (isUnsigned : Bool) (base : Nat) (text : Bytes) (n : Int) :
    Whole isUnsigned base text n ↔
      (subject base text).rest = [] ∧ (subject base text).digits ≠ [] ∧
        (isUnsigned = true → (subject base text).negative = false) ∧
        n = (subject base text).number := by
  constructor
  · rintro ⟨negative, v, hwritten, hneg, hn⟩
    obtain ⟨hrest, hdigits, rfl, rfl⟩ := written_iff.mp hwritten
    exact ⟨hrest, hdigits, hneg, hn⟩
  · rintro ⟨hrest, hdigits, hneg, hn⟩
    exact ⟨_, _, written_iff.mpr ⟨hrest, hdigits, rfl, rfl⟩, hneg, hn⟩

/-- What `pdk_strtoll` returns, by the subject sequence alone. -/
theorem pdkStrtoll_eq (nptr : Bytes) (base : Nat) : pdkStrtoll nptr base =
    if (subject base nptr).rest = [] then none
    else if (subject base nptr).digits ≠ [] ∧ -2 ^ 63 ≤ (subject base nptr).number ∧
        (subject base nptr).number < 2 ^ 63 then
      some ⟨true, (subject base nptr).number, some (subject base nptr).rest⟩
    else some ⟨false, 0, some (if (subject base nptr).digits = [] then nptr
      else (subject base nptr).rest)⟩ := by
  have hlen := @rest_length base nptr
  rw [pdkStrtoll, strtoll]
  generalize subject base nptr = s at hlen ⊢
  by_cases hrest : s.rest = []
  · rw [if_pos hrest, if_pos hrest]
    rfl
  rw [if_neg hrest, if_neg hrest]
  by_cases hdigits : s.digits = []
  · simp [hdigits]
  have hne : nptr ≠ s.rest := fun heq => by
    have hlt := hlen hdigits
    rw [← heq] at hlt
    omega
  rw [if_neg hdigits]
  by_cases hlow : s.number < -2 ^ 63
  · rw [if_pos hlow, if_neg (by omega), if_neg hdigits]
    rfl
  by_cases hhigh : 2 ^ 63 ≤ s.number
  · rw [if_neg hlow, if_pos hhigh, if_neg (by omega), if_neg hdigits]
    rfl
  · rw [if_neg hlow, if_neg hhigh, if_pos ⟨hdigits, by omega, by omega⟩]
    simp [hne]

/-- `pdk_strtoull` does not come to the end of the text where there is a minus sign. -/
theorem pdkStrtoull_eq (nptr : Bytes) (base : Nat) : pdkStrtoull nptr base =
    if (subject base nptr).negative then some ⟨false, 0, none⟩
    else if (subject base nptr).rest = [] then none
    else if (subject base nptr).digits ≠ [] ∧ (subject base nptr).magnitude < 2 ^ 64 then
      some ⟨true, (subject base nptr).magnitude, some (subject base nptr).rest⟩
    else some ⟨false, 0, some (if (subject base nptr).digits = [] then nptr
      else (subject base nptr).rest)⟩ := by
  have hlen := @rest_length base nptr
  rw [pdkStrtoull, strtoull, dropWhile_asciiIsspace]
  cases hdrop : nptr.dropWhile isspace with
  | nil =>
    have hsubject : (subject base nptr).negative = false ∧ (subject base nptr).rest = [] := by
      rw [subject, hdrop]
      refine ⟨rfl, ?_⟩
      simp [splitSign, numeralAt, hexMark, behind]
    simp only [hsubject.1, hsubject.2, Bool.false_eq_true, if_false, if_true]
    rfl
  | cons c u =>
    have hnegative : (subject base nptr).negative = decide (c = byte '-') := by
      rw [subject, hdrop, splitSign]
      by_cases hc : c = byte '-'
      · simp [hc]
      · simp only [if_neg hc, decide_eq_false hc]
    rw [List.head?_cons, Option.bind_eq_bind, Option.bind_some]
    by_cases hc : c = byte '-'
    · rw [if_pos hc, if_pos (by rw [hnegative, decide_eq_true hc])]
    rw [decide_eq_false hc] at hnegative
    rw [if_neg hc]
    simp only [hnegative, Bool.false_eq_true, if_false]
    generalize subject base nptr = s at hlen ⊢
    by_cases hrest : s.rest = []
    · rw [if_pos hrest, if_pos hrest]
      rfl
    rw [if_neg hrest, if_neg hrest]
    by_cases hdigits : s.digits = []
    · simp [hdigits]
    have hne : s.rest ≠ nptr := fun heq => by
      have hlt := hlen hdigits
      rw [heq] at hlt
      omega
    rw [if_neg hdigits]
    by_cases hhigh : 2 ^ 64 ≤ s.magnitude
    · rw [if_pos hhigh, if_neg (by omega), if_neg hdigits]
      rfl
    · rw [if_neg hhigh, if_pos ⟨hdigits, by omega⟩]
      simp [hne]

/-- The numbers that a 64-bit type has. -/
def Fits64 (isUnsigned : Bool) (n : Int) : Prop :=
  if isUnsigned then 0 ≤ n ∧ n < 2 ^ 64 else -2 ^ 63 ≤ n ∧ n < 2 ^ 63

instance (isUnsigned : Bool) (n : Int) : Decidable (Fits64 isUnsigned n) :=
  inferInstanceAs (Decidable (if isUnsigned then _ else _))

/-- The conversion for a 64-bit type. -/
def bytearrayTo (isUnsigned : Bool) (num : Bytes) (base : Nat) : Option (Bool × Int) :=
  if isUnsigned then bytearrayToUnsLongLong num base else bytearrayToLongLong num base

theorem whole_failed (v : Int) (endptr : Option Bytes) :
    (Parsed.mk false v endptr).whole = some (false, 0) := rfl

/-- The character behind the number is the terminator only where all is read. -/
theorem whole_ok (hnul : 0 ∉ text) (v : Int) (tail : Bytes) :
    (Parsed.mk true v (some ((subject base text).rest ++ 0 :: tail))).whole =
      if (subject base text).rest = [] then some (true, v) else some (false, 0) := by
  cases hrest : (subject base text).rest with
  | nil => rfl
  | cons c u =>
    have hc := rest_ne_nul hnul hrest
    simp [Parsed.whole, hc]

/-- The 64-bit conversions of a text that ends with a terminator. -/
theorem bytearrayTo_eq (hnul : 0 ∉ text) (tail : Bytes) (isUnsigned : Bool) :
    bytearrayTo isUnsigned (text ++ 0 :: tail) base =
      if (subject base text).rest = [] ∧ (subject base text).digits ≠ [] ∧
          (isUnsigned = true → (subject base text).negative = false) ∧
          Fits64 isUnsigned (subject base text).number then
        some (true, (subject base text).number)
      else some (false, 0) := by
  have hsubject := subject_nul base text tail
  have hend : (subject base (text ++ 0 :: tail)).rest ≠ [] := by
    rw [hsubject]
    simp
  have hnumber : (subject base (text ++ 0 :: tail)).number = (subject base text).number := by
    rw [hsubject]
    rfl
  have hdigits : (subject base (text ++ 0 :: tail)).digits = (subject base text).digits := by
    rw [hsubject]
  have hmagnitude : (subject base (text ++ 0 :: tail)).magnitude = (subject base text).magnitude := by
    rw [hsubject]
    rfl
  have hnegative : (subject base (text ++ 0 :: tail)).negative = (subject base text).negative := by
    rw [hsubject]
  have hrest : (subject base (text ++ 0 :: tail)).rest = (subject base text).rest ++ 0 :: tail := by
    rw [hsubject]
  cases isUnsigned with
  | false =>
    cases text with
    | nil =>
      rw [if_neg]
      · rfl
      · rintro ⟨-, hne, -⟩
        obtain ⟨t, ht⟩ := subject_split base []
        simp only [List.nil_eq, List.append_eq_nil_iff] at ht
        exact hne ht.2.1
    | cons c t =>
      have hc : c ≠ 0 := fun h => hnul (by rw [h]; exact List.mem_cons_self)
      rw [bytearrayTo, if_neg (by decide), bytearrayToLongLong, pdkStrtoll_eq, if_neg hend,
        hnumber, hdigits, hrest]
      simp only [List.cons_append, List.head?_cons, Option.bind_eq_bind, Option.bind_some, if_neg hc]
      by_cases hok : (subject base (c :: t)).digits ≠ [] ∧ -2 ^ 63 ≤ (subject base (c :: t)).number ∧
          (subject base (c :: t)).number < 2 ^ 63
      · rw [if_pos hok, Option.bind_some, whole_ok hnul]
        by_cases hnil : (subject base (c :: t)).rest = []
        · rw [if_pos hnil, if_pos ⟨hnil, hok.1, fun h => absurd h (by decide), hok.2⟩]
        · rw [if_neg hnil, if_neg fun h => hnil h.1]
      · rw [if_neg hok, Option.bind_some, whole_failed, if_neg fun h => hok ⟨h.2.1, h.2.2.2⟩]
  | true =>
    rw [bytearrayTo, if_pos rfl, bytearrayToUnsLongLong, pdkStrtoull_eq, if_neg hend, hnegative,
      hmagnitude, hdigits, hrest]
    by_cases hneg : (subject base text).negative = true
    · rw [if_pos hneg, if_neg]
      · rfl
      · rintro ⟨-, -, hpos, -⟩
        rw [hneg] at hpos
        exact absurd (hpos rfl) (by decide)
    rw [Bool.not_eq_true] at hneg
    have hvalue : (subject base text).number = (subject base text).magnitude := by
      rw [Subject.number, hneg]
      rfl
    have hfits : Fits64 true (subject base text).number ↔ (subject base text).magnitude < 2 ^ 64 := by
      rw [hvalue]
      show 0 ≤ _ ∧ _ ↔ _
      omega
    simp only [hneg, Bool.false_eq_true, if_false]
    by_cases hok : (subject base text).digits ≠ [] ∧ (subject base text).magnitude < 2 ^ 64
    · rw [if_pos hok, Option.bind_eq_bind, Option.bind_some, whole_ok hnul, hvalue]
      by_cases hnil : (subject base text).rest = []
      · rw [if_pos hnil, if_pos ⟨hnil, hok.1, fun _ => trivial, hvalue ▸ hfits.mpr hok.2⟩]
      · rw [if_neg hnil, if_neg fun h => hnil h.1]
    · rw [if_neg hok, Option.bind_eq_bind, Option.bind_some, whole_failed,
        if_neg fun h => hok ⟨h.2.1, hfits.mp h.2.2.2⟩]

/-- A number that is all of the text is returned where it fits, and any other text gives zero. -/
theorem bytearrayTo_spec (hnul : 0 ∉ text) (tail : Bytes) (isUnsigned : Bool) :
    (∀ n, Whole isUnsigned base text n → Fits64 isUnsigned n →
      bytearrayTo isUnsigned (text ++ 0 :: tail) base = some (true, n)) ∧
    ((∀ n, Whole isUnsigned base text n → ¬Fits64 isUnsigned n) →
      bytearrayTo isUnsigned (text ++ 0 :: tail) base = some (false, 0)) := by
  rw [bytearrayTo_eq hnul tail]
  constructor
  · intro n hn hfits
    obtain ⟨hrest, hdigits, hneg, rfl⟩ := (whole_cases isUnsigned base text n).mp hn
    rw [if_pos ⟨hrest, hdigits, hneg, hfits⟩]
  · intro hother
    rw [if_neg]
    rintro ⟨hrest, hdigits, hneg, hfits⟩
    exact hother _ ((whole_cases isUnsigned base text _).mpr ⟨hrest, hdigits, hneg, rfl⟩) hfits

end

end Libpdk.Utils

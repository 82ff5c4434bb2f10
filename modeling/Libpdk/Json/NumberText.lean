import Libpdk.Core.Nearest
import Libpdk.Core.Text

/-!
# Numbers in JSON text

`value_to_json` writes a double through `ByteArray::number`, which passes the format and the
precision on to `setNum`; that one asks `std::to_string` for six decimals whatever they are.
`parseNumber` reads a text with a decimal point through `toDouble`. `std::to_string` and the
`sscanf` behind `toDouble` are exact here: the first rounds to the nearest multiple of a millionth,
the second to the nearest double. A double is read back if and only if a millionth is fine enough
for it (`numberText_iff`).
-/
namespace Libpdk.Json.NumberText

open Binary64

/-! ## Writing -/

def isDigit (b : UInt8) : Bool := byte '0' ≤ b && b ≤ byte '9'

def digitByte (n : Nat) : UInt8 := UInt8.ofNat (n % 10 + 48)

/-- The decimal digits of a number. -/
def decimal (n : Nat) : Bytes :=
  if n < 10 then [digitByte n] else decimal (n / 10) ++ [digitByte n]

/-- The last digits of a number, as many as are asked for. -/
def lastDigits : Nat → Nat → Bytes
  | 0, _ => []
  | k + 1, n => lastDigits k (n / 10) ++ [digitByte n]

/-- The absolute value in millionths, rounded. -/
def millionths (d : Binary64) : Nat := roundDiv (d.magnitude * 1000000) (2 ^ unitExponent)

/-- `std::to_string(d)` -/
def toString (d : Binary64) : Bytes :=
  (if d.sign then [byte '-'] else []) ++
    (decimal (millionths d / 1000000) ++ byte '.' :: lastDigits 6 (millionths d))

/-- mirrors ds/ByteArray.cpp:140-147 -/
def setNum (n : Binary64) (_f : UInt8) (_prec : Int) : Bytes := toString n

/-- mirrors ds/ByteArray.cpp:194-199 -/
def number (n : Binary64) (f : UInt8) (prec : Int) : Bytes := setNum n f prec

/-- `Locale::FloatingPointShortest` -/
def floatingPointShortest : Int := -128

/-- `abs == static_cast<puint64>(abs)`; where the cast is not defined, anything may come out. -/
def isWhole (undefined : Bool) (d : Binary64) : Bool :=
  if d.magnitude < 2 ^ 64 * 2 ^ unitExponent then d.magnitude % 2 ^ unitExponent == 0 else undefined

/-- The branch of a double.
mirrors utils/json/JsonWriter.cpp:110-119 -/
def valueToJson (undefined : Bool) (d : Binary64) : Bytes :=
  if d.exponent ≠ 2047 then
    number d (if isWhole undefined d then byte 'f' else byte 'g') floatingPointShortest
  else lit "null"

/-! ## Reading -/

def digitValue (b : UInt8) : Nat := b.toNat - 48

/-- The number that digits denote, behind others. -/
def readDigits (n : Nat) (digits : Bytes) : Nat := digits.foldl (fun n b => 10 * n + digitValue b) n

/-- An optional sign, and the rest. -/
def readSign : Bytes → Bytes × Bytes
  | b :: rest => if b = byte '-' ∨ b = byte '+' then ([b], rest) else ([], b :: rest)
  | [] => ([], [])

/-- The exponent behind its mark, at least one digit and nothing behind it. -/
def readExponent (text : Bytes) : Option Int :=
  let (sign, digits) := readSign text
  if digits = [] ∨ digits.all isDigit = false then none
  else some (if sign = [byte '-'] then -(readDigits 0 digits : Int) else readDigits 0 digits)

/-- A decimal number: whether there is a minus, its digits as a number, and the power of ten. -/
def readDecimal (text : Bytes) : Option (Bool × Nat × Int) :=
  let (sign, rest) := readSign text
  let whole := rest.takeWhile isDigit
  let rest := rest.dropWhile isDigit
  let (fraction, rest) :=
    if rest.head? = some (byte '.') then
      ((rest.drop 1).takeWhile isDigit, (rest.drop 1).dropWhile isDigit)
    else ([], rest)
  if whole ++ fraction = [] then none
  else
    let exponent :=
      if rest = [] then some 0
      else if rest.head? = some (byte 'e') ∨ rest.head? = some (byte 'E') then
        readExponent (rest.drop 1)
      else none
    exponent.map fun exponent =>
      (sign == [byte '-'], readDigits 0 (whole ++ fraction), exponent - fraction.length)

/-- Of a text that `parseNumber` passes on: anything but a decimal number is junk. A number that is
too large, or too small for any but zero, is none.
mirrors utils/LocaleTools.cpp:234-316 -/
def asciiToDouble (text : Bytes) : Option Binary64 := do
  let (sign, digits, scale) ← readDecimal text
  let d ← ofFraction sign (digits * 10 ^ scale.toNat) (10 ^ (-scale).toNat)
  if d.magnitude = 0 ∧ digits ≠ 0 then none else some d

/-- `toInt` of an optional minus and digits. -/
def toInt (text : Bytes) : Option Int :=
  let (sign, digits) := readSign text
  let n : Int := if sign = [byte '-'] then -(readDigits 0 digits : Int) else readDigits 0 digits
  if digits ≠ [] ∧ digits.all isDigit = true ∧ -2147483648 ≤ n ∧ n < 2147483648 then some n
  else none

inductive ParseError
  | terminationByNumber | illegalNumber
  deriving DecidableEq

/-- What is stored: 27 bits of the value word, or a double behind the elements. -/
inductive Value
  | int (n : Int)
  | double (d : Binary64)
  deriving DecidableEq

/-- The number and what is behind it. The space for a double is left out.
mirrors utils/json/JsonParser.cpp:664-741 -/
def parseNumber (json : Bytes) : Except ParseError (Value × Bytes) :=
  let (minus, json) :=
    if json.head? = some (byte '-') then ([byte '-'], json.drop 1) else ([], json)
  let (int, json) :=
    if json.head? = some (byte '0') then ([byte '0'], json.drop 1)
    else (json.takeWhile isDigit, json.dropWhile isDigit)
  let (frac, json) :=
    if json.head? = some (byte '.') then
      (byte '.' :: (json.drop 1).takeWhile isDigit, (json.drop 1).dropWhile isDigit)
    else ([], json)
  let (exp, json) :=
    if json.head? = some (byte 'e') ∨ json.head? = some (byte 'E') then
      let (sign, rest) := readSign (json.drop 1)
      (json.take 1 ++ sign ++ rest.takeWhile isDigit, rest.dropWhile isDigit)
    else ([], json)
  if json = [] then .error .terminationByNumber
  else
    let number := minus ++ int ++ frac ++ exp
    match if frac = [] ∧ exp = [] then (toInt number).filter fun n => n < 33554432 ∧ -33554432 < n
      else none with
    | some n => .ok (.int n, json)
    | none =>
      match asciiToDouble number with
      | none => .error .illegalNumber
      | some d => .ok (.double d, json)

/-! ## The grammar -/

/-- `int = zero / ( digit1-9 *DIGIT )` -/
def IsInt (int : Bytes) : Prop :=
  int = [byte '0'] ∨ ∃ b digits, int = b :: digits ∧ b ≠ byte '0' ∧ isDigit b = true ∧
    digits.all isDigit = true

/-- `frac = decimal-point 1*DIGIT` -/
def IsFrac (frac : Bytes) : Prop :=
  ∃ digits, frac = byte '.' :: digits ∧ digits ≠ [] ∧ digits.all isDigit = true

/-- `exp = e [ minus / plus ] 1*DIGIT` -/
def IsExp (exp : Bytes) : Prop :=
  ∃ e sign digits, exp = e :: (sign ++ digits) ∧ (e = byte 'e' ∨ e = byte 'E') ∧
    (sign = [] ∨ sign = [byte '-'] ∨ sign = [byte '+']) ∧ digits ≠ [] ∧ digits.all isDigit = true

/-- `number = [ minus ] int [ frac ] [ exp ]`
mirrors utils/json/JsonParser.cpp:651-663 -/
def IsNumber (text : Bytes) : Prop :=
  ∃ minus int frac exp, text = minus ++ int ++ frac ++ exp ∧ (minus = [] ∨ minus = [byte '-']) ∧
    IsInt int ∧ (frac = [] ∨ IsFrac frac) ∧ (exp = [] ∨ IsExp exp)

/-! ## Digits -/

theorem digitByte_toNat (n : Nat) : (digitByte n).toNat = n % 10 + 48 := by
  rw [digitByte]
  exact UInt8.toNat_ofNat_of_lt' (show n % 10 + 48 < 256 by omega)

theorem isDigit_digitByte (n : Nat) : isDigit (digitByte n) = true := by
  have hn := digitByte_toNat n
  rw [isDigit, Bool.and_eq_true, decide_eq_true_eq, decide_eq_true_eq, UInt8.le_iff_toNat_le,
    UInt8.le_iff_toNat_le, hn]
  exact ⟨Nat.le_add_left _ _, show n % 10 + 48 ≤ 57 by omega⟩

theorem digitValue_digitByte (n : Nat) : digitValue (digitByte n) = n % 10 := by
  rw [digitValue, digitByte_toNat, Nat.add_sub_cancel]

theorem readDigits_append (n : Nat) (a b : Bytes) :
    readDigits n (a ++ b) = readDigits (readDigits n a) b := List.foldl_append

theorem readDigits_decimal (n : Nat) : readDigits 0 (decimal n) = n := by
  induction n using Nat.strongRecOn with
  | ind n ih =>
    rw [decimal]
    split
    · simp only [readDigits, List.foldl_cons, List.foldl_nil, digitValue_digitByte]
      omega
    · rw [readDigits_append, ih (n / 10) (by omega)]
      simp only [readDigits, List.foldl_cons, List.foldl_nil, digitValue_digitByte]
      omega

/-- There is no leading zero. -/
theorem decimal_isInt (n : Nat) : IsInt (decimal n) := by
  induction n using Nat.strongRecOn with
  | ind n ih =>
    rw [decimal]
    split
    · rename_i hlt
      by_cases hn : n = 0
      · rw [hn]
        exact .inl rfl
      · refine .inr ⟨_, [], rfl, fun h => ?_, isDigit_digitByte n, rfl⟩
        have hnat := digitByte_toNat n
        rw [h] at hnat
        have : (byte '0').toNat = 48 := rfl
        omega
    · rename_i hge
      rcases ih (n / 10) (by omega) with hzero | ⟨b, digits, hcons, hb, hdigit, hdigits⟩
      · have hvalue := readDigits_decimal (n / 10)
        rw [hzero] at hvalue
        have : readDigits 0 [byte '0'] = 0 := rfl
        omega
      · rw [hcons]
        have hmore : (digits ++ [digitByte n]).all isDigit = true := by
          simp [hdigits, isDigit_digitByte]
        exact .inr ⟨b, digits ++ [digitByte n], rfl, hb, hdigit, hmore⟩

@[simp] theorem lastDigits_length (k n : Nat) : (lastDigits k n).length = k := by
  induction k generalizing n with
  | zero => rfl
  | succ k ih => rw [lastDigits, List.length_append, ih, List.length_singleton]

theorem lastDigits_digits (k n : Nat) : (lastDigits k n).all isDigit = true := by
  induction k generalizing n with
  | zero => rfl
  | succ k ih =>
    rw [lastDigits, List.all_append, ih]
    simp [isDigit_digitByte]

theorem readDigits_lastDigits (k n m : Nat) :
    readDigits m (lastDigits k n) = m * 10 ^ k + n % 10 ^ k := by
  induction k generalizing n with
  | zero => simp [lastDigits, readDigits, Nat.mod_one]
  | succ k ih =>
    rw [lastDigits, readDigits_append, ih]
    simp only [readDigits, List.foldl_cons, List.foldl_nil, digitValue_digitByte]
    have hmod : n % 10 ^ (k + 1) = n % 10 + 10 * (n / 10 % 10 ^ k) := by
      rw [Nat.pow_succ, Nat.mul_comm, Nat.mod_mul]
    rw [hmod, Nat.pow_succ]
    ring

/-! ## The text of a double -/

theorem toString_isNumber (d : Binary64) : IsNumber (toString d) := by
  refine ⟨if d.sign then [byte '-'] else [], decimal (millionths d / 1000000),
    byte '.' :: lastDigits 6 (millionths d), [], ?_, ?_, decimal_isInt _,
    .inr ⟨_, rfl, ?_, lastDigits_digits _ _⟩, .inl rfl⟩
  · simp [toString]
  · split
    · exact .inr rfl
    · exact .inl rfl
  · exact List.ne_nil_of_length_pos (by simp)

theorem takeWhile_digits {digits rest : Bytes} (h : digits.all isDigit = true)
    (hrest : ∀ b, rest.head? = some b → isDigit b = false) :
    (digits ++ rest).takeWhile isDigit = digits ∧ (digits ++ rest).dropWhile isDigit = rest := by
  have hall := List.all_eq_true.mp h
  rw [List.takeWhile_append_of_pos hall, List.dropWhile_append_of_pos hall]
  cases rest with
  | nil => simp
  | cons b rest =>
    have hb := hrest b rfl
    simp [hb]

theorem isDigit_ne {b c : UInt8} (h : isDigit b = true) (hc : isDigit c = false) : b ≠ c := by
  rintro rfl
  rw [h] at hc
  cases hc

theorem IsInt.cons {int : Bytes} (h : IsInt int) :
    ∃ b digits, int = b :: digits ∧ isDigit b = true ∧ digits.all isDigit = true := by
  rcases h with rfl | ⟨b, digits, rfl, -, hb, hdigits⟩
  · exact ⟨_, [], rfl, by decide, rfl⟩
  · exact ⟨b, digits, rfl, hb, hdigits⟩

theorem IsInt.digits {int : Bytes} (h : IsInt int) : int.all isDigit = true := by
  obtain ⟨b, digits, rfl, hb, hdigits⟩ := h.cons
  rw [List.all_cons, hb, hdigits]
  rfl

/-- A number with a point and no exponent. -/
theorem readDecimal_eq (sign : Bool) {int digits : Bytes} (hint : IsInt int)
    (hdigits : digits.all isDigit = true) :
    readDecimal ((if sign then [byte '-'] else []) ++ (int ++ byte '.' :: digits)) =
      some (sign, readDigits 0 (int ++ digits), -(digits.length : Int)) := by
  obtain ⟨b, more, hcons, hb, -⟩ := hint.cons
  have hsign : readSign ((if sign then [byte '-'] else []) ++ (int ++ byte '.' :: digits)) =
      (if sign then [byte '-'] else [], int ++ byte '.' :: digits) := by
    cases sign with
    | true => rfl
    | false =>
      have hne : ¬(b = byte '-' ∨ b = byte '+') :=
        not_or.mpr ⟨isDigit_ne hb (by decide), isDigit_ne hb (by decide)⟩
      simp only [hcons, Bool.false_eq_true, if_false, List.nil_append, List.cons_append, readSign]
      rw [if_neg hne]
  have hpoint : ∀ c, (byte '.' :: digits).head? = some c → isDigit c = false := by
    intro c hc
    rw [← Option.some.inj hc]
    decide
  obtain ⟨htake, hdrop⟩ := takeWhile_digits hint.digits hpoint
  have hnone : ∀ c, ([] : Bytes).head? = some c → isDigit c = false := fun _ h => nomatch h
  obtain ⟨htake', hdrop'⟩ := takeWhile_digits hdigits hnone
  rw [List.append_nil] at htake' hdrop'
  have hne : int ++ digits ≠ [] := by rw [hcons]; nofun
  have hminus : ((if sign then [byte '-'] else [] : Bytes) == [byte '-']) = sign := by
    cases sign <;> rfl
  unfold readDecimal
  simp only [hsign, htake, hdrop, List.head?_cons, if_true, List.drop_succ_cons, List.drop_zero,
    htake', hdrop', hne, if_false, hminus, Option.map_some, Int.zero_sub]

theorem asciiToDouble_eq (sign : Bool) {int digits : Bytes} (hint : IsInt int)
    (hdigits : digits.all isDigit = true) :
    asciiToDouble ((if sign then [byte '-'] else []) ++ (int ++ byte '.' :: digits)) =
      (ofFraction sign (readDigits 0 (int ++ digits)) (10 ^ digits.length)).bind fun d =>
        if d.magnitude = 0 ∧ readDigits 0 (int ++ digits) ≠ 0 then none else some d := by
  have hscale : (-(digits.length : Int)).toNat = 0 ∧ (- -(digits.length : Int)).toNat =
      digits.length := by omega
  rw [asciiToDouble, readDecimal_eq sign hint hdigits, Option.bind_eq_bind, Option.bind_some]
  simp only [hscale.1, hscale.2, Nat.pow_zero, Nat.mul_one, Option.bind_eq_bind]

/-- The scan takes all of such a number, and leaves it to `toDouble`. -/
theorem parseNumber_eq (sign : Bool) {int digits rest : Bytes} {next : UInt8} (hint : IsInt int)
    (hdigits : digits.all isDigit = true)
    (hnext : isDigit next = false ∧ next ≠ byte 'e' ∧ next ≠ byte 'E') :
    parseNumber ((if sign then [byte '-'] else []) ++ (int ++ byte '.' :: digits) ++ next :: rest) =
      (asciiToDouble ((if sign then [byte '-'] else []) ++ (int ++ byte '.' :: digits))).elim
        (.error .illegalNumber) fun d => .ok (.double d, next :: rest) := by
  obtain ⟨b, more, hcons, hb, -⟩ := hint.cons
  have hminus : (if ((if sign then [byte '-'] else []) ++ (int ++ byte '.' :: digits) ++
        next :: rest).head? = some (byte '-') then
      ([byte '-'], ((if sign then [byte '-'] else []) ++ (int ++ byte '.' :: digits) ++
        next :: rest).drop 1)
      else ([], (if sign then [byte '-'] else []) ++ (int ++ byte '.' :: digits) ++ next :: rest)) =
      (if sign then [byte '-'] else [], int ++ byte '.' :: (digits ++ next :: rest)) := by
    cases sign with
    | true => simp
    | false =>
      have hne : b ≠ byte '-' := isDigit_ne hb (by decide)
      simpa [hcons] using hne
  have hpoint : ∀ c, (byte '.' :: (digits ++ next :: rest)).head? = some c → isDigit c = false := by
    intro c hc
    rw [← Option.some.inj hc]
    decide
  have hwhole : (if (int ++ byte '.' :: (digits ++ next :: rest)).head? = some (byte '0') then
      ([byte '0'], (int ++ byte '.' :: (digits ++ next :: rest)).drop 1)
      else ((int ++ byte '.' :: (digits ++ next :: rest)).takeWhile isDigit,
        (int ++ byte '.' :: (digits ++ next :: rest)).dropWhile isDigit)) =
      (int, byte '.' :: (digits ++ next :: rest)) := by
    obtain ⟨htake, hdrop⟩ := takeWhile_digits hint.digits hpoint
    rw [htake, hdrop]
    rcases hint with rfl | ⟨b, more, rfl, hb, -, -⟩
    · rfl
    · exact if_neg fun h => hb (Option.some.inj h)
  have hend : ∀ c, (next :: rest).head? = some c → isDigit c = false := by
    intro c hc
    rw [← Option.some.inj hc]
    exact hnext.1
  obtain ⟨htake, hdrop⟩ := takeWhile_digits hdigits hend
  have hexp : ¬((next :: rest).head? = some (byte 'e') ∨ (next :: rest).head? = some (byte 'E')) :=
    not_or.mpr ⟨fun h => hnext.2.1 (Option.some.inj h), fun h => hnext.2.2 (Option.some.inj h)⟩
  unfold parseNumber
  simp only [hminus, hwhole, List.head?_cons, if_true, List.drop_succ_cons, List.drop_zero, htake,
    hdrop]
  rw [List.head?_cons] at hexp
  simp only [hexp, if_false, List.append_nil, List.append_assoc, reduceCtorEq, false_and]
  cases asciiToDouble _ <;> rfl

/-! ## Millionths -/

/-- Where a whole number of millionths is a multiple of a power of two, a double is 15625 times its
significand and half of its last place 7812.5; the next whole number is nearer than that. -/
def NearMillionth (d : Binary64) : Prop :=
  15625 * d.significand % 2 ^ (1069 - d.scale) ≤ 7812 ∨
    2 ^ (1069 - d.scale) - 15625 * d.significand % 2 ^ (1069 - d.scale) ≤ 7812

instance (d : Binary64) : Decidable (NearMillionth d) := inferInstanceAs (Decidable (_ ∨ _))

/-- With a last place of `2 ^ (-6)` or more, a double is a number of millionths. -/
theorem millionths_coarse {d : Binary64} (hs : 1069 ≤ d.scale) :
    millionths d * 2 ^ unitExponent = d.significand * (1000000 * 2 ^ d.scale) := by
  obtain ⟨k, hk⟩ := Nat.exists_eq_add_of_le hs
  have hunit : unitExponent + k = d.scale + 6 := by
    rw [hk, unitExponent]
    omega
  have heq : d.magnitude * 1000000 = 15625 * d.significand * 2 ^ k * 2 ^ unitExponent := by
    rw [magnitude, Nat.mul_assoc _ (2 ^ k), ← Nat.pow_add, Nat.add_comm k, hunit, Nat.pow_add]
    ring
  rw [millionths, heq, roundDiv_mul _ (Nat.two_pow_pos _), ← heq, magnitude, Nat.mul_assoc,
    Nat.mul_comm 1000000]

/-- With a smaller one it is rounded. -/
theorem millionths_fine {d : Binary64} (hs : d.scale ≤ 1069) :
    millionths d = roundDiv (15625 * d.significand) (2 ^ (1069 - d.scale)) := by
  obtain ⟨t, ht⟩ := Nat.exists_eq_add_of_le hs
  have hnum : d.magnitude * 1000000 = 15625 * d.significand * (2 ^ d.scale * 2 ^ 6) := by
    rw [magnitude]
    ring
  have hunit : unitExponent = t + (d.scale + 6) := by
    rw [unitExponent]
    omega
  have hden : 2 ^ unitExponent = 2 ^ t * (2 ^ d.scale * 2 ^ 6) := by
    rw [hunit, Nat.pow_add, Nat.pow_add]
  rw [millionths, hnum, hden, roundDiv_scale _ _ (Nat.mul_pos (Nat.two_pow_pos _) (by decide)),
    show 1069 - d.scale = t from by omega]

/-- The rounded quotient is one of the two next to it. -/
theorem roundDiv_distance {n p : Nat} (hp : 0 < p) :
    (n % p ≤ 7812 ∨ p - n % p ≤ 7812) ↔
      2 * n ≤ 2 * (roundDiv n p * p) + 15625 ∧ 2 * (roundDiv n p * p) ≤ 2 * n + 15625 := by
  have hdiv : n / p * p + n % p = n := by
    rw [Nat.mul_comm]
    exact Nat.div_add_mod n p
  have hmod := Nat.mod_lt n hp
  unfold roundDiv
  split
  · rw [Nat.add_mul, Nat.one_mul]
    omega
  · omega

/-- A power of two that is near the grid is on it. -/
theorem power_on_grid {t : Nat}
    (h : 15625 * 4503599627370496 % 2 ^ t ≤ 7812 ∨
      2 ^ t - 15625 * 4503599627370496 % 2 ^ t ≤ 7812) :
    15625 * 4503599627370496 % 2 ^ t = 0 := by
  rcases Nat.lt_or_ge 52 t with hlt | hle
  · obtain ⟨k, hk⟩ := Nat.exists_eq_add_of_lt hlt
    have hpow : 2 ^ t = 2 ^ k * 2 * 4503599627370496 := by
      rw [hk, Nat.pow_succ, Nat.pow_add]
      ring
    rw [hpow, Nat.mul_mod_mul_right] at h ⊢
    have hodd : 15625 % (2 ^ k * 2) % 2 = 1 := by
      rw [Nat.mod_mod_of_dvd _ (Nat.dvd_mul_left 2 _)]
    have hlt := Nat.mod_lt 15625 (Nat.mul_pos (Nat.two_pow_pos k) (by decide : 0 < 2))
    generalize 15625 % (2 ^ k * 2) = r at *
    generalize 2 ^ k * 2 = q at *
    omega
  · obtain ⟨k, hk⟩ := Nat.exists_eq_add_of_le hle
    have hpow : 15625 * 4503599627370496 = 15625 * 2 ^ k * 2 ^ t := by
      rw [show 4503599627370496 = 2 ^ 52 from rfl, hk, Nat.pow_add]
      ring
    rw [hpow, Nat.mul_mod_left]

/-- Both sides of the comparison, in units of the last place and of the grid. -/
theorem fine_units {d : Binary64} (hs : d.scale ≤ 1069) : ∃ c, 0 < c ∧
    d.significand * (1000000 * 2 ^ d.scale) = 15625 * d.significand * c ∧
    millionths d * 2 ^ unitExponent = millionths d * 2 ^ (1069 - d.scale) * c ∧
    1000000 * 2 ^ d.scale = 15625 * c := by
  have hunit : unitExponent = 1069 - d.scale + (d.scale + 6) := by
    rw [unitExponent]
    omega
  refine ⟨2 ^ d.scale * 2 ^ 6, Nat.mul_pos (Nat.two_pow_pos _) (by decide), by ring, ?_, by ring⟩
  rw [hunit, Nat.pow_add, Nat.pow_add, Nat.mul_assoc]

theorem nearMillionth_coarse {d : Binary64} (hs : 1069 ≤ d.scale) : NearMillionth d := by
  have hzero : 1069 - d.scale = 0 := by omega
  rw [NearMillionth, hzero, Nat.pow_zero, Nat.mod_one]
  exact .inl (Nat.zero_le _)

/-- The double next to the millionths is the one they were made of. -/
theorem nearestBits_millionths (d : Binary64) :
    nearestBits (millionths d) 1000000 = (d.scale - 1) * 4503599627370496 + d.significand ↔
      NearMillionth d := by
  have hplace : 0 < 1000000 * 2 ^ d.scale := Nat.mul_pos (by decide) (Nat.two_pow_pos _)
  have hgrid := Nat.two_pow_pos (1069 - d.scale)
  rcases Nat.le_total 1069 d.scale with hs | hs
  · refine iff_of_true ?_ (nearMillionth_coarse hs)
    have heq := millionths_coarse hs
    refine nearestBits_of_near (by decide) d ?_ ?_ fun _ => Nat.le_of_eq heq.symm
    all_goals
      rw [heq]
      omega
  · have hround := millionths_fine hs
    obtain ⟨c, hc, hvalue, hmillionths, hlast⟩ := fine_units hs
    have hdistance : NearMillionth d ↔ _ := roundDiv_distance hgrid
    rw [← hround] at hdistance
    rw [hdistance]
    constructor
    · intro h
      obtain ⟨hbelow, habove⟩ := near_of_nearestBits (by decide) d h
      rw [hvalue, hmillionths, hlast, ← Nat.mul_assoc 2 _ c, ← Nat.mul_assoc 2 _ c,
        ← Nat.add_mul] at hbelow habove
      exact ⟨Nat.le_of_mul_le_mul_right hbelow hc, Nat.le_of_mul_le_mul_right habove hc⟩
    · intro h
      have hstrict : 2 * (15625 * d.significand) <
          2 * (millionths d * 2 ^ (1069 - d.scale)) + 15625 ∧
          2 * (millionths d * 2 ^ (1069 - d.scale)) < 2 * (15625 * d.significand) + 15625 := by
        omega
      refine nearestBits_of_near (by decide) d ?_ ?_ fun hpower => ?_
      · rw [hvalue, hmillionths, hlast, ← Nat.mul_assoc 2 _ c, ← Nat.mul_assoc 2 _ c, ← Nat.add_mul]
        exact Nat.mul_lt_mul_of_pos_right hstrict.1 hc
      · rw [hvalue, hmillionths, hlast, ← Nat.mul_assoc 2 _ c, ← Nat.mul_assoc 2 _ c, ← Nat.add_mul]
        exact Nat.mul_lt_mul_of_pos_right hstrict.2 hc
      · have hnear := hdistance.mpr h
        rw [NearMillionth, hpower] at hnear
        have hmod := power_on_grid hnear
        obtain ⟨q, hq⟩ := Nat.dvd_of_mod_eq_zero hmod
        rw [hvalue, hmillionths, hround, hpower, hq, Nat.mul_comm _ q, roundDiv_mul q hgrid]

/-! ## Reading back -/

/-- What is read from the text of a double. -/
theorem asciiToDouble_toString (d : Binary64) :
    asciiToDouble (toString d) =
      (ofFraction d.sign (millionths d) 1000000).bind fun r =>
        if r.magnitude = 0 ∧ millionths d ≠ 0 then none else some r := by
  have hdigits : readDigits 0 (decimal (millionths d / 1000000) ++ lastDigits 6 (millionths d)) =
      millionths d := by
    rw [readDigits_append, readDigits_decimal, readDigits_lastDigits]
    omega
  rw [toString, asciiToDouble_eq d.sign (decimal_isInt _) (lastDigits_digits _ _), hdigits,
    lastDigits_length, show 10 ^ 6 = 1000000 from rfl]

/-- A number of millionths that is not zero is not read as zero. -/
theorem not_underflow {sign : Bool} {n : Nat} {r : Binary64}
    (h : ofFraction sign n 1000000 = some r) : ¬(r.magnitude = 0 ∧ n ≠ 0) := by
  rintro ⟨hzero, hn⟩
  have hsignificand : r.significand = 0 :=
    (Nat.mul_eq_zero.mp hzero).resolve_right (Nat.two_pow_pos _).ne'
  have hscale : r.scale = 1 := r.significand_bounds.2.resolve_right (by omega)
  have hnear := (near_of_nearestBits (by decide) r (ofFraction_some h)).2
  rw [hsignificand, hscale] at hnear
  have hunit : 2 ^ 21 ≤ 2 ^ unitExponent := Nat.pow_le_pow_right (by decide) (by decide)
  have hle : 1 * 2 ^ unitExponent ≤ n * 2 ^ unitExponent :=
    Nat.mul_le_mul_right _ (Nat.pos_of_ne_zero hn)
  omega

theorem asciiToDouble_toString_iff {d : Binary64} (hd : d.exponent ≠ 2047) :
    asciiToDouble (toString d) = some d ↔ NearMillionth d := by
  rw [asciiToDouble_toString, ← nearestBits_millionths, ← ofFraction_iff hd,
    Option.bind_eq_some_iff]
  constructor
  · rintro ⟨r, hr, heq⟩
    rw [if_neg (not_underflow hr)] at heq
    rw [hr, heq]
  · intro h
    exact ⟨d, h, if_neg (not_underflow h)⟩

theorem parseNumber_valueToJson (undefined : Bool) {d : Binary64} (hd : d.exponent ≠ 2047)
    {next : UInt8} (hnext : isDigit next = false ∧ next ≠ byte 'e' ∧ next ≠ byte 'E')
    (rest : Bytes) :
    parseNumber (valueToJson undefined d ++ next :: rest) = .ok (.double d, next :: rest) ↔
      NearMillionth d := by
  have htext : valueToJson undefined d = toString d := if_pos hd
  have hparse : parseNumber (toString d ++ next :: rest) = _ :=
    parseNumber_eq d.sign (decimal_isInt _) (lastDigits_digits _ _) hnext
  rw [htext, hparse, ← asciiToDouble_toString_iff hd]
  change (asciiToDouble (toString d)).elim _ _ = _ ↔ _
  cases asciiToDouble (toString d) <;> simp

/-- The text of every finite double is a number of the grammar. It is read back as the double that
was written if and only if a multiple of a millionth is less than half of a last place away. -/
theorem numberText_iff (undefined : Bool) {d : Binary64} (hd : d.exponent ≠ 2047) {next : UInt8}
    (hnext : isDigit next = false ∧ next ≠ byte 'e' ∧ next ≠ byte 'E') (rest : Bytes) :
    IsNumber (valueToJson undefined d) ∧
    (parseNumber (valueToJson undefined d ++ next :: rest) = .ok (.double d, next :: rest) ↔
      NearMillionth d) := by
  refine ⟨?_, parseNumber_valueToJson undefined hd hnext rest⟩
  rw [show valueToJson undefined d = toString d from if_pos hd]
  exact toString_isNumber d

/-- The double next to a tenth, in front of a comma. -/
theorem numberText_tenth : (1019 : Fin 2048) ≠ 2047 ∧
    (isDigit (byte ',') = false ∧ byte ',' ≠ byte 'e' ∧ byte ',' ≠ byte 'E') ∧
    parseNumber (valueToJson false ⟨false, 1019, 2702159776422298⟩ ++ [byte ',']) =
      .ok (.double ⟨false, 1019, 2702159776422298⟩, [byte ',']) :=
  ⟨by decide, by decide,
    (numberText_iff false (d := ⟨false, 1019, 2702159776422298⟩) (by decide) (by decide) []).2.mpr
      (by decide)⟩

/-- The double next to a ten-millionth. -/
theorem numberText_small : ¬parseNumber
    (valueToJson false ⟨false, 999, 3052186745220936⟩ ++ [byte ',']) =
      .ok (.double ⟨false, 999, 3052186745220936⟩, [byte ',']) := by
  rw [parseNumber_valueToJson false (by decide) (by decide)]
  decide

end Libpdk.Json.NumberText

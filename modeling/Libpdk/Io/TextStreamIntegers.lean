import Libpdk.Io.TextStreamLines
import Libpdk.Io.TextStreamNumbers
import Libpdk.Core.Numeral
import Mathlib.Data.Int.ModEq

/-!
# The integers in a text

`numeral` says which number a text begins with, in the base that is set or, where that is 0, in the
one that the first two characters say. `readInteger` returns it and leaves the text behind it, or
fails and leaves the text, exactly where `Right` holds (`integer_reading`): it does not see that a
number does not fit, it does not push back a sign, a prefix or a character that it has read in
vain, and it pushes back in lower case what it reads behind a zero.
-/
namespace Libpdk.Io.TextStream

open Numeral
open Utils (UnicodeTables LocaleData)

/-- What the tables say of digits and of lower case. -/
class NumberTables extends UnicodeTables where
  digitValue_range : ∀ c, isDecimalDigit c = true → 0 ≤ digitValue c ∧ digitValue c ≤ 9
  toLower_digit : ∀ c, isDecimalDigit c = true → toLower c = c
  isDecimalDigit_toLower : ∀ c, isDecimalDigit (toLower c) = true → isDecimalDigit c = true
  /-- The Kelvin sign alone has a lower case in ASCII. -/
  toLower_kelvin : ∀ c, 128 ≤ c → toLower c < 128 → toLower c = unit 'k'

/-! ## Numerals -/

section Numerals

variable [UnicodeTables]

def asciiDigit (c : UInt16) : Option Nat :=
  if unit '0' ≤ c ∧ c ≤ unit '9' then some (c.toNat - 48)
  else if unit 'a' ≤ c ∧ c ≤ unit 'f' then some (c.toNat - 87)
  else if unit 'A' ≤ c ∧ c ≤ unit 'F' then some (c.toNat - 55)
  else none

/-- Any digit of Unicode is one in base 10. -/
def digitIn (base : Nat) (c : UInt16) : Option Nat :=
  if base = 10 then
    if Utils.Character.isDigit c then some (UnicodeTables.digitValue c).toNat else none
  else asciiDigit c

/-- The digits that a text begins with, one at least, as a number with the text behind it. -/
def digitsNumeral (base : Nat) (t : Str) : Option (Int × Str) :=
  if run (digitIn base) base t = [] then none
  else some (value base (digitsOf (digitIn base) (run (digitIn base) base t)),
    Numeral.behind (digitIn base) base t)

/-- The letter of a prefix. -/
def IsLetter (base : Nat) (c : UInt16) : Prop :=
  (base = 2 ∧ (c = unit 'b' ∨ c = unit 'B')) ∨ (base = 16 ∧ (c = unit 'x' ∨ c = unit 'X'))

instance (base : Nat) (c : UInt16) : Decidable (IsLetter base c) := by
  unfold IsLetter
  infer_instance

def signedNumeral : Str → Option (Int × Str)
  | [] => none
  | sign :: t =>
    if sign = LocaleData.c.minus then (digitsNumeral 10 t).map fun (n, rest) => (-n, rest)
    else if sign = LocaleData.c.plus then digitsNumeral 10 t
    else digitsNumeral 10 (sign :: t)

/-- A zero stands before octal digits, and a zero and a letter before binary and hexadecimal
ones. -/
def prefixedNumeral (base : Nat) : Str → Option (Int × Str)
  | zero :: t =>
    if zero ≠ unit '0' then none
    else if base = 8 then digitsNumeral 8 t
    else match t with
      | c :: t => if IsLetter base c then digitsNumeral base t else none
      | [] => none
  | [] => none

def numeralBase (setting : Nat) (t : Str) : Nat :=
  if setting ≠ 0 then setting
  else match t with
    | zero :: c :: _ =>
      if zero ≠ unit '0' then 10
      else if IsLetter 16 c then 16
      else if IsLetter 2 c then 2
      else if unit '0' ≤ c ∧ c ≤ unit '7' then 8
      else 10
    | _ => 10

def numeralIn (base : Nat) (t : Str) : Option (Int × Str) :=
  if base = 10 then signedNumeral t else prefixedNumeral base t

/-- The number that a text begins with, and the text behind it. -/
def numeral (setting : Nat) (t : Str) : Option (Int × Str) := numeralIn (numeralBase setting t) t

/-- The number, where one is there and fits, and the text that is left. -/
def outcome (type : IntegerType) (setting : Nat) (t : Str) : Option Int × Str :=
  match numeral setting t with
  | some (v, rest) => if type.Fits v then (some v, rest) else (none, t)
  | none => (none, t)

/-- What the reader leaves where it finds no number is the text. -/
def Restored (setting : Nat) (t : Str) : Prop :=
  t = [] ∨
    (setting = 0 ∧ (∀ c ∈ t.head?, ¬ IsSign c) ∧
      (t.head? = some (unit '0') → t[1]? = some (unit 'b'))) ∨
    (setting = 2 ∧ t.head? = some (unit '0') ∧ ∃ c ∈ t[1]?, IsLetter 2 c) ∨
    (setting = 8 ∧ t.head? = some (unit '0')) ∨
    (setting = 10 ∧ ∀ c ∈ t.head?, ¬ IsSign c)

/-- Behind a zero stands a character that is pushed back in lower case. -/
def Lowered (t : Str) : Prop :=
  numeralBase 0 t = 10 ∧ t.head? = some (unit '0') ∧ ∃ c ∈ t[1]?, UnicodeTables.toLower c ≠ c

/-- Behind a zero stands a digit outside ASCII that the reader takes for an octal one. -/
def ForeignOctal (t : Str) : Prop :=
  t.head? = some (unit '0') ∧ ∃ c ∈ t[1]?, 128 ≤ c ∧ Utils.Character.isDigit c = true ∧
    UnicodeTables.digitValue c ≤ 7

/-- When the reader does to the text `t`, which is not white space, what it should. -/
def Right (type : IntegerType) (setting : Nat) (t : Str) : Prop :=
  match numeral setting t with
  | some (v, _) =>
    (¬ (setting = 0 ∧ ForeignOctal t) → type.Fits v ∧ ¬ (setting = 0 ∧ Lowered t)) ∧
    (setting = 0 ∧ ForeignOctal t → ¬ type.Fits v)
  | none => Restored setting t

/-- The outcome of a call of the reader, by the status of the stream. -/
def readOn (type : IntegerType) (setting : Nat) (t : Str) : Option Int × Str :=
  match numberOn setting t with
  | ((.ok, n), rest) => (some (type.cast n), rest)
  | (_, rest) => (none, rest)

end Numerals

/-! ## Digits -/

section Tables

variable [NumberTables]

/-- The bases that a stream reads. -/
def Base (base : Nat) : Prop := base = 2 ∨ base = 8 ∨ base = 10 ∨ base = 16

theorem toLower_toNat (c : UInt16) :
    (c.toNat < 128 ∧ (UnicodeTables.toLower c).toNat =
      if 65 ≤ c.toNat ∧ c.toNat ≤ 90 then c.toNat + 32 else c.toNat) ∨
    (128 ≤ c.toNat ∧ (128 ≤ (UnicodeTables.toLower c).toNat ∨
      (UnicodeTables.toLower c).toNat = 107)) := by
  rcases Nat.lt_or_ge c.toNat 128 with hlt | hge
  · refine .inl ⟨hlt, ?_⟩
    rw [UnicodeTables.toLower_ascii c (UInt16.lt_iff_toNat_lt.mpr hlt)]
    have hcapital : (unit 'A' ≤ c ∧ c ≤ unit 'Z') ↔ (65 ≤ c.toNat ∧ c.toNat ≤ 90) := Iff.rfl
    by_cases h : 65 ≤ c.toNat ∧ c.toNat ≤ 90
    · have hsum : (c + 32).toNat = (c.toNat + 32) % 2 ^ 16 := UInt16.toNat_add c 32
      rw [if_pos h, if_pos (hcapital.mpr h), hsum]
      omega
    · rw [if_neg h, if_neg (hcapital.not.mpr h)]
  · refine .inr ⟨hge, ?_⟩
    rcases Nat.lt_or_ge (UnicodeTables.toLower c).toNat 128 with hlt | hge'
    · have hk := NumberTables.toLower_kelvin c (UInt16.le_iff_toNat_le.mpr hge)
        (UInt16.lt_iff_toNat_lt.mpr hlt)
      exact .inr (congrArg UInt16.toNat hk)
    · exact .inl hge'

theorem isDigit_iff_toNat (c : UInt16) : Utils.Character.isDigit c = true ↔
    (48 ≤ c.toNat ∧ c.toNat ≤ 57) ∨ (128 ≤ c.toNat ∧ UnicodeTables.isDecimalDigit c = true) := by
  unfold Utils.Character.isDigit
  simp only [Bool.or_eq_true, Bool.and_eq_true, decide_eq_true_eq, ge_iff_le, gt_iff_lt,
    UInt16.le_iff_toNat_le, UInt16.lt_iff_toNat_lt]
  exact Iff.rfl

theorem digitValue_bounds {c : UInt16} (h : Utils.Character.isDigit c = true) :
    0 ≤ UnicodeTables.digitValue c ∧ UnicodeTables.digitValue c ≤ 9 := by
  rcases (isDigit_iff_toNat c).mp h with ⟨hlo, hhi⟩ | ⟨-, hdecimal⟩
  · rw [UnicodeTables.digitValue_ascii c (UInt16.le_iff_toNat_le.mpr hlo)
      (UInt16.le_iff_toNat_le.mpr hhi)]
    omega
  · exact NumberTables.digitValue_range c hdecimal

/-- A digit is its own lower case, and that of no other character. -/
theorem isDigit_toLower {c : UInt16} (h : Utils.Character.isDigit (UnicodeTables.toLower c) = true) :
    UnicodeTables.toLower c = c := by
  rw [isDigit_iff_toNat] at h
  rcases toLower_toNat c with ⟨hlt, hn⟩ | ⟨hge, hn⟩
  · rw [← UInt16.toNat_inj]
    split at hn <;> omega
  · rcases h with h | h
    · omega
    · exact NumberTables.toLower_digit c (NumberTables.isDecimalDigit_toLower c h.2)

theorem digitOf_toNat (base : Nat) (c : UInt16) : digitOf base c =
    let n := (UnicodeTables.toLower c).toNat
    if base = 2 then if n = 48 ∨ n = 49 then some ((n : Int) - 48) else none
    else if base = 8 then if 48 ≤ n ∧ n ≤ 55 then some ((n : Int) - 48) else none
    else if base = 10 then
      if Utils.Character.isDigit c then some (UnicodeTables.digitValue c) else none
    else if base = 16 then
      if 48 ≤ n ∧ n ≤ 57 then some ((n : Int) - 48)
      else if 97 ≤ n ∧ n ≤ 102 then some (10 + ((n : Int) - 97)) else none
    else none := by
  unfold digitOf
  split
  · simp only [← UInt16.toNat_inj]
    rfl
  · rfl
  · rfl
  · rfl
  · simp_all

theorem digitIn_toNat (base : Nat) (c : UInt16) : digitIn base c =
    if base = 10 then
      if Utils.Character.isDigit c then some (UnicodeTables.digitValue c).toNat else none
    else if 48 ≤ c.toNat ∧ c.toNat ≤ 57 then some (c.toNat - 48)
    else if 97 ≤ c.toNat ∧ c.toNat ≤ 102 then some (c.toNat - 87)
    else if 65 ≤ c.toNat ∧ c.toNat ≤ 70 then some (c.toNat - 55)
    else none := rfl

/-- The digits of the loops. -/
theorem digitOf_eq {base : Nat} (hbase : Base base) (c : UInt16) : digitOf base c =
    if Numeral.isDigit (digitIn base) base c then some (((digitIn base c).getD 0 : Nat) : Int)
    else none := by
  have hlower := toLower_toNat c
  unfold Numeral.isDigit
  rw [digitOf_toNat, digitIn_toNat]
  generalize (UnicodeTables.toLower c).toNat = n at hlower ⊢
  generalize hm : c.toNat = m at hlower ⊢
  rcases hbase with rfl | rfl | rfl | rfl
  · grind
  · grind
  · by_cases hdigit : Utils.Character.isDigit c = true
    · obtain ⟨hlo, hhi⟩ := digitValue_bounds hdigit
      simp only [hdigit]
      grind
    · simp [hdigit]
  · grind

theorem digitRun_eq {base : Nat} (hbase : Base base) (t : Str) :
    digitRun base t = run (digitIn base) base t ∧
      digitRest base t = Numeral.behind (digitIn base) base t := by
  have hdigit : (fun ch => (digitOf base ch).isSome) = Numeral.isDigit (digitIn base) base := by
    funext ch
    rw [digitOf_eq hbase]
    cases Numeral.isDigit (digitIn base) base ch <;> rfl
  unfold digitRun digitRest
  rw [hdigit]
  exact ⟨rfl, rfl⟩

omit [NumberTables] in
theorem digitRun_eq_nil [UnicodeTables] {base : Nat} {c : UInt16} {t : Str} :
    digitRun base (c :: t) = [] ↔ digitOf base c = none := by
  unfold digitRun
  cases hd : digitOf base c with
  | none => simp [List.takeWhile_cons_of_neg (p := fun ch => (digitOf base ch).isSome) (a := c) (l := t)
      (by simp [hd])]
  | some d => simp [List.takeWhile_cons_of_pos (p := fun ch => (digitOf base ch).isSome) (a := c) (l := t)
      (by simp [hd])]

/-- The sum of a loop is the value of its digits, modulo 2^64. -/
theorem addDigits_eq {base : Nat} (hbase : Base base) : ∀ (ds : Str) (n : Nat),
    (∀ c ∈ ds, Numeral.isDigit (digitIn base) base c = true) → addDigits base (n % 2 ^ 64) ds =
      (digitsOf (digitIn base) ds).foldl (fun n d => n * base + d) n % 2 ^ 64
  | [], _, _ => rfl
  | c :: ds, n, h => by
    have hadd : addDigit base (n % 2 ^ 64) ((digitOf base c).getD 0) =
        (n * base + (digitIn base c).getD 0) % 2 ^ 64 := by
      rw [digitOf_eq hbase, if_pos (h c List.mem_cons_self), Option.getD_some, addDigit]
      have hcast : (((n % 2 ^ 64 * base : Nat) : Int) + ((digitIn base c).getD 0 : Nat)) % 2 ^ 64 =
          ((n % 2 ^ 64 * base + (digitIn base c).getD 0) % 2 ^ 64 : Nat) := by
        push_cast
        rfl
      rw [hcast, Int.toNat_natCast, Nat.add_mod, Nat.mod_mul_mod, ← Nat.add_mod]
    have ih := addDigits_eq hbase ds (n * base + (digitIn base c).getD 0)
      fun c hc => h c (List.mem_cons_of_mem _ hc)
    rw [addDigits, List.foldl_cons, hadd]
    exact ih

theorem digitsNumeral_cases {base : Nat} (hbase : Base base) (t : Str) :
    (digitRun base t = [] ∧ digitsNumeral base t = none) ∨
    ∃ v : Nat, digitRun base t ≠ [] ∧ digitsNumeral base t = some ((v : Int), digitRest base t) ∧
      addDigits base 0 (digitRun base t) = v % 2 ^ 64 := by
  obtain ⟨hrun, hrest⟩ := digitRun_eq hbase t
  rw [hrun, hrest]
  unfold digitsNumeral
  by_cases hnil : run (digitIn base) base t = []
  · exact .inl ⟨hnil, if_pos hnil⟩
  · refine .inr ⟨_, hnil, if_neg hnil, ?_⟩
    exact addDigits_eq hbase _ 0 fun c hc => isDigit_of_mem_run hc

/-! ## Values -/

/-- The 64 bits `n` are `v` in every type that it fits. -/
def Casts (v : Int) (n : Nat) : Prop := ∀ type : IntegerType, type.Fits v → type.cast n = v

omit [NumberTables] in
theorem two_pow_bits (type : IntegerType) : ((2 ^ type.bits : Nat) : Int) = 2 * 2 ^ (type.bits - 1) ∧
    (2 : Int) ^ (type.bits - 1) ≤ 2 ^ 63 := by
  have hpos := type.bits_pos
  have hle := type.bits_le
  refine ⟨?_, pow_le_pow_right₀ (by decide) (by omega)⟩
  rw [← pow_succ', Nat.cast_pow, Nat.cast_ofNat]
  congr 1
  omega

omit [NumberTables] in
/-- The cast of a number that is `v` modulo 2^64. -/
theorem casts_of_modEq {v : Int} {n : Nat} (h : (n : Int) ≡ v [ZMOD 2 ^ 64]) : Casts v n := by
  intro type hfits
  have hdouble := (two_pow_bits type).1
  have hdvd : ((2 ^ type.bits : Nat) : Int) ∣ 2 ^ 64 := by
    rw [Nat.cast_pow, Nat.cast_ofNat]
    exact pow_dvd_pow 2 type.bits_le
  have hmod : (n : Int) % (2 ^ type.bits : Nat) = v % (2 ^ type.bits : Nat) := h.of_dvd hdvd
  unfold IntegerType.cast
  unfold IntegerType.Fits at hfits
  by_cases hsigned : type.signed = true
  · rw [if_pos hsigned] at hfits ⊢
    rw [← Int.emod_bmod, hmod, Int.emod_bmod]
    exact Int.bmod_eq_of_le_mul_two (by omega) (by omega)
  · rw [if_neg hsigned] at hfits ⊢
    rw [Int.natCast_emod, hmod]
    refine Int.emod_eq_of_lt hfits.1 ?_
    rw [Nat.cast_pow, Nat.cast_ofNat]
    exact hfits.2

omit [NumberTables] in
theorem casts_nat (v : Nat) : Casts v (v % 2 ^ 64) :=
  casts_of_modEq (by
    push_cast
    exact Int.mod_modEq _ _)

omit [NumberTables] in
/-- A minus before 2^63 at most, or before a number that does not fit with it. -/
theorem casts_negate (v : Nat) : Casts (-v) (negate (v % 2 ^ 64)) := by
  by_cases hlt : v < 2 ^ 63
  · refine casts_of_modEq ?_
    have hbmod : (v : Int).bmod (2 ^ 64) = v :=
      Int.bmod_eq_of_le_mul_two (by omega) (by omega)
    have hneg : (if (v : Int) > 0 then -(v : Int) else v) = -v := by
      split <;> omega
    unfold negate
    rw [Nat.mod_eq_of_lt (show v < 2 ^ 64 by omega), hbmod]
    simp only [hneg]
    rw [Int.toNat_of_nonneg (show 0 ≤ -(v : Int) % 2 ^ 64 by omega)]
    exact Int.mod_modEq _ _
  by_cases heq : v = 2 ^ 63
  · rw [heq]
    exact casts_of_modEq (by decide)
  · intro type hfits
    have hhalf := (two_pow_bits type).2
    unfold IntegerType.Fits at hfits
    split at hfits <;> omega

/-! ## The bases -/

/-- A base is read as its numerals say, but for what is left where there is none. -/
def Agrees (base : Nat) (t : Str) (r : ParsedText) : Prop :=
  (∃ v n rest, numeralIn base t = some (v, rest) ∧ r = ((.ok, n), rest) ∧ Casts v n) ∨
  (∃ status rest, numeralIn base t = none ∧ r = ((status, 0), rest) ∧ status ≠ .ok ∧
    (Restored base t → rest = t) ∧ (¬ Restored base t → rest.length < t.length))

theorem decimalOn_agrees (t : Str) : Agrees 10 t (decimalOn t) := by
  have hbase : Base 10 := .inr (.inr (.inl rfl))
  have hrestored : ∀ t, Restored 10 t ↔ ∀ c ∈ t.head?, ¬ IsSign c := by
    intro t
    cases t <;> simp [Restored]
  unfold Agrees numeralIn
  rw [if_pos rfl, hrestored]
  cases t with
  | nil => exact .inr ⟨.missingDigit, [], rfl, rfl, by decide, fun _ => rfl, fun h => (h (by simp)).elim⟩
  | cons sign t =>
    by_cases hsign : IsSign sign
    · rw [decimalOn, if_pos hsign]
      have hnumber : signedNumeral (sign :: t) =
          if sign = LocaleData.c.minus then (digitsNumeral 10 t).map fun (n, rest) => (-n, rest)
          else digitsNumeral 10 t := by
        rw [signedNumeral]
        by_cases hminus : sign = LocaleData.c.minus
        · rw [if_pos hminus, if_pos hminus]
        · rw [if_neg hminus, if_neg hminus, if_pos (hsign.resolve_left hminus)]
      rw [hnumber]
      rcases digitsNumeral_cases hbase t with ⟨hnone, hnumeral⟩ | ⟨v, hsome, hnumeral, hadd⟩
      · rw [hnumeral, if_pos hnone]
        refine .inr ⟨_, t, ?_, rfl, by decide, fun h => (h sign (by simp) hsign).elim, fun _ => ?_⟩
        · split <;> rfl
        · exact Nat.lt_succ_self _
      · rw [hnumeral, if_neg hsome, hadd]
        by_cases hminus : sign = LocaleData.c.minus
        · rw [if_pos hminus]
          exact .inl ⟨_, _, _, rfl, by simp only [if_pos hminus], casts_negate v⟩
        · rw [if_neg hminus]
          exact .inl ⟨_, _, _, rfl, by simp only [if_neg hminus], casts_nat v⟩
    · have hminus : sign ≠ LocaleData.c.minus := fun h => hsign (.inl h)
      have hplus : sign ≠ LocaleData.c.plus := fun h => hsign (.inr h)
      have hdigit : Utils.Character.isDigit sign = true ↔ digitRun 10 (sign :: t) ≠ [] := by
        rw [ne_eq, digitRun_eq_nil, digitOf]
        cases Utils.Character.isDigit sign <;> simp
      rw [decimalOn, if_neg hsign, signedNumeral, if_neg hminus, if_neg hplus]
      rcases digitsNumeral_cases hbase (sign :: t) with ⟨hnone, hnumeral⟩ | ⟨v, hsome, hnumeral, hadd⟩
      · rw [if_neg (hdigit.not.mpr (not_not_intro hnone))]
        refine .inr ⟨_, _, hnumeral, rfl, by decide, fun _ => rfl, fun h => (h fun c hc => ?_).elim⟩
        rw [List.head?_cons, Option.mem_some_iff] at hc
        exact hc ▸ hsign
      · rw [if_pos (hdigit.mpr hsome), hadd]
        exact .inl ⟨_, _, _, hnumeral, rfl, casts_nat v⟩

theorem octalOn_agrees (t : Str) : Agrees 8 t (octalOn t) := by
  have hrestored : ∀ t, Restored 8 t ↔ t = [] ∨ t.head? = some (unit '0') := by
    intro t
    simp [Restored]
  unfold Agrees numeralIn
  rw [if_neg (by decide), hrestored]
  cases t with
  | nil => exact .inr ⟨.invalidPrefix, [], rfl, rfl, by decide, fun _ => rfl, fun h => (h (.inl rfl)).elim⟩
  | cons pf t =>
    have hnumber : prefixedNumeral 8 (pf :: t) =
        if pf ≠ unit '0' then none else digitsNumeral 8 t := by
      cases t <;> rfl
    rw [octalOn, hnumber]
    by_cases hpf : pf ≠ unit '0'
    · rw [if_pos hpf, if_pos hpf]
      refine .inr ⟨_, _, rfl, rfl, by decide, fun h => ?_, fun _ => Nat.lt_succ_self _⟩
      exact (hpf (Option.some.inj (h.resolve_left (List.cons_ne_nil _ _)))).elim
    · rw [if_neg hpf, if_neg hpf]
      rcases digitsNumeral_cases (.inr (.inl rfl)) t with ⟨hnone, hnumeral⟩ | ⟨v, hsome, hnumeral, hadd⟩
      · rw [if_pos hnone]
        refine .inr ⟨_, _, hnumeral, rfl, by decide, fun _ => rfl, fun h => (h (.inr ?_)).elim⟩
        rw [List.head?_cons, not_not.mp hpf]
      · rw [if_neg hsome, hadd]
        exact .inl ⟨_, _, _, hnumeral, rfl, casts_nat v⟩

/-- The letter is known in both cases. -/
theorem toLower_letter (c : UInt16) : (UnicodeTables.toLower c = unit 'b' ↔ IsLetter 2 c) ∧
    (UnicodeTables.toLower c = unit 'x' ↔ IsLetter 16 c) := by
  have hlower := toLower_toNat c
  have hb : IsLetter 2 c ↔ (c.toNat = 98 ∨ c.toNat = 66) := by
    simp [IsLetter, ← UInt16.toNat_inj]
  have hx : IsLetter 16 c ↔ (c.toNat = 120 ∨ c.toNat = 88) := by
    simp [IsLetter, ← UInt16.toNat_inj]
  have hb' : UnicodeTables.toLower c = unit 'b' ↔ (UnicodeTables.toLower c).toNat = 98 :=
    UInt16.toNat_inj.symm
  have hx' : UnicodeTables.toLower c = unit 'x' ↔ (UnicodeTables.toLower c).toNat = 120 :=
    UInt16.toNat_inj.symm
  rw [hb, hx, hb', hx']
  split at hlower <;> omega

/-- A prefix is read, or some of the text is. -/
theorem prefixOn_cases {base : Nat} {letter : UInt16} (hbase : base ≠ 8)
    (hletter : ∀ c, UnicodeTables.toLower c = letter ↔ IsLetter base c) (t : Str) :
    (∃ c rest, t = unit '0' :: c :: rest ∧ IsLetter base c ∧ prefixOn letter t = (some c, rest) ∧
      prefixedNumeral base t = digitsNumeral base rest) ∨
    (¬ (t.head? = some (unit '0') ∧ ∃ c ∈ t[1]?, IsLetter base c) ∧
      prefixedNumeral base t = none ∧
      ∃ rest, prefixOn letter t = (none, rest) ∧ (t ≠ [] → rest.length < t.length)) := by
  match t with
  | [] => exact .inr ⟨by simp, rfl, [], rfl, fun h => (h rfl).elim⟩
  | [pf1] =>
    refine .inr ⟨by simp, ?_, [], rfl, fun _ => Nat.one_pos⟩
    rw [prefixedNumeral]
    simp [hbase]
  | pf1 :: pf2 :: t =>
    rw [prefixedNumeral, prefixOn, if_neg hbase]
    by_cases hpf1 : pf1 ≠ unit '0'
    · rw [if_pos hpf1, if_pos hpf1]
      exact .inr ⟨fun h => hpf1 (Option.some.inj h.1), rfl, _, rfl, fun _ => Nat.lt_succ_self _⟩
    · rw [if_neg hpf1, if_neg hpf1]
      by_cases hpf2 : IsLetter base pf2
      · rw [if_pos hpf2, if_neg (not_not_intro ((hletter pf2).mpr hpf2))]
        exact .inl ⟨pf2, t, by rw [not_not.mp hpf1], hpf2, rfl, rfl⟩
      · rw [if_neg hpf2, if_pos ((hletter pf2).not.mpr hpf2)]
        refine .inr ⟨by simp [hpf2], rfl, _, rfl, fun _ => ?_⟩
        simp only [List.length_cons]
        omega

theorem binaryOn_agrees (t : Str) : Agrees 2 t (binaryOn t) := by
  have hrestored : ∀ t, Restored 2 t ↔
      t = [] ∨ (t.head? = some (unit '0') ∧ ∃ c ∈ t[1]?, IsLetter 2 c) := by
    intro t
    simp [Restored]
  unfold Agrees numeralIn binaryOn
  rw [if_neg (by decide), hrestored]
  rcases prefixOn_cases (by decide) (fun c => (toLower_letter c).1) t with
    ⟨c, rest, rfl, hletter, hpre, hnumber⟩ | ⟨hno, hnumber, rest, hpre, hlt⟩
  · rw [hpre, hnumber]
    simp only
    rcases digitsNumeral_cases (.inl rfl) rest with ⟨hnone, hnumeral⟩ | ⟨v, hsome, hnumeral, hadd⟩
    · rw [if_pos hnone]
      refine .inr ⟨_, _, hnumeral, rfl, by decide, fun _ => rfl, fun h => (h (.inr ⟨rfl, ?_⟩)).elim⟩
      exact ⟨c, rfl, hletter⟩
    · rw [if_neg hsome, hadd]
      exact .inl ⟨_, _, _, hnumeral, rfl, casts_nat v⟩
  · rw [hpre, hnumber]
    refine .inr ⟨_, rest, rfl, rfl, by decide, fun h => ?_, fun h => hlt fun hnil => h (.inl hnil)⟩
    obtain rfl := h.resolve_right hno
    cases hpre
    rfl

theorem hexadecimalOn_agrees (t : Str) : Agrees 16 t (hexadecimalOn t) := by
  have hrestored : ∀ t, Restored 16 t ↔ t = [] := by
    intro t
    simp [Restored]
  unfold Agrees numeralIn hexadecimalOn
  rw [if_neg (by decide), hrestored]
  rcases prefixOn_cases (by decide) (fun c => (toLower_letter c).2) t with
    ⟨c, rest, rfl, hletter, hpre, hnumber⟩ | ⟨hno, hnumber, rest, hpre, hlt⟩
  · rw [hpre, hnumber]
    simp only
    rcases digitsNumeral_cases (.inr (.inr (.inr rfl))) rest with
      ⟨hnone, hnumeral⟩ | ⟨v, hsome, hnumeral, hadd⟩
    · rw [if_pos hnone]
      refine .inr ⟨_, rest, hnumeral, rfl, by decide, fun h => (by cases h), fun _ => ?_⟩
      simp only [List.length_cons]
      omega
    · rw [if_neg hsome, hadd]
      exact .inl ⟨_, _, _, hnumeral, rfl, casts_nat v⟩
  · rw [hpre, hnumber]
    refine .inr ⟨_, rest, rfl, rfl, by decide, fun h => ?_, hlt⟩
    subst h
    cases hpre
    rfl

theorem inBaseOn_agrees {base : Nat} (hbase : Base base) (t : Str) :
    Agrees base t (inBaseOn base t) := by
  rcases hbase with rfl | rfl | rfl | rfl
  · exact binaryOn_agrees t
  · exact octalOn_agrees t
  · exact decimalOn_agrees t
  · exact hexadecimalOn_agrees t

/-! ## Texts -/

section Outcomes

variable {type : IntegerType} {setting n : Nat} {t left rest : Str} {v : Int}

omit [NumberTables] in
theorem readOn_ok [UnicodeTables] (h : numberOn setting t = ((.ok, n), rest)) :
    readOn type setting t = (some (type.cast n), rest) := by
  unfold readOn
  rw [h]

omit [NumberTables] in
theorem readOn_failed [UnicodeTables] {status : NumberParsingStatus}
    (h : numberOn setting t = ((status, n), rest)) (hstatus : status ≠ .ok) :
    readOn type setting t = (none, rest) := by
  unfold readOn
  rw [h]
  cases status with
  | ok => exact (hstatus rfl).elim
  | missingDigit => rfl
  | invalidPrefix => rfl

omit [NumberTables] in
/-- The reader comes back with a number. -/
theorem outcome_read [UnicodeTables] (hnumeral : numeral setting t = some (v, rest))
    (hcasts : Casts v n) :
    (some (type.cast n), left) = outcome type setting t ↔ type.Fits v ∧ left = rest := by
  unfold outcome
  rw [hnumeral]
  simp only
  by_cases hfits : type.Fits v
  · rw [if_pos hfits, hcasts type hfits]
    simp [hfits]
  · rw [if_neg hfits]
    simp [hfits]

omit [NumberTables] in
theorem outcome_failed [UnicodeTables] (hnumeral : numeral setting t = some (v, rest)) :
    (none, t) = outcome type setting t ↔ ¬ type.Fits v := by
  unfold outcome
  rw [hnumeral]
  by_cases hfits : type.Fits v <;> simp [hfits]

omit [NumberTables] in
theorem outcome_none [UnicodeTables] (hnumeral : numeral setting t = none) :
    (none, left) = outcome type setting t ↔ left = t := by
  unfold outcome
  rw [hnumeral]
  simp

omit [NumberTables] in
theorem right_none [UnicodeTables] (hnumeral : numeral setting t = none) :
    Right type setting t ↔ Restored setting t := by
  unfold Right
  rw [hnumeral]

omit [NumberTables] in
theorem right_some [UnicodeTables] (hnumeral : numeral setting t = some (v, rest))
    (hforeign : ¬ (setting = 0 ∧ ForeignOctal t)) :
    Right type setting t ↔ type.Fits v ∧ ¬ (setting = 0 ∧ Lowered t) := by
  unfold Right
  rw [hnumeral]
  simp [hforeign]

omit [NumberTables] in
theorem right_foreign [UnicodeTables] (hnumeral : numeral setting t = some (v, rest))
    (hforeign : setting = 0 ∧ ForeignOctal t) : Right type setting t ↔ ¬ type.Fits v := by
  unfold Right
  rw [hnumeral]
  simp [hforeign]

end Outcomes

/-- The reader reads the text `t₁` in a base, in place of `t`. -/
theorem readOn_agrees (type : IntegerType) {setting base : Nat} (t₁ : Str) (hbase : Base base)
    {t : Str}
    (hlength : t₁.length = t.length) (hnumber : numberOn setting t = inBaseOn base t₁)
    (hnumeral : numeral setting t = numeralIn base t₁)
    (hforeign : ¬ (setting = 0 ∧ ForeignOctal t)) (hlowered : ¬ (setting = 0 ∧ Lowered t))
    (hrestored : numeral setting t = none → (Restored setting t ↔ Restored base t₁ ∧ t₁ = t)) :
    readOn type setting t = outcome type setting t ↔ Right type setting t := by
  rcases inBaseOn_agrees hbase t₁ with
    ⟨v, n, rest, hin, hread, hcasts⟩ | ⟨status, rest, hin, hread, hstatus, hkept, hlost⟩
  · rw [readOn_ok (hnumber.trans hread), right_some (hnumeral.trans hin) hforeign,
      outcome_read (hnumeral.trans hin) hcasts]
    simp [hlowered]
  · have hnone := hnumeral.trans hin
    rw [readOn_failed (hnumber.trans hread) hstatus, outcome_none hnone, right_none hnone,
      hrestored hnone]
    by_cases h : Restored base t₁
    · rw [hkept h]
      simp [h]
    · have hlt := hlost h
      have hne : rest ≠ t := fun heq => by
        rw [heq] at hlt
        omega
      simp [h, hne]

/-- A base that is set. -/
theorem readOn_set (type : IntegerType) {setting : Nat} (hbase : Base setting) (t : Str) :
    readOn type setting t = outcome type setting t ↔ Right type setting t := by
  have hne : setting ≠ 0 := by
    rintro rfl
    rcases hbase with h | h | h | h <;> cases h
  refine readOn_agrees type _ hbase rfl (if_pos hne) ?_ (fun h => hne h.1) (fun h => hne h.1)
    fun _ => by simp
  unfold numeral numeralBase
  rw [if_pos hne]

/-! ## Behind a zero -/

theorem numberOn_zero (c : UInt16) (t : Str) : numberOn 0 (unit '0' :: c :: t) =
    inBaseOn (baseOf (UnicodeTables.toLower c)) (unit '0' :: UnicodeTables.toLower c :: t) := rfl

omit [NumberTables] in
theorem numeralBase_zero (c : UInt16) (t : Str) :
    numeralBase 0 (unit '0' :: c :: t) = if IsLetter 16 c then 16 else if IsLetter 2 c then 2
      else if unit '0' ≤ c ∧ c ≤ unit '7' then 8 else 10 := rfl

omit [NumberTables] in
theorem restored_zero (c : UInt16) (t : Str) :
    Restored 0 (unit '0' :: c :: t) ↔ c = unit 'b' := by
  have hsign : ¬ IsSign 48 := by decide
  simp [Restored, hsign]

theorem not_foreignOctal {c : UInt16} {t : Str} (h : c.toNat < 128) :
    ¬ (0 = 0 ∧ ForeignOctal (unit '0' :: c :: t)) := by
  rintro ⟨-, -, c', hc', hge, -⟩
  obtain rfl : c = c' := Option.some.inj hc'
  exact absurd (UInt16.le_iff_toNat_le.mp hge) (not_le.mpr h)

theorem not_lowered {c : UInt16} {t : Str}
    (h : numeralBase 0 (unit '0' :: c :: t) = 10 → UnicodeTables.toLower c = c) :
    ¬ (0 = 0 ∧ Lowered (unit '0' :: c :: t)) := by
  rintro ⟨-, hten, -, c', hc', hne⟩
  obtain rfl : c = c' := Option.some.inj hc'
  exact hne (h hten)

theorem readOn_hexadecimal (type : IntegerType) {c : UInt16} (t : Str) (hc : IsLetter 16 c) :
    readOn type 0 (unit '0' :: c :: t) = outcome type 0 (unit '0' :: c :: t) ↔
      Right type 0 (unit '0' :: c :: t) := by
  have hlower := (toLower_letter c).2.mpr hc
  have hbase : numeralBase 0 (unit '0' :: c :: t) = 16 := by
    rw [numeralBase_zero, if_pos hc]
  have hascii : c.toNat < 128 ∧ c ≠ unit 'b' := by
    rcases hc with ⟨h, -⟩ | ⟨-, rfl | rfl⟩
    · cases h
    · decide
    · decide
  refine readOn_agrees type (unit '0' :: unit 'x' :: t) (.inr (.inr (.inr rfl)))
    rfl ?_ ?_ (not_foreignOctal hascii.1) (not_lowered fun h => ?_) fun _ => ?_
  · rw [numberOn_zero, hlower]
    rfl
  · rw [numeral, hbase]
    exact if_pos hc
  · rw [hbase] at h
    cases h
  · rw [restored_zero]
    refine ⟨fun h => (hascii.2 h).elim, fun h => ?_⟩
    simp [Restored] at h

theorem readOn_binary (type : IntegerType) {c : UInt16} (t : Str) (hc : IsLetter 2 c) :
    readOn type 0 (unit '0' :: c :: t) = outcome type 0 (unit '0' :: c :: t) ↔
      Right type 0 (unit '0' :: c :: t) := by
  have hlower := (toLower_letter c).1.mpr hc
  have hascii : c.toNat < 128 ∧ ¬ IsLetter 16 c := by
    rcases hc with ⟨-, rfl | rfl⟩ | ⟨h, -⟩
    · decide
    · decide
    · cases h
  have hbase : numeralBase 0 (unit '0' :: c :: t) = 2 := by
    rw [numeralBase_zero, if_neg hascii.2, if_pos hc]
  refine readOn_agrees type (unit '0' :: unit 'b' :: t) (.inl rfl)
    rfl ?_ ?_ (not_foreignOctal hascii.1) (not_lowered fun h => ?_) fun _ => ?_
  · rw [numberOn_zero, hlower]
    rfl
  · rw [numeral, hbase]
    exact if_pos hc
  · rw [hbase] at h
    cases h
  · have hkept : Restored 2 (unit '0' :: unit 'b' :: t) :=
      .inr (.inr (.inl ⟨rfl, rfl, unit 'b', rfl, by decide⟩))
    rw [restored_zero]
    refine ⟨fun h => ⟨hkept, by rw [h]⟩, fun h => ?_⟩
    cases h.2
    rfl

theorem digitOf_zero : digitOf 10 (unit '0') = some 0 := by
  have hzero : UnicodeTables.digitValue (unit '0') = 0 :=
    UnicodeTables.digitValue_ascii (unit '0') (by decide) (by decide)
  rw [digitOf, hzero]
  exact if_pos (by simp [Utils.Character.isDigit])

/-- A zero stands before a digit that is an octal one. -/
theorem readOn_octal (type : IntegerType) {c : UInt16} (t : Str)
    (hc : unit '0' ≤ c ∧ c ≤ unit '7') : readOn type 0 (unit '0' :: c :: t) =
      outcome type 0 (unit '0' :: c :: t) ↔ Right type 0 (unit '0' :: c :: t) := by
  have hrange : 48 ≤ c.toNat ∧ c.toNat ≤ 55 := hc
  have hlower : UnicodeTables.toLower c = c := by
    have h := toLower_toNat c
    rw [← UInt16.toNat_inj]
    split at h <;> omega
  have hletter : ¬ IsLetter 16 c ∧ ¬ IsLetter 2 c := by
    rw [← (toLower_letter c).1, ← (toLower_letter c).2, hlower]
    constructor <;> rintro rfl <;> revert hrange <;> decide
  have hbase : numeralBase 0 (unit '0' :: c :: t) = 8 := by
    rw [numeralBase_zero, if_neg hletter.1, if_neg hletter.2, if_pos hc]
  have hbaseOf : baseOf c = 8 := by
    have hdigit : Utils.Character.isDigit c = true := (isDigit_iff_toNat c).mpr (.inl (by omega))
    have hvalue := UnicodeTables.digitValue_ascii c hc.1 (UInt16.le_iff_toNat_le.mpr (by
      have hnine : (unit '9').toNat = 57 := rfl
      omega))
    have hx : c ≠ unit 'x' := fun h => hletter.1 ((toLower_letter c).2.mp (hlower.trans h))
    have hb : c ≠ unit 'b' := fun h => hletter.2 ((toLower_letter c).1.mp (hlower.trans h))
    rw [baseOf, if_neg hx, if_neg hb, if_pos ⟨hdigit, by omega, by omega⟩]
  refine readOn_agrees type _ (.inr (.inl rfl)) rfl ?_ ?_ (not_foreignOctal (by omega))
    (not_lowered fun _ => hlower) fun hnone => ?_
  · rw [numberOn_zero, hlower, hbaseOf]
  · rw [numeral, hbase]
  · -- there is a digit at least
    rw [numeral, hbase] at hnone
    have hnumeral : numeralIn 8 (unit '0' :: c :: t) = digitsNumeral 8 (c :: t) := rfl
    rcases digitsNumeral_cases (.inr (.inl rfl)) (c :: t) with ⟨hnil, -⟩ | ⟨v, -, hsome, -⟩
    · rw [digitRun_eq_nil, digitOf_toNat, hlower] at hnil
      simp [hrange] at hnil
    · rw [hnumeral, hsome] at hnone
      cases hnone

theorem decimalOn_zero (t : Str) : decimalOn (unit '0' :: t) =
    ((.ok, addDigits 10 0 (digitRun 10 t)), digitRest 10 t) := by
  have hsome : (digitOf 10 (unit '0')).isSome = true := by
    rw [digitOf_zero]
    rfl
  have hrun : digitRun 10 (unit '0' :: t) = unit '0' :: digitRun 10 t :=
    List.takeWhile_cons_of_pos hsome
  have hrest : digitRest 10 (unit '0' :: t) = digitRest 10 t := List.dropWhile_cons_of_pos hsome
  rw [decimalOn, if_neg (by decide), if_pos (by simp [Utils.Character.isDigit]), hrun, hrest,
    addDigits, List.foldl_cons, digitOf_zero]
  rfl

/-- A zero stands before another digit, or alone. -/
theorem numeralIn_zero (t : Str) : ∃ v,
    numeralIn 10 (unit '0' :: t) = some (v, digitRest 10 t) ∧
      Casts v (addDigits 10 0 (digitRun 10 t)) := by
  rcases decimalOn_agrees (unit '0' :: t) with
    ⟨v, n, rest, hin, hread, hcasts⟩ | ⟨status, rest, -, hread, hstatus, -⟩
  · rw [decimalOn_zero, Prod.mk.injEq, Prod.mk.injEq] at hread
    obtain ⟨⟨-, rfl⟩, rfl⟩ := hread
    exact ⟨v, hin, hcasts⟩
  · rw [decimalOn_zero, Prod.mk.injEq, Prod.mk.injEq] at hread
    exact (hstatus hread.1.1.symm).elim

/-- A digit outside ASCII, that the reader takes for an octal one. -/
theorem readOn_foreign (type : IntegerType) {c : UInt16} (t : Str) (hge : 128 ≤ c.toNat)
    (hdigit : Utils.Character.isDigit c = true) (hvalue : UnicodeTables.digitValue c ≤ 7)
    (hbase : numeralBase 0 (unit '0' :: c :: t) = 10) : readOn type 0 (unit '0' :: c :: t) =
      outcome type 0 (unit '0' :: c :: t) ↔ Right type 0 (unit '0' :: c :: t) := by
  have hdecimal := (((isDigit_iff_toNat c).mp hdigit).resolve_left (by omega)).2
  have hlower := NumberTables.toLower_digit c hdecimal
  have hforeign : ForeignOctal (unit '0' :: c :: t) :=
    ⟨rfl, c, rfl, UInt16.le_iff_toNat_le.mpr hge, hdigit, hvalue⟩
  have hbaseOf : baseOf c = 8 := by
    have hx : c ≠ unit 'x' := by
      rintro rfl
      revert hge
      decide
    have hb : c ≠ unit 'b' := by
      rintro rfl
      revert hge
      decide
    rw [baseOf, if_neg hx, if_neg hb, if_pos ⟨hdigit, (digitValue_bounds hdigit).1, hvalue⟩]
  have hnil : digitRun 8 (c :: t) = [] := by
    have hrange : ¬ (48 ≤ c.toNat ∧ c.toNat ≤ 55) := by omega
    rw [digitRun_eq_nil, digitOf_toNat, hlower]
    simp [hrange]
  have hread : numberOn 0 (unit '0' :: c :: t) = ((.missingDigit, 0), unit '0' :: c :: t) := by
    have hoctal : inBaseOn 8 (unit '0' :: c :: t) = octalOn (unit '0' :: c :: t) := rfl
    rw [numberOn_zero, hlower, hbaseOf, hoctal, octalOn, if_neg (by simp), if_pos hnil]
  obtain ⟨v, hin, -⟩ := numeralIn_zero (c :: t)
  have hnumeral : numeral 0 (unit '0' :: c :: t) = some (v, digitRest 10 (c :: t)) := by
    rw [numeral, hbase, hin]
  rw [readOn_failed hread (by decide), outcome_failed hnumeral, right_foreign hnumeral ⟨rfl, hforeign⟩]

/-- No base is known behind the zero. -/
theorem readOn_decimal (type : IntegerType) {c : UInt16} (t : Str)
    (hbase : numeralBase 0 (unit '0' :: c :: t) = 10)
    (hforeign : ¬ ForeignOctal (unit '0' :: c :: t)) : readOn type 0 (unit '0' :: c :: t) =
      outcome type 0 (unit '0' :: c :: t) ↔ Right type 0 (unit '0' :: c :: t) := by
  have hletter : ¬ IsLetter 16 c ∧ ¬ IsLetter 2 c ∧ ¬ (unit '0' ≤ c ∧ c ≤ unit '7') := by
    rw [numeralBase_zero] at hbase
    split at hbase
    · cases hbase
    · split at hbase
      · cases hbase
      · split at hbase
        · cases hbase
        · exact ⟨‹_›, ‹_›, ‹_›⟩
  have hbaseOf : baseOf (UnicodeTables.toLower c) = 10 := by
    rw [baseOf, if_neg ((toLower_letter c).2.not.mpr hletter.1),
      if_neg ((toLower_letter c).1.not.mpr hletter.2.1), if_neg]
    rintro ⟨hdigit, -, hvalue⟩
    have hlower := isDigit_toLower hdigit
    rw [hlower] at hdigit hvalue
    rcases (isDigit_iff_toNat c).mp hdigit with hascii | ⟨hge, -⟩
    · have hvalue' := UnicodeTables.digitValue_ascii c (UInt16.le_iff_toNat_le.mpr hascii.1)
        (UInt16.le_iff_toNat_le.mpr hascii.2)
      have hseven : ¬ (48 ≤ c.toNat ∧ c.toNat ≤ 55) := hletter.2.2
      omega
    · exact hforeign ⟨rfl, c, rfl, UInt16.le_iff_toNat_le.mpr hge, hdigit, hvalue⟩
  have hread : numberOn 0 (unit '0' :: c :: t) =
      ((.ok, addDigits 10 0 (digitRun 10 (UnicodeTables.toLower c :: t))),
        digitRest 10 (UnicodeTables.toLower c :: t)) := by
    rw [numberOn_zero, hbaseOf]
    exact decimalOn_zero _
  obtain ⟨v, hin, hcasts⟩ := numeralIn_zero (c :: t)
  have hnumeral : numeral 0 (unit '0' :: c :: t) = some (v, digitRest 10 (c :: t)) := by
    rw [numeral, hbase, hin]
  rw [readOn_ok hread, right_some hnumeral fun h => hforeign h.2]
  by_cases hlower : UnicodeTables.toLower c = c
  · rw [hlower, outcome_read hnumeral hcasts]
    exact ⟨fun h => ⟨h.1, not_lowered fun _ => hlower⟩, fun h => ⟨h.1, rfl⟩⟩
  · -- neither is a digit: the number is zero
    have hlowered : Lowered (unit '0' :: c :: t) := ⟨hbase, rfl, c, rfl, hlower⟩
    have hnil : ∀ {c}, ¬ Utils.Character.isDigit c = true → digitRun 10 (c :: t) = [] := by
      intro c hc
      rw [digitRun_eq_nil]
      exact if_neg hc
    have hc : digitRun 10 (c :: t) = [] := hnil fun hdigit => by
      rcases (isDigit_iff_toNat c).mp hdigit with hascii | ⟨-, hdecimal⟩
      · have h := toLower_toNat c
        refine hlower (UInt16.toNat_inj.mp ?_)
        split at h <;> omega
      · exact hlower (NumberTables.toLower_digit c hdecimal)
    have hc' : digitRun 10 (UnicodeTables.toLower c :: t) = [] :=
      hnil fun hdigit => hlower (isDigit_toLower hdigit)
    rw [hc] at hcasts
    rw [hc', digitRest_of_none hc', outcome_read hnumeral hcasts, digitRest_of_none hc]
    exact ⟨fun h => (hlower (List.cons.inj h.2).1).elim, fun h => (h.2 ⟨rfl, hlowered⟩).elim⟩

/-- No zero is in front. -/
theorem readOn_other (type : IntegerType) {ch : UInt16} (t : Str) (hzero : ch ≠ unit '0') :
    readOn type 0 (ch :: t) = outcome type 0 (ch :: t) ↔ Right type 0 (ch :: t) := by
  have hbase : numeralBase 0 (ch :: t) = 10 := by
    cases t with
    | nil => rfl
    | cons c t => exact if_pos hzero
  have hhead : ¬ (ch :: t).head? = some (unit '0') := fun h => hzero (Option.some.inj h)
  have hrestored : Restored 0 (ch :: t) ↔ Restored 10 (ch :: t) := by
    simp only [Restored, hhead]
    simp
  by_cases hten : IsSign ch ∨ Utils.Character.isDigit ch = true
  · refine readOn_agrees type _ (.inr (.inr (.inl rfl))) rfl ?_ ?_ (fun h => hhead h.2.1)
      (fun h => hhead h.2.2.1) fun _ => by rw [hrestored, and_iff_left rfl]
    · unfold numberOn
      rw [if_neg (by simp)]
      simp only [if_neg hzero, if_pos hten]
    · rw [numeral, hbase]
  · have hdecimal : decimalOn (ch :: t) = ((.missingDigit, 0), ch :: t) := by
      rw [decimalOn, if_neg fun h => hten (.inl h), if_neg fun h => hten (.inr h)]
    have hread : numberOn 0 (ch :: t) = ((.invalidPrefix, 0), ch :: t) := by
      unfold numberOn
      rw [if_neg (by simp)]
      simp only [if_neg hzero, if_neg hten]
    have hnone : numeral 0 (ch :: t) = none := by
      rcases decimalOn_agrees (ch :: t) with ⟨v, n, rest, -, hsome, -⟩ | ⟨status, rest, hin, -⟩
      · rw [hdecimal] at hsome
        cases hsome
      · rw [numeral, hbase, hin]
    have hkept : Restored 10 (ch :: t) := by
      refine .inr (.inr (.inr (.inr ⟨rfl, fun c hc => ?_⟩)))
      obtain rfl := Option.some.inj hc
      exact fun h => hten (.inl h)
    rw [readOn_failed hread (by decide), outcome_none hnone, right_none hnone, hrestored]
    exact ⟨fun _ => hkept, fun _ => rfl⟩

/-- A base that is not set. -/
theorem readOn_zero (type : IntegerType) (t : Str) :
    readOn type 0 t = outcome type 0 t ↔ Right type 0 t := by
  match t with
  | [] =>
    have hright : Right type 0 [] := .inl rfl
    exact ⟨fun _ => hright, fun _ => rfl⟩
  | [ch] =>
    by_cases hzero : ch = unit '0'
    · obtain ⟨v, hin, hcasts⟩ := numeralIn_zero []
      have hnumeral : numeral 0 [unit '0'] = some (v, []) := hin
      have hread : numberOn 0 [unit '0'] = ((.ok, 0), []) := rfl
      have hlowered : ¬ (0 = 0 ∧ Lowered [unit '0']) := by
        rintro ⟨-, -, -, c, hc, -⟩
        cases hc
      have hcasts₀ : Casts v 0 := hcasts
      rw [hzero, readOn_ok hread, right_some hnumeral, outcome_read hnumeral hcasts₀]
      · exact ⟨fun h => ⟨h.1, hlowered⟩, fun h => ⟨h.1, rfl⟩⟩
      · rintro ⟨-, -, c, hc, -⟩
        cases hc
    · exact readOn_other type [] hzero
  | ch :: c :: t =>
    by_cases hzero : ch = unit '0'
    · rw [hzero]
      by_cases hx : IsLetter 16 c
      · exact readOn_hexadecimal type t hx
      by_cases hb : IsLetter 2 c
      · exact readOn_binary type t hb
      by_cases hoctal : unit '0' ≤ c ∧ c ≤ unit '7'
      · exact readOn_octal type t hoctal
      have hbase : numeralBase 0 (unit '0' :: c :: t) = 10 := by
        rw [numeralBase_zero, if_neg hx, if_neg hb, if_neg hoctal]
      by_cases hforeign : ForeignOctal (unit '0' :: c :: t)
      · obtain ⟨-, c', hc', hge, hdigit, hvalue⟩ := hforeign
        obtain rfl : c = c' := Option.some.inj hc'
        exact readOn_foreign type t (UInt16.le_iff_toNat_le.mp hge) hdigit hvalue hbase
      · exact readOn_decimal type t hbase hforeign
    · exact readOn_other type (c :: t) hzero

/-- The reader does to a text what it should exactly when it is right. -/
theorem readOn_iff (type : IntegerType) {setting : Nat} (hset : setting = 0 ∨ Base setting)
    (t : Str) : readOn type setting t = outcome type setting t ↔ Right type setting t := by
  rcases hset with rfl | hbase
  · exact readOn_zero type t
  · exact readOn_set type hbase t

/-! ## Streams -/

variable {B D C Data : Type} [PushQueue B] [FileDevice B D] [TextCodec C Data]
  {s : TextStream B D C Data}

omit [NumberTables] in
/-- What the reader returns, where the status is still Ok, and the text that it leaves. -/
def result (r : Int × TextStream B D C Data) : Option Int × Str :=
  (if r.2.status = .ok then some r.1 else none, r.2.unread)

/-- The stream is read with the outcome that its text has. -/
def Exact (type : IntegerType) (rounds : Nat) (s : TextStream B D C Data) : Prop :=
  ∃ r, s.readInteger rounds type = some r ∧
    result r = outcome type s.integerBase (s.unread.dropWhile Utils.Character.isSpace)

omit [NumberTables] in
/-- A number is read, and the stream goes on behind it. -/
theorem readInteger_ok [UnicodeTables] (h : Flowing s) {rounds : Nat}
    (hlt : s.unread.length < rounds) (type : IntegerType) {n : Nat} {rest : Str}
    (hread : numberOn s.integerBase (s.unread.dropWhile Utils.Character.isSpace) = ((.ok, n), rest)) :
    ∃ s', s.readInteger rounds type = some (type.cast n, s') ∧ Onward s s' rest := by
  obtain ⟨s', hget, honward⟩ := getNumber_spec h hlt
  rw [hread] at hget honward
  exact ⟨s', by rw [readInteger, hget]; rfl, honward⟩

omit [NumberTables] in
/-- No number is read, and the status says so. -/
theorem readInteger_failed [UnicodeTables] (h : Flowing s) (hok : s.status = .ok) {rounds : Nat}
    (hlt : s.unread.length < rounds) (type : IntegerType) {status : NumberParsingStatus} {n : Nat}
    {rest : Str} (hread : numberOn s.integerBase
      (s.unread.dropWhile Utils.Character.isSpace) = ((status, n), rest)) (hstatus : status ≠ .ok) :
    ∃ r, s.readInteger rounds type = some r ∧ result r = (none, rest) := by
  obtain ⟨s', hget, honward⟩ := getNumber_spec h hlt
  rw [hread] at hget honward
  have hunread := honward.unread
  have hset : ∀ status, status ≠ StreamStatus.ok →
      result (0, s'.setStatus status) = (none, rest) := by
    intro status hne
    rw [setStatus, if_pos (honward.status.trans hok), result]
    simp only [if_neg hne, Prod.mk.injEq, true_and]
    exact hunread
  have hend : (if s'.atEnd = true then StreamStatus.readPastEnd else .readCorruptData) ≠ .ok := by
    split <;> decide
  cases status with
  | ok => exact (hstatus rfl).elim
  | missingDigit => exact ⟨_, by rw [readInteger, hget]; rfl, hset _ hend⟩
  | invalidPrefix => exact ⟨_, by rw [readInteger, hget]; rfl, hset _ hend⟩

omit [NumberTables] in
theorem readInteger_spec [UnicodeTables] (h : Flowing s) (hok : s.status = .ok) {rounds : Nat}
    (hlt : s.unread.length < rounds) (type : IntegerType) :
    ∃ r, s.readInteger rounds type = some r ∧
      result r = readOn type s.integerBase (s.unread.dropWhile Utils.Character.isSpace) := by
  rcases hnumber : numberOn s.integerBase (s.unread.dropWhile Utils.Character.isSpace) with
    ⟨⟨status, n⟩, rest⟩
  by_cases hstatus : status = .ok
  · subst hstatus
    obtain ⟨s', hread, honward⟩ := readInteger_ok h hlt type hnumber
    refine ⟨_, hread, ?_⟩
    rw [readOn_ok hnumber, result]
    simp only [honward.status.trans hok, honward.unread, if_true]
  · rw [readOn_failed hnumber hstatus]
    exact readInteger_failed h hok hlt type hnumber hstatus

theorem right_exact (h : Flowing s) (hok : s.status = .ok) {rounds : Nat}
    (hlt : s.unread.length < rounds) (type : IntegerType)
    (hset : s.integerBase = 0 ∨ Base s.integerBase) :
    Exact type rounds s ↔
      Right type s.integerBase (s.unread.dropWhile Utils.Character.isSpace) := by
  obtain ⟨r, hread, hresult⟩ := readInteger_spec h hok hlt type
  rw [← readOn_iff type hset, ← hresult]
  refine ⟨fun ⟨r', hread', hresult'⟩ => ?_, fun heq => ⟨r, hread, heq⟩⟩
  rw [hread] at hread'
  cases hread'
  exact hresult'

end Tables

/-- An integer is read as its numeral says exactly where the reader is right, from every text and
from every device that gives a character with each chunk. -/
theorem integer_reading {B D C Data : Type} [PushQueue B] [FileDevice B D] [TextCodec C Data]
    [NumberTables] (type : IntegerType) (setting : Nat) (hset : setting = 0 ∨ Base setting)
    (bufferSize rounds : Nat) :
    (∀ t : Str, t.length < rounds →
      (Exact type rounds ((onString bufferSize t : TextStream B D C Data).setIntegerBase setting) ↔
        Right type setting (t.dropWhile Utils.Character.isSpace))) ∧
    ∀ s : TextStream B D C Data, Flowing s → s.status = .ok → s.unread.length < rounds →
      (Exact type rounds (s.setIntegerBase setting) ↔
        Right type setting (s.unread.dropWhile Utils.Character.isSpace)) := by
  have hall : ∀ s : TextStream B D C Data, Flowing s → s.status = .ok → s.unread.length < rounds →
      (Exact type rounds (s.setIntegerBase setting) ↔
        Right type setting (s.unread.dropWhile Utils.Character.isSpace)) := by
    intro s h hok hlt
    have h' : Flowing (s.setIntegerBase setting) := by
      refine ⟨⟨?_, h.reading.lastToken⟩, h.fluent⟩
      rcases h.reading.source with hstring | ⟨d, hd⟩
      · exact .inl hstring
      · exact .inr ⟨d, hd.source, hd.placed, hd.readable, hd.offset_le, hd.fixed, hd.codec, hd.size⟩
    exact right_exact h' hok hlt type hset
  refine ⟨fun t hlt => ?_, hall⟩
  obtain ⟨hreading, hunread⟩ := onString_reading (B := B) (D := D) (C := C) bufferSize t
  have hflowing : Flowing (onString bufferSize t : TextStream B D C Data) :=
    ⟨hreading, fun d hd => (by cases hd)⟩
  have h := hall _ hflowing rfl (by rw [hunread]; exact hlt)
  rw [hunread] at h
  exact h

/-- A device with Latin-1, without text mode, gives a character for each byte. -/
theorem flowing_latin1 {B D : Type} [PushQueue B] [FileDevice B D] {bufferSize : Nat}
    (hsize : 0 < bufferSize) {d : RandomAccess B D} (hplaced : d.Placed) (hr : d.readable = true)
    (htext : d.text = false) : Flowing (onDeviceWith bufferSize d Latin1Codec.latin1) := by
  refine ⟨(onDeviceWith_reading hsize (chunkInvariant_latin1 _) hplaced hr).1, fun d' hd' => ?_⟩
  obtain rfl : d = d' := by cases hd'; rfl
  refine ⟨.inl rfl, fun k hk hnil => ?_⟩
  have hlt : k * bufferSize < d.rest.length := hk
  have hlength := congrArg List.length hnil
  rw [htext] at hlength
  simp only [decode, kept, TextCodec.toUnicode, latin1, List.length_nil, List.length_eq_zero_iff,
    Bool.false_eq_true, if_false, List.map_eq_nil_iff, List.take_eq_nil_iff, List.drop_eq_nil_iff,
    onDeviceWith, onDevice, fresh] at hlength
  omega

section Ascii

@[reducible] def asciiNumberTables : NumberTables where
  toUnicodeTables := Utils.asciiTables
  digitValue_range _ h := (by cases h)
  toLower_digit _ h := (by cases h)
  isDecimalDigit_toLower _ h := (by cases h)
  toLower_kelvin c hge hlt := by
    have hlower : Utils.asciiTables.toLower c = c := if_neg fun h =>
      absurd (UInt16.le_iff_toNat_le.mp hge) (by
        have hcapital : c.toNat ≤ 90 := h.2
        have hbound : (128 : UInt16).toNat = 128 := rfl
        omega)
    rw [hlower] at hlt
    exact absurd hge (UInt16.not_le.mpr hlt)

local instance : NumberTables := asciiNumberTables

/-- A hexadecimal number behind a blank, in a string and in a file. -/
theorem integer_reading_hexadecimal :
    Exact .longlong 9 ((onString 2 (lit16 " 0x1F;") : Latin1Stream).setIntegerBase 0) ∧
    Exact .longlong 9 ((onDeviceWith 2 (RandomAccess.opened true false false false 16
      ⟨lit " 0x1F;", 0⟩) .latin1 : Latin1Stream).setIntegerBase 0) := by
  obtain ⟨hstring, hdevice⟩ := integer_reading (B := Ds.RingBuffer.Pushable) (D := MemoryFile)
    (C := Latin1Codec) .longlong 0 (.inl rfl) 2 9
  have hnumeral : numeral 0 (lit16 "0x1F;") = some (31, lit16 ";") := by decide
  have hright : Right .longlong 0 (lit16 "0x1F;") := by
    rw [right_some hnumeral (not_foreignOctal (by decide))]
    exact ⟨by decide, not_lowered fun h => absurd h (by decide)⟩
  refine ⟨(hstring _ (by decide)).mpr hright, ?_⟩
  have hplaced : (RandomAccess.opened true false false false 16 ⟨lit " 0x1F;", 0⟩ :
      RandomAccess Ds.RingBuffer.Pushable MemoryFile).Placed :=
    ⟨by decide, by decide, rfl, by decide⟩
  exact (hdevice _ (flowing_latin1 (by decide) hplaced rfl rfl) rfl (by decide)).mpr hright

/-- A capital behind a zero is changed, 300 is read into 8 bits, and a sign and a prefix without
digits are gone. -/
theorem integer_reading_wrong :
    (((onString 2 (lit16 "0A") : Latin1Stream).setIntegerBase 0).readInteger 9 .longlong).map result =
      some (some 0, lit16 "a") ∧
    outcome .longlong 0 (lit16 "0A") = (some 0, lit16 "A") ∧
    (((onString 2 (lit16 "300") : Latin1Stream).setIntegerBase 10).readInteger 9
      ⟨false, 8, by decide, by decide⟩).map result = some (some 44, []) ∧
    outcome ⟨false, 8, by decide, by decide⟩ 10 (lit16 "300") = (none, lit16 "300") ∧
    (((onString 2 (lit16 "-x") : Latin1Stream).setIntegerBase 10).readInteger 9 .longlong).map
      result = some (none, lit16 "x") ∧
    outcome .longlong 10 (lit16 "-x") = (none, lit16 "-x") ∧
    (((onString 2 (lit16 "0xg") : Latin1Stream).setIntegerBase 0).readInteger 9 .longlong).map
      result = some (none, lit16 "g") ∧
    outcome .longlong 0 (lit16 "0xg") = (none, lit16 "0xg") :=
  ⟨rfl, by decide, rfl, by decide, rfl, by decide, rfl, by decide⟩

end Ascii

end Libpdk.Io.TextStream

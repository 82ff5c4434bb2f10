import Mathlib.Data.List.TakeWhile
import Mathlib.Data.Nat.Digits.Lemmas
import Mathlib.Tactic.Ring

/-!
# Numerals

Digits with the highest one first, and what they stand for (`value`). A text is read through
`digit`, which says what digit a character is, if any: `run` are the digits that it begins with.
-/
namespace Libpdk.Numeral

variable {b : Nat}

/-! ## Digits -/

/-- What digits stand for, the highest one first. -/
def value (b : Nat) (ds : List Nat) : Nat := ds.foldl (fun n d => n * b + d) 0

/-- The digits of a number, the highest one first. Zero has none. -/
def digits (b n : Nat) : List Nat := (Nat.digits b n).reverse

@[simp] theorem value_nil : value b [] = 0 := rfl

theorem value_concat (ds : List Nat) (d : Nat) : value b (ds ++ [d]) = value b ds * b + d := by
  rw [value, List.foldl_append]
  rfl

theorem value_append (ds es : List Nat) :
    value b (ds ++ es) = value b ds * b ^ es.length + value b es := by
  induction es using List.reverseRecOn with
  | nil => simp
  | append_singleton es d ih =>
    rw [← List.append_assoc, value_concat, value_concat, ih, List.length_append,
      List.length_singleton, Nat.pow_succ, Nat.add_mul, Nat.mul_assoc]
    omega

theorem value_cons (d : Nat) (ds : List Nat) :
    value b (d :: ds) = d * b ^ ds.length + value b ds := by
  have h := value_append (b := b) [d] ds
  rw [List.singleton_append] at h
  rw [h]
  simp [value]

theorem value_zeros (k : Nat) (ds : List Nat) :
    value b (List.replicate k 0 ++ ds) = value b ds := by
  induction k with
  | zero => rfl
  | succ k ih => rw [List.replicate_succ, List.cons_append, value_cons, Nat.zero_mul, Nat.zero_add, ih]

theorem value_le_append (hb : 0 < b) (ds es : List Nat) : value b ds ≤ value b (ds ++ es) := by
  rw [value_append]
  have h := Nat.le_mul_of_pos_right (value b ds) (Nat.pow_pos (n := es.length) hb)
  omega

theorem value_eq_ofDigits (ds : List Nat) : value b ds = Nat.ofDigits b ds.reverse := by
  induction ds using List.reverseRecOn with
  | nil => rfl
  | append_singleton ds d ih =>
    rw [value_concat, ih, List.reverse_append, List.reverse_singleton, List.singleton_append,
      Nat.ofDigits_cons, Nat.mul_comm, Nat.add_comm]

@[simp] theorem value_digits (n : Nat) : value b (digits b n) = n := by
  rw [value_eq_ofDigits, digits, List.reverse_reverse, Nat.ofDigits_digits]

theorem digits_lt (hb : 1 < b) {n d : Nat} (h : d ∈ digits b n) : d < b :=
  Nat.digits_lt_base hb (List.mem_reverse.mp h)

@[simp] theorem digits_zero (b : Nat) : digits b 0 = [] := by
  rw [digits, Nat.digits_zero, List.reverse_nil]

/-- One turn of a loop that takes digits off the end of a number. -/
theorem digits_step (hb : 1 < b) {n : Nat} (hn : n ≠ 0) :
    digits b n = digits b (n / b) ++ [n % b] := by
  rw [digits, Nat.digits_def' hb (Nat.pos_of_ne_zero hn), List.reverse_cons]
  rfl

theorem digits_eq_nil {n : Nat} : digits b n = [] ↔ n = 0 := by
  rw [digits, List.reverse_eq_nil_iff, Nat.digits_eq_nil_iff_eq_zero]

theorem digits_ne_nil {n : Nat} (hn : n ≠ 0) : digits b n ≠ [] := fun h => hn (digits_eq_nil.mp h)

theorem length_digits_le (hb : 1 < b) {n k : Nat} (hn : n < b ^ k) : (digits b n).length ≤ k := by
  rw [digits, List.length_reverse]
  exact (Nat.digits_length_le_iff hb n).mpr hn

/-! ## Digits in a text -/

section

variable {α : Type} (digit : α → Option Nat)

def isDigit (b : Nat) (c : α) : Bool := (digit c).any (· < b)

/-- The digits that characters are. -/
def digitsOf (s : List α) : List Nat := s.map fun c => (digit c).getD 0

/-- The digits that a text begins with. -/
def run (b : Nat) (s : List α) : List α := s.takeWhile (isDigit digit b)

/-- The text behind them. -/
def behind (b : Nat) (s : List α) : List α := s.dropWhile (isDigit digit b)

variable {digit}

theorem isDigit_iff {c : α} : isDigit digit b c = true ↔ ∃ d, digit c = some d ∧ d < b := by
  rw [isDigit]
  cases digit c <;> simp

theorem run_append_behind (b : Nat) (s : List α) : run digit b s ++ behind digit b s = s :=
  List.takeWhile_append_dropWhile

theorem isDigit_of_mem_run {s : List α} {c : α} (h : c ∈ run digit b s) :
    isDigit digit b c = true := List.mem_takeWhile_imp h

theorem run_append {s t : List α} (h : ∀ c ∈ s, isDigit digit b c = true) :
    run digit b (s ++ t) = s ++ run digit b t :=
  List.takeWhile_append_of_pos h

theorem behind_append {s t : List α} (h : ∀ c ∈ s, isDigit digit b c = true) :
    behind digit b (s ++ t) = behind digit b t :=
  List.dropWhile_append_of_pos h

theorem run_of_all {s : List α} (h : ∀ c ∈ s, isDigit digit b c = true) : run digit b s = s := by
  have heq := run_append (t := []) h
  simpa [run] using heq

theorem behind_of_all {s : List α} (h : ∀ c ∈ s, isDigit digit b c = true) :
    behind digit b s = [] := by
  have heq := behind_append (t := []) h
  simpa [behind] using heq

theorem run_cons_other {c : α} {s : List α} (h : isDigit digit b c = false) :
    run digit b (c :: s) = [] := List.takeWhile_cons_of_neg (by simp [h])

theorem behind_cons_other {c : α} {s : List α} (h : isDigit digit b c = false) :
    behind digit b (c :: s) = c :: s := List.dropWhile_cons_of_neg (by simp [h])

theorem run_cons {c : α} {s : List α} (h : isDigit digit b c = true) :
    run digit b (c :: s) = c :: run digit b s := List.takeWhile_cons_of_pos h

theorem behind_cons {c : α} {s : List α} (h : isDigit digit b c = true) :
    behind digit b (c :: s) = behind digit b s := List.dropWhile_cons_of_pos h

/-- No digit follows the digits. -/
theorem isDigit_behind {s t : List α} {c : α} (h : behind digit b s = c :: t) :
    isDigit digit b c = false := by
  have hhead := List.head_dropWhile_not (isDigit digit b) (l := s) (by
    show behind digit b s ≠ []
    rw [h]
    simp)
  have hc : (behind digit b s).head (by rw [h]; simp) = c := by simp [h]
  rw [← hc]
  exact hhead

theorem digitsOf_append (s t : List α) :
    digitsOf digit (s ++ t) = digitsOf digit s ++ digitsOf digit t := List.map_append

/-- Digits that are written by a table are read back. -/
theorem digitsOf_write {symbol : Nat → α} {ds : List Nat}
    (h : ∀ d ∈ ds, digit (symbol d) = some d) : digitsOf digit (ds.map symbol) = ds := by
  rw [digitsOf, List.map_map]
  conv_rhs => rw [← List.map_id ds]
  refine List.map_congr_left fun d hd => ?_
  simp [h d hd]

theorem isDigit_write {symbol : Nat → α} {ds : List Nat}
    (h : ∀ d ∈ ds, digit (symbol d) = some d) (hlt : ∀ d ∈ ds, d < b) :
    ∀ c ∈ ds.map symbol, isDigit digit b c = true := by
  intro c hc
  obtain ⟨d, hd, rfl⟩ := List.mem_map.mp hc
  exact isDigit_iff.mpr ⟨d, h d hd, hlt d hd⟩

end

end Libpdk.Numeral

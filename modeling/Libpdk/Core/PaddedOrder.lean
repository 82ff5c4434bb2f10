import Mathlib.Order.PiLex
import Mathlib.Tactic.Ring

/-!
# Lists ordered with an end of their own

Lists are compared like sequences that go on for ever with one value `pad` behind the list. No
element is the same as `pad`, so the end of a list lies between the elements below and above it, and
different lists are different sequences (`padded_injective`). The order is the lexicographic one.
-/
namespace Libpdk

section

variable {α β : Type} [LinearOrder β] {e : α → β} {pad : β}

/-- The list as a sequence. -/
def padded (e : α → β) (pad : β) (l : List α) : Lex (ℕ → β) := toLex fun i => (l[i]?).elim pad e

/-- The first elements decide, or what is behind them. -/
theorem toLex_lt_iff {f g : ℕ → β} : toLex f < toLex g ↔ f 0 < g 0 ∨
    f 0 = g 0 ∧ toLex (fun i => f (i + 1)) < toLex fun i => g (i + 1) := by
  constructor
  · rintro ⟨i, hsame, hlt⟩
    cases i with
    | zero => exact .inl hlt
    | succ i =>
      exact .inr ⟨hsame 0 (Nat.succ_pos i), i, fun j hj => hsame (j + 1) (Nat.succ_lt_succ hj), hlt⟩
  · rintro (hlt | ⟨hsame, i, hrest, hlt⟩)
    · exact ⟨0, fun j hj => absurd hj (Nat.not_lt_zero j), hlt⟩
    · refine ⟨i + 1, fun j hj => ?_, hlt⟩
      cases j with
      | zero => exact hsame
      | succ j => exact hrest j (Nat.lt_of_succ_lt_succ hj)

theorem padded_nil_cons (hpad : ∀ a, e a ≠ pad) (a : α) (l : List α) :
    padded e pad [] < padded e pad (a :: l) ↔ pad < e a := by
  rw [padded, padded, toLex_lt_iff]
  constructor
  · rintro (hlt | ⟨hsame, -⟩)
    · exact hlt
    · exact absurd hsame.symm (hpad a)
  · exact .inl

theorem padded_cons_nil (hpad : ∀ a, e a ≠ pad) (a : α) (l : List α) :
    padded e pad (a :: l) < padded e pad [] ↔ e a < pad := by
  rw [padded, padded, toLex_lt_iff]
  constructor
  · rintro (hlt | ⟨hsame, -⟩)
    · exact hlt
    · exact absurd hsame (hpad a)
  · exact .inl

theorem padded_cons_cons (a b : α) (l m : List α) :
    padded e pad (a :: l) < padded e pad (b :: m) ↔
      e a < e b ∨ e a = e b ∧ padded e pad l < padded e pad m := by
  rw [padded, padded, toLex_lt_iff]
  rfl

omit [LinearOrder β] in
/-- Different lists are different sequences. -/
theorem padded_injective (he : Function.Injective e) (hpad : ∀ a, e a ≠ pad) :
    Function.Injective (padded e pad) := by
  intro l m h
  apply List.ext_getElem?
  intro i
  have hi : (l[i]?).elim pad e = (m[i]?).elim pad e := congrFun (congrArg ofLex h) i
  cases hl : l[i]? with
  | none =>
    cases hm : m[i]? with
    | none => rfl
    | some b => rw [hl, hm] at hi; exact absurd hi.symm (hpad b)
  | some a =>
    cases hm : m[i]? with
    | none => rw [hl, hm] at hi; exact absurd hi (hpad a)
    | some b => rw [hl, hm] at hi; exact congrArg some (he hi)

end

end Libpdk

import Mathlib.Data.List.Basic
import Mathlib.Tactic.Ring

/-!
# Loops that collect

`collect f i n` is the loop over `i, …, i + n - 1` that gathers what `f`
returns and stops at the first failure.
-/
namespace Libpdk

variable {α β : Type}

def collect (f : Nat → Option α) : Nat → Nat → Option (List α)
  | _, 0 => some []
  | i, n + 1 => do
    let a ← f i
    let as ← collect f (i + 1) n
    some (a :: as)

theorem collect_eq_some {f : Nat → Option α} {i n : Nat} {as : List α} :
    collect f i n = some as ↔
      as.length = n ∧ ∀ j (h : j < as.length), f (i + j) = some as[j] := by
  induction n generalizing i as with
  | zero =>
    simp only [collect, Option.some.injEq, List.length_eq_zero_iff]
    constructor
    · intro h
      subst h
      exact ⟨rfl, fun j hj => by cases hj⟩
    · exact fun h => h.1.symm
  | succ n ih =>
    simp only [collect, Option.bind_eq_bind, Option.bind_eq_some_iff, Option.some.injEq]
    constructor
    · intro h
      obtain ⟨a, ha, as', has, rfl⟩ := h
      obtain ⟨hlen, hall⟩ := ih.mp has
      refine ⟨by rw [List.length_cons, hlen], fun j hj => ?_⟩
      cases j with
      | zero => exact ha
      | succ j =>
        have := hall j (by rw [List.length_cons] at hj; omega)
        rw [List.getElem_cons_succ, ← this]
        congr 1
        omega
    · intro h
      obtain ⟨hlen, hall⟩ := h
      cases as with
      | nil => cases hlen
      | cons a as =>
        refine ⟨a, hall 0 (by simp), as, ih.mpr ⟨by simpa using hlen, fun j hj => ?_⟩, rfl⟩
        have := hall (j + 1) (by rw [List.length_cons]; omega)
        rw [List.getElem_cons_succ] at this
        rw [← this]
        congr 1
        omega

theorem collect_isSome {f : Nat → Option α} {i n : Nat} (h : ∀ j < n, ∃ a, f (i + j) = some a) :
    ∃ as, collect f i n = some as := by
  induction n generalizing i with
  | zero => exact ⟨[], rfl⟩
  | succ n ih =>
    obtain ⟨a, ha⟩ := h 0 (by omega)
    obtain ⟨as, has⟩ := ih (i := i + 1) fun j hj => by
      obtain ⟨b, hb⟩ := h (j + 1) (by omega)
      exact ⟨b, by rw [← hb]; congr 1; omega⟩
    rw [Nat.add_zero] at ha
    exact ⟨a :: as, by simp [collect, ha, has]⟩

end Libpdk

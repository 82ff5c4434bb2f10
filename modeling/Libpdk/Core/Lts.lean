import Mathlib.Tactic.Ring

/-!
# Labelled transition systems

States, labels, a set of initial states and a step relation. A protocol of the
library is modelled as such a system; its safety results are inductive
invariants (`Inductive`), lifted to every reachable state by
`Inductive.reachable`.

`restrict ok` keeps only the steps that meet a condition on the state before
the step and on the label. It is how a result "in every run whose steps all
meet `ok`" is stated.
-/
namespace Libpdk

universe u v

structure Lts (S : Type u) (L : Type v) where
  init : S → Prop
  step : S → L → S → Prop

namespace Lts

variable {S : Type u} {L : Type v}

/-- `Run s ls s'`: the labels `ls`, taken in order, lead from `s` to `s'`. -/
inductive Run (A : Lts S L) : S → List L → S → Prop
  | nil (s : S) : Run A s [] s
  | cons {s s₁ s' : S} {l : L} {ls : List L} : A.step s l s₁ → Run A s₁ ls s' → Run A s (l :: ls) s'

def Reachable (A : Lts S L) (s : S) : Prop := ∃ s₀ ls, A.init s₀ ∧ A.Run s₀ ls s

/-- `I` holds initially and every step preserves it. -/
structure Inductive (A : Lts S L) (I : S → Prop) : Prop where
  init : ∀ s, A.init s → I s
  step : ∀ s l s', I s → A.step s l s' → I s'

theorem Run.invariant {A : Lts S L} {I : S → Prop} (hI : A.Inductive I) {s s' : S} {ls : List L}
    (hr : A.Run s ls s') (hs : I s) : I s' := by
  induction hr with
  | nil => exact hs
  | cons hst _ ih => exact ih (hI.step _ _ _ hs hst)

theorem Inductive.reachable {A : Lts S L} {I : S → Prop} (hI : A.Inductive I) (s : S)
    (hr : A.Reachable s) : I s := by
  obtain ⟨s₀, ls, h₀, hrun⟩ := hr
  exact hrun.invariant hI (hI.init s₀ h₀)

/-- The same system, with only the steps that meet `ok`. -/
def restrict (A : Lts S L) (ok : S → L → Prop) : Lts S L where
  init := A.init
  step s l s' := A.step s l s' ∧ ok s l

/-! ## Systems given by a step function -/

/-- The system of a partial step function: `none` is a disabled label. -/
def ofStep (init : S → Prop) (f : S → L → Option S) : Lts S L where
  init := init
  step s l s' := f s l = some s'

/-- Runs the labels one after the other. -/
def exec (f : S → L → Option S) : S → List L → Option S
  | s, [] => some s
  | s, l :: ls => (f s l).bind fun s' => exec f s' ls

theorem run_of_exec {init : S → Prop} {f : S → L → Option S} :
    ∀ {s : S} {ls : List L} {s' : S}, exec f s ls = some s' → (ofStep init f).Run s ls s'
  | s, [], s', h => by
    simp only [exec, Option.some.injEq] at h
    subst h
    exact .nil s
  | s, l :: ls, s', h => by
    simp only [exec, Option.bind_eq_some_iff] at h
    obtain ⟨s₁, h₁, h₂⟩ := h
    exact .cons h₁ (run_of_exec h₂)

/-- `exec`, refusing the labels that do not meet `ok`. -/
def execOk (f : S → L → Option S) (ok : S → L → Prop) [∀ s l, Decidable (ok s l)] :
    S → List L → Option S
  | s, [] => some s
  | s, l :: ls => if ok s l then (f s l).bind fun s' => execOk f ok s' ls else none

theorem run_of_execOk {init : S → Prop} {f : S → L → Option S} {ok : S → L → Prop}
    [∀ s l, Decidable (ok s l)] :
    ∀ {s : S} {ls : List L} {s' : S}, execOk f ok s ls = some s' →
      ((ofStep init f).restrict ok).Run s ls s'
  | s, [], s', h => by
    simp only [execOk, Option.some.injEq] at h
    subst h
    exact .nil s
  | s, l :: ls, s', h => by
    simp only [execOk] at h
    split at h
    · rename_i hok
      simp only [Option.bind_eq_some_iff] at h
      obtain ⟨s₁, h₁, h₂⟩ := h
      exact .cons ⟨h₁, hok⟩ (run_of_execOk h₂)
    · cases h

end Lts

end Libpdk

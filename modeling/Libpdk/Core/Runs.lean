import Mathlib.Data.List.Chain
import Mathlib.Tactic.Ring

/-!
# Ordering the runs of a list by swaps

Elements with key 0 stay where they are and separate runs. Two neighbours of a run are swapped if
the first one has the greater key; this keeps the order of elements with the same key, and each
swap takes one inversion away. Where no neighbours are left to be swapped each run is in order.
-/
namespace Libpdk

section

variable {α : Type} (key : α → Nat)

/-- Neighbours that are not swapped. -/
def InOrder (x y : α) : Prop := key y = 0 ∨ key x ≤ key y

/-- The elements with key 0 at their places. -/
def separators (l : List α) : List (Option α) :=
  l.map fun x => if key x = 0 then some x else none

/-- The pairs of elements that are not in order. -/
def inversions : List α → Nat
  | [] => 0
  | x :: l => (l.countP fun y => 0 < key y ∧ key y < key x) + inversions l

/-- The same elements, each key's in the same order, with the separators at their places. -/
structure Reordered (l l' : List α) : Prop where
  perm : l'.Perm l
  stable : ∀ k, l'.filter (key · = k) = l.filter (key · = k)
  separators : separators key l' = separators key l

end

section

variable {α : Type} {key : α → Nat} {l l' l'' front rest : List α} {x y : α}

theorem Reordered.refl (l : List α) : Reordered key l l := ⟨.refl l, fun _ => rfl, rfl⟩

theorem Reordered.trans (h : Reordered key l l') (h' : Reordered key l' l'') :
    Reordered key l l'' :=
  ⟨h'.perm.trans h.perm, fun k => (h'.stable k).trans (h.stable k),
    h'.separators.trans h.separators⟩

theorem filter_swap {p : α → Bool} (hnot : ¬(p x = true ∧ p y = true)) (front rest : List α) :
    (front ++ y :: x :: rest).filter p = (front ++ x :: y :: rest).filter p := by
  rw [List.filter_append, List.filter_append]
  congr 1
  cases hx : p x <;> cases hy : p y <;> simp [hx, hy] at hnot ⊢

/-- Swapped neighbours have different keys, and both are not 0. -/
theorem reordered_swap (hpos : 0 < key y) (hlt : key y < key x) :
    Reordered key (front ++ x :: y :: rest) (front ++ y :: x :: rest) := by
  refine ⟨(List.Perm.swap x y rest).append_left front, fun k => filter_swap ?_ front rest, ?_⟩
  · rintro ⟨hx, hy⟩
    rw [decide_eq_true_eq] at hx hy
    omega
  · rw [separators, separators, List.map_append, List.map_append, List.map_cons, List.map_cons,
      List.map_cons, List.map_cons, if_neg (by omega), if_neg (by omega)]

/-- A swap takes one inversion away. -/
theorem inversions_swap (hpos : 0 < key y) (hlt : key y < key x) :
    inversions key (front ++ y :: x :: rest) + 1 = inversions key (front ++ x :: y :: rest) := by
  induction front with
  | nil =>
    rw [List.nil_append, List.nil_append, inversions, inversions, inversions, inversions,
      List.countP_cons_of_neg (by rw [decide_eq_true_eq]; omega),
      List.countP_cons_of_pos (by rw [decide_eq_true_eq]; omega)]
    omega
  | cons z front ih =>
    have hperm := ((List.Perm.swap x y rest).append_left front).countP_eq
      fun y => 0 < key y ∧ key y < key z
    rw [List.cons_append, List.cons_append, inversions, inversions, hperm, Nat.add_assoc, ih]

/-- Where all neighbours are in order, the keys of a run are. -/
theorem sorted_run {run : List α} (hsorted : l.IsChain (InOrder key)) (hrun : run <:+: l)
    (hmarks : ∀ x ∈ run, key x ≠ 0) : run.Pairwise fun x y => key x ≤ key y := by
  have hchain : run.IsChain fun x y => key x ≤ key y := by
    obtain ⟨front, rest, rfl⟩ := hrun
    refine List.IsChain.imp_of_mem_imp ?_ hsorted.left_of_append.right_of_append
    intro x y _ hy hxy
    exact hxy.resolve_left (hmarks y hy)
  exact List.isChain_iff_pairwise.mp hchain

theorem InOrder.of_zero (hy : key y = 0) (x : α) : InOrder key x y := .inl hy

theorem InOrder.zero_left (hx : key x = 0) (y : α) : InOrder key x y := .inr (by omega)

end

end Libpdk

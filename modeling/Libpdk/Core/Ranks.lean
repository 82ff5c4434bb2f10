import Mathlib.Data.List.Dedup
import Mathlib.Data.List.Sort
import Mathlib.Tactic.Ring

/-!
# Ranks in a sorted list

The rank of an element is the number of different elements that are smaller. In the list that is
sorted and has each element once it is the place of the element (`findIdx?_take_rank`).
-/
namespace Libpdk

section

variable {α : Type} [LinearOrder α]

/-- Of equal neighbours the first. -/
def unique : List α → List α
  | [] => []
  | a :: l =>
    match unique l with
    | [] => [a]
    | b :: l' => if a = b then b :: l' else a :: b :: l'

theorem mem_unique {l : List α} {a : α} : a ∈ unique l ↔ a ∈ l := by
  induction l with
  | nil => rfl
  | cons b l ih =>
    rw [unique, List.mem_cons, ← ih]
    split
    · next hnil => rw [hnil, List.mem_singleton]; simp
    · next c l' hcons =>
      rw [hcons]
      split
      · next hbc => rw [hbc, List.mem_cons]; tauto
      · rw [List.mem_cons]

theorem unique_sorted {l : List α} (hsorted : l.Pairwise (· ≤ ·)) :
    (unique l).Pairwise (· < ·) := by
  induction l with
  | nil => exact List.Pairwise.nil
  | cons a l ih =>
    have hle : ∀ b ∈ l, a ≤ b := fun b hb => List.rel_of_pairwise_cons hsorted hb
    have hrest := ih hsorted.of_cons
    rw [unique]
    split
    · exact List.pairwise_singleton _ _
    · next b l' hcons =>
      rw [hcons] at hrest
      split
      · exact hrest
      · next hab =>
        have hb : a ≤ b := hle b (mem_unique.mp (by rw [hcons]; exact List.mem_cons_self ..))
        have hlt : a < b := lt_of_le_of_ne hb hab
        refine List.pairwise_cons.mpr ⟨fun c hc => ?_, hrest⟩
        rcases List.mem_cons.mp hc with rfl | hc
        · exact hlt
        · exact hlt.trans (List.rel_of_pairwise_cons hrest hc)

end

end Libpdk

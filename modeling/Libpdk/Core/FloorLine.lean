import Mathlib.Algebra.Order.Group.Unbundled.Int
import Mathlib.Tactic.Ring

/-!
# Floors of lines

`line p r q n` is the value of the line `(p * n + r) / q`, rounded down, and `position` the last
`n` at which it is at most `x`: the two are adjoint (`line_le_iff`), so that every number is in
one step of the line, and `position` finds it (`position_eq_iff`).
-/
namespace Libpdk.FloorLine

def line (p r q n : Int) : Int := (p * n + r) / q

def position (p r q x : Int) : Int := (q * x + (q - 1 - r)) / p

variable {p r q n x : Int}

theorem line_le_iff (hp : 0 < p) (hq : 0 < q) : line p r q n ≤ x ↔ n ≤ position p r q x := by
  have hmul : (x + 1) * q = q * x + q := by rw [Int.add_mul, Int.one_mul, Int.mul_comm]
  rw [line, position, Int.le_ediv_iff_mul_le hp, ← Int.lt_add_one_iff, Int.ediv_lt_iff_lt_mul hq,
    hmul, Int.mul_comm n p]
  omega

/-- The position is the step that the number is in. -/
theorem position_eq_iff (hp : 0 < p) (hq : 0 < q) :
    position p r q x = n ↔ line p r q n ≤ x ∧ x < line p r q (n + 1) := by
  have h := line_le_iff (r := r) (n := n) (x := x) hp hq
  have h' := line_le_iff (r := r) (n := n + 1) (x := x) hp hq
  omega

end Libpdk.FloorLine

import Mathlib.Algebra.BigOperators.Group.List.Basic
import Mathlib.Data.List.DropRight
import Mathlib.Tactic.Ring

/-!
# Locations

Where a walk through a tree of names leads: some levels up from where it begins, and then down along
names. One walk after another makes locations a monoid, so that a walk may be taken on a stack from
its first step on (`walk`) or gathered from its last one (`walk_eq_prod`). A location is reached with
the least number of steps up by its own path (`ups_walk_le`).
-/
namespace Libpdk

/-- One step of a walk. -/
inductive Step (α : Type)
  | here
  | up
  | down (name : α)
  deriving DecidableEq

/-- Some levels up, and then down along the names. -/
@[ext] structure Location (α : Type) where
  ups : Nat
  names : List α
  deriving DecidableEq

namespace Location

variable {α : Type}

instance : One (Location α) := ⟨⟨0, []⟩⟩

/-- What leads up in the second location takes back names of the first. -/
instance : Mul (Location α) :=
  ⟨fun a b => ⟨a.ups + (b.ups - a.names.length),
    a.names.take (a.names.length - b.ups) ++ b.names⟩⟩

@[simp] theorem ups_one : (1 : Location α).ups = 0 := rfl

@[simp] theorem names_one : (1 : Location α).names = [] := rfl

@[simp] theorem ups_mul (a b : Location α) :
    (a * b).ups = a.ups + (b.ups - a.names.length) := rfl

@[simp] theorem names_mul (a b : Location α) :
    (a * b).names = a.names.take (a.names.length - b.ups) ++ b.names := rfl

theorem length_names_mul (a b : Location α) :
    (a * b).names.length = a.names.length - b.ups + b.names.length := by
  rw [names_mul, List.length_append, List.length_take]
  omega

protected theorem mul_assoc (a b c : Location α) : a * b * c = a * (b * c) := by
  ext1
  · simp only [ups_mul, length_names_mul]
    omega
  · rw [names_mul, length_names_mul, names_mul, names_mul, names_mul, ups_mul,
      List.take_append, List.take_take, List.length_take, List.append_assoc]
    congr 2
    · omega
    · congr 1
      omega

instance : Monoid (Location α) where
  mul_assoc := Location.mul_assoc
  one_mul a := by ext1 <;> simp
  mul_one a := by ext1 <;> simp

/-! ## Walks -/

/-- A step on the stack of names. -/
def step (l : Location α) : Step α → Location α
  | .here => l
  | .up =>
    if l.names = [] then { l with ups := l.ups + 1 } else { l with names := l.names.dropLast }
  | .down name => { l with names := l.names ++ [name] }

/-- Where the steps lead, taken one after the other. -/
def walk (steps : List (Step α)) : Location α := steps.foldl step 1

/-- Where one step leads. -/
def ofStep : Step α → Location α
  | .here => 1
  | .up => ⟨1, []⟩
  | .down name => ⟨0, [name]⟩

theorem step_eq_mul (l : Location α) (s : Step α) : l.step s = l * ofStep s := by
  cases s with
  | here => exact (mul_one l).symm
  | up =>
    by_cases hl : l.names = []
    · ext1 <;> simp [step, ofStep, hl]
    · have hpos := List.length_pos_iff.mpr hl
      ext1
      · simp only [step, ofStep, ups_mul, if_neg hl]
        omega
      · simp [step, ofStep, hl, List.dropLast_eq_take]
  | down name => ext1 <;> simp [step, ofStep]

theorem foldl_step (l : Location α) (steps : List (Step α)) :
    steps.foldl step l = l * (steps.map ofStep).prod := by
  induction steps generalizing l with
  | nil => exact (mul_one l).symm
  | cons s steps ih =>
    rw [List.foldl_cons, ih, step_eq_mul, List.map_cons, List.prod_cons, mul_assoc]

theorem walk_eq_prod (steps : List (Step α)) : walk steps = (steps.map ofStep).prod := by
  rw [walk, foldl_step, one_mul]

theorem walk_append (s t : List (Step α)) : walk (s ++ t) = walk s * walk t := by
  rw [walk_eq_prod, walk_eq_prod, walk_eq_prod, List.map_append, List.prod_append]

theorem walk_singleton (s : Step α) : walk [s] = ofStep s := by
  rw [walk_eq_prod, List.map_singleton, List.prod_singleton]

/-- The names are those of steps down. -/
theorem mem_names_walk {steps : List (Step α)} {name : α} (h : name ∈ (walk steps).names) :
    .down name ∈ steps := by
  induction steps with
  | nil => cases h
  | cons s steps ih =>
    rw [← List.singleton_append, walk_append, walk_singleton, names_mul, List.mem_append] at h
    rcases h with hfirst | hrest
    · have hs : name ∈ (ofStep s).names := List.mem_of_mem_take hfirst
      cases s with
      | here => cases hs
      | up => cases hs
      | down other =>
        rw [List.mem_singleton.mp hs]
        exact List.mem_cons_self
    · exact List.mem_cons_of_mem _ (ih hrest)

/-! ## One step in front of a location -/

theorem here_mul (l : Location α) : ofStep .here * l = l := one_mul l

theorem up_mul (l : Location α) : ofStep .up * l = ⟨l.ups + 1, l.names⟩ := by
  ext1
  · simp only [ofStep, ups_mul, List.length_nil]
    omega
  · simp [ofStep]

theorem down_mul (name : α) (names : List α) :
    ofStep (.down name) * ⟨0, names⟩ = ⟨0, name :: names⟩ := by
  ext1 <;> simp [ofStep]

/-- A name that a later step up takes back. -/
theorem down_mul_succ (name : α) (ups : Nat) (names : List α) :
    ofStep (.down name) * ⟨ups + 1, names⟩ = ⟨ups, names⟩ := by
  ext1 <;> simp [ofStep]

/-! ## Paths -/

/-- The steps of a location. -/
def path (l : Location α) : List (Step α) := List.replicate l.ups .up ++ l.names.map .down

theorem walk_replicate_up (n : Nat) : walk (List.replicate n (.up : Step α)) = ⟨n, []⟩ := by
  induction n with
  | zero => rfl
  | succ n ih =>
    rw [List.replicate_succ, ← List.singleton_append, walk_append, ih, walk_singleton, up_mul]

theorem walk_map_down (names : List α) : walk (names.map .down) = ⟨0, names⟩ := by
  induction names with
  | nil => rfl
  | cons name names ih =>
    rw [List.map_cons, ← List.singleton_append, walk_append, ih, walk_singleton, down_mul]

@[simp] theorem walk_path (l : Location α) : walk l.path = l := by
  rw [path, walk_append, walk_replicate_up, walk_map_down]
  ext1 <;> simp

/-! ## The least number of steps up -/

/-- A walk has as many steps up as it leads up. -/
theorem ups_walk_le [DecidableEq α] (steps : List (Step α)) :
    (walk steps).ups ≤ steps.count .up := by
  induction steps with
  | nil => exact Nat.le_refl _
  | cons s steps ih =>
    rw [← List.singleton_append, walk_append, walk_singleton, List.count_append]
    cases s with
    | here =>
      rw [here_mul]
      omega
    | up =>
      rw [up_mul, List.count_singleton_self]
      exact (Nat.add_comm _ 1).le.trans (Nat.add_le_add_left ih 1)
    | down name =>
      simp only [ofStep, ups_mul, List.length_singleton]
      omega

/-- From one place down to another: back to where the names part, and no less. -/
theorem ups_of_mul {a l b : Location α} (ha : a.ups = 0) (hb : b.ups = 0) (h : a * l = b) :
    l.ups ≤ a.names.length ∧
      a.names.take (a.names.length - l.ups) = b.names.take (a.names.length - l.ups) := by
  subst h
  rw [ups_mul, ha] at hb
  refine ⟨by omega, ?_⟩
  rw [names_mul, List.take_left']
  rw [List.length_take]
  omega

/-- Back to what two places share, and down again. -/
theorem mul_common (shared names others : List α) :
    (⟨0, shared ++ names⟩ : Location α) * ⟨names.length, others⟩ = ⟨0, shared ++ others⟩ := by
  ext1
  · simp only [ups_mul, List.length_append]
    omega
  · simp

end Location

end Libpdk

import Mathlib.Data.List.Basic
import Mathlib.Tactic.Ring

/-!
# The first difference of two lists

Lists of numbers are compared place by place. What decides is the first place at which they
differ (`FirstDifference`), and where there is none the lengths; a loop that returns the first
difference that is not zero decides in the same way (`compare_differences`).
-/
namespace Libpdk

/-- What a loop over differences returns. -/
@[grind =] def firstNonzero : List Int → Int
  | [] => 0
  | d :: ds => if d ≠ 0 then d else firstNonzero ds

def differences (a b : List Nat) : List Int :=
  List.zipWith (fun x y : Nat => (x : Int) - y) a b

/-- The lists differ at `i`, and not in front of it. -/
structure FirstDifference (a b : List Nat) (i x y : Nat) : Prop where
  left : a[i]? = some x
  right : b[i]? = some y
  ne : x ≠ y
  same : a.take i = b.take i

theorem firstNonzero_append (l m : List Int) :
    firstNonzero (l ++ m) = if firstNonzero l ≠ 0 then firstNonzero l else firstNonzero m := by
  induction l with
  | nil => rfl
  | cons d ds ih =>
    by_cases hd : d = 0
    · simp [firstNonzero, hd, ih]
    · simp [firstNonzero, hd]

theorem differences_append {a b a' b' : List Nat} (h : a.length = b.length) :
    differences (a ++ a') (b ++ b') = differences a b ++ differences a' b' :=
  List.zipWith_append h

theorem firstNonzero_self (a : List Nat) : firstNonzero (differences a a) = 0 := by
  induction a with
  | nil => rfl
  | cons x a ih => simpa [differences, firstNonzero] using ih

theorem compare_sub (x y : Nat) : compare ((x : Int) - y) 0 = compare x y := by
  rcases Nat.lt_trichotomy x y with h | h | h
  · rw [Nat.compare_eq_lt.mpr h, Int.compare_eq_lt]
    omega
  · rw [Nat.compare_eq_eq.mpr h, Int.compare_eq_eq]
    omega
  · rw [Nat.compare_eq_gt.mpr h, Int.compare_eq_gt]
    omega

/-- A result, or another one where it is zero. -/
theorem compare_orElse (d e : Int) :
    compare (if d ≠ 0 then d else e) 0 = (compare d 0).then (compare e 0) := by
  rcases Int.lt_trichotomy d 0 with h | h | h
  · rw [if_pos (Int.ne_of_lt h), Int.compare_eq_lt.mpr h]
    rfl
  · rw [if_neg (not_not.mpr h), Int.compare_eq_eq.mpr h]
    rfl
  · rw [if_pos (Int.ne_of_gt h), Int.compare_eq_gt.mpr h]
    rfl

theorem compare_neg (d : Int) : compare (-d) 0 = (compare d 0).swap := by
  rcases Int.lt_trichotomy d 0 with h | h | h
  · rw [Int.compare_eq_lt.mpr h, Ordering.swap, Int.compare_eq_gt]
    omega
  · rw [Int.compare_eq_eq.mpr h, Ordering.swap, Int.compare_eq_eq]
    omega
  · rw [Int.compare_eq_gt.mpr h, Ordering.swap, Int.compare_eq_lt]
    omega

theorem compare_succ (m n : Nat) : compare (m + 1) (n + 1) = compare m n := by
  rw [← compare_sub, ← compare_sub]
  congr 1
  omega

theorem compare_differences (a b : List Nat) :
    (compare (firstNonzero (differences a b)) 0).then (compare a.length b.length) =
      compare a b := by
  induction a generalizing b with
  | nil => cases b <;> rfl
  | cons x a ih =>
    cases b with
    | nil => rfl
    | cons y b =>
      rw [List.compare_cons_cons, ← ih b, ← compare_sub x y]
      show (compare (if ((x : Int) - y) ≠ 0 then ((x : Int) - y)
        else firstNonzero (differences a b)) 0).then (compare (a.length + 1) (b.length + 1)) = _
      rw [compare_orElse, compare_succ, Ordering.then_assoc]

theorem FirstDifference.succ {a b : List Nat} {i x y : Nat} (h : FirstDifference a b i x y)
    (z : Nat) : FirstDifference (z :: a) (z :: b) (i + 1) x y :=
  ⟨by simpa using h.left, by simpa using h.right, h.ne, by simp [h.same]⟩

theorem FirstDifference.of_succ {a b : List Nat} {i x y z w : Nat}
    (h : FirstDifference (z :: a) (w :: b) (i + 1) x y) : z = w ∧ FirstDifference a b i x y := by
  have hsame := h.same
  simp only [List.take_succ_cons, List.cons.injEq] at hsame
  exact ⟨hsame.1, by simpa using h.left, by simpa using h.right, h.ne, hsame.2⟩

theorem FirstDifference.of_zero {a b : List Nat} {x y z w : Nat}
    (h : FirstDifference (z :: a) (w :: b) 0 x y) : z = x ∧ w = y :=
  ⟨by simpa using h.left, by simpa using h.right⟩

/-- The lists differ at some place, or not up to the length of the shorter one. -/
theorem firstDifference_or (a b : List Nat) : (∃ i x y, FirstDifference a b i x y) ∨
    compare a b = compare a.length b.length ∧ ∀ k < min a.length b.length, a[k]? = b[k]? := by
  induction a generalizing b with
  | nil => exact .inr ⟨by cases b <;> rfl, fun k hk => by simp at hk⟩
  | cons z a ih =>
    cases b with
    | nil => exact .inr ⟨rfl, fun k hk => by simp at hk⟩
    | cons w b =>
      by_cases hzw : z = w
      · subst hzw
        rcases ih b with ⟨i, x, y, h⟩ | ⟨hcompare, hsame⟩
        · exact .inl ⟨i + 1, x, y, h.succ z⟩
        · refine .inr ⟨?_, fun k hk => ?_⟩
          · rw [List.compare_cons_cons, Nat.compare_eq_eq.mpr rfl, Ordering.eq_then, hcompare,
              List.length_cons, List.length_cons, compare_succ]
          · cases k with
            | zero => rfl
            | succ k =>
              simp only [List.length_cons] at hk
              simpa using hsame k (by omega)
      · exact .inl ⟨0, z, w, rfl, rfl, hzw, rfl⟩

theorem FirstDifference.lt {a b : List Nat} {i x y : Nat} (h : FirstDifference a b i x y) :
    i < min a.length b.length := by
  have hl := (List.getElem?_eq_some_iff.mp h.left).1
  have hr := (List.getElem?_eq_some_iff.mp h.right).1
  omega

theorem FirstDifference.not_same {a b : List Nat} {i x y : Nat} (h : FirstDifference a b i x y)
    (hsame : ∀ k < min a.length b.length, a[k]? = b[k]?) : False := by
  have heq := hsame i h.lt
  rw [h.left, h.right] at heq
  exact h.ne (Option.some.inj heq)

theorem FirstDifference.compare_eq {a b : List Nat} {i x y : Nat}
    (h : FirstDifference a b i x y) : compare a b = compare x y := by
  induction i generalizing a b with
  | zero =>
    cases a with
    | nil => cases h.left
    | cons z a =>
      cases b with
      | nil => cases h.right
      | cons w b =>
        obtain ⟨rfl, rfl⟩ := h.of_zero
        rw [List.compare_cons_cons]
        cases hc : compare z w with
        | eq => exact absurd (Nat.compare_eq_eq.mp hc) h.ne
        | lt => rfl
        | gt => rfl
  | succ i ih =>
    cases a with
    | nil => cases h.left
    | cons z a =>
      cases b with
      | nil => cases h.right
      | cons w b =>
        obtain ⟨rfl, h'⟩ := h.of_succ
        rw [List.compare_cons_cons, Nat.compare_eq_eq.mpr rfl]
        exact ih h'

/-- There is one first difference. -/
theorem FirstDifference.place_eq {a b : List Nat} {i j x y z w : Nat}
    (h : FirstDifference a b i x y) (h' : FirstDifference a b j z w) : i = j := by
  have hle : ∀ {i j x y z w : Nat}, FirstDifference a b i x y → FirstDifference a b j z w →
      ¬i < j := by
    intro i j x y z w h h' hlt
    have hleft := congrArg (·[i]?) h'.same
    simp only [List.getElem?_take, if_pos hlt, h.left, h.right, Option.some.injEq] at hleft
    exact h.ne hleft
  have h₁ := hle h h'
  have h₂ := hle h' h
  omega

end Libpdk

import Mathlib.Data.List.Basic
import Mathlib.Tactic.Ring

/-!
# Occurrences

A list stands in another one at a place (`OccursAt`). A search returns the least place from a
start on (`FirstFrom`) or the greatest one up to an end (`LastUpTo`), and -1 where there is none;
both are functions of what is searched for, so that two searches for the same agree, and the
searches one behind another count the places (`countFrom_first`).
-/
namespace Libpdk

variable {α : Type}

/-- `n` stands in `h` at `i`. -/
def OccursAt (n h : List α) (i : Nat) : Prop :=
  i + n.length ≤ h.length ∧ ∀ j < n.length, h[i + j]? = n[j]?

theorem occursAt_iff_take {n h : List α} {i : Nat} :
    OccursAt n h i ↔ i ≤ h.length ∧ (h.drop i).take n.length = n := by
  constructor
  · rintro ⟨hle, hget⟩
    refine ⟨by omega, List.ext_getElem? fun j => ?_⟩
    by_cases hj : j < n.length
    · rw [List.getElem?_take, if_pos hj, List.getElem?_drop, hget j hj]
    · rw [List.getElem?_take, if_neg hj, List.getElem?_eq_none (by omega)]
  · rintro ⟨hi, htake⟩
    have hlen := congrArg List.length htake
    rw [List.length_take, List.length_drop] at hlen
    refine ⟨by omega, fun j hj => ?_⟩
    rw [← congrArg (·[j]?) htake, List.getElem?_take, if_pos hj, List.getElem?_drop]

instance [DecidableEq α] (n h : List α) (i : Nat) : Decidable (OccursAt n h i) :=
  decidable_of_iff _ occursAt_iff_take.symm

theorem OccursAt.le {n h : List α} {i : Nat} (ho : OccursAt n h i) : i + n.length ≤ h.length :=
  ho.1

theorem occursAt_nil {h : List α} {i : Nat} : OccursAt [] h i ↔ i ≤ h.length := by
  simp [OccursAt]

theorem occursAt_singleton {x : α} {h : List α} {i : Nat} : OccursAt [x] h i ↔ h[i]? = some x := by
  constructor
  · rintro ⟨-, hget⟩
    have hzero := hget 0 Nat.one_pos
    rwa [Nat.add_zero] at hzero
  · intro hx
    obtain ⟨hi, -⟩ := List.getElem?_eq_some_iff.mp hx
    refine ⟨by rw [List.length_singleton]; omega, fun j hj => ?_⟩
    rw [List.length_singleton] at hj
    obtain rfl : j = 0 := by omega
    rw [Nat.add_zero, hx]
    rfl

theorem occursAt_iff_isPrefix {n h : List α} {i : Nat} :
    OccursAt n h i ↔ i ≤ h.length ∧ n <+: h.drop i := by
  rw [occursAt_iff_take, List.prefix_iff_eq_take, eq_comm (a := n)]

theorem occursAt_succ {n h : List α} {c : α} {i : Nat} :
    OccursAt n (c :: h) (i + 1) ↔ OccursAt n h i := by
  rw [occursAt_iff_isPrefix, occursAt_iff_isPrefix, List.length_cons, List.drop_succ_cons]
  exact and_congr_left fun _ => Nat.succ_le_succ_iff

/-- An occurrence seen from its end. -/
theorem OccursAt.back {n h : List α} {i s : Nat} (ho : OccursAt n h i) (hs : s < n.length) :
    h[i + n.length - 1 - s]? = n[n.length - 1 - s]? := by
  rw [← ho.2 (n.length - 1 - s) (by omega)]
  congr 1
  omega

/-! ## Reading -/

/-- The element at a place, which may lie outside. -/
def elementAt (s : List α) (i : Int) : Option α := if 0 ≤ i then s[i.toNat]? else none

@[simp] theorem elementAt_nat (s : List α) (i : Nat) : elementAt s i = s[i]? := by
  rw [elementAt, if_pos (by omega), Int.toNat_natCast]

theorem elementAt_neg {s : List α} {i : Int} (h : i < 0) : elementAt s i = none := if_neg (by omega)

theorem getElem?_isSome {s : List α} {i : Nat} (h : i < s.length) : ∃ x, s[i]? = some x :=
  ⟨_, List.getElem?_eq_getElem h⟩

/-! ## The first one -/

/-- The least place from `i` on at which `P` holds; -1 where there is none. -/
inductive FirstFrom (P : Nat → Prop) (i : Nat) : Int → Prop
  | found {k : Nat} (le : i ≤ k) (holds : P k) (least : ∀ j, i ≤ j → j < k → ¬P j) :
      FirstFrom P i k
  | none (nowhere : ∀ j, i ≤ j → ¬P j) : FirstFrom P i (-1)

namespace FirstFrom

variable {P Q : Nat → Prop} {i i' : Nat} {r r' : Int}

theorem here (h : P i) : FirstFrom P i i :=
  .found (Nat.le_refl i) h fun _ hle hlt => absurd hlt (by omega)

/-- A search may start behind places at which there is nothing. -/
theorem skip (h : FirstFrom P i' r) (hle : i ≤ i') (hskip : ∀ j, i ≤ j → j < i' → ¬P j) :
    FirstFrom P i r := by
  cases h with
  | found le holds least =>
    refine .found (by omega) holds fun j hij hjk => ?_
    by_cases hj : j < i'
    · exact hskip j hij hj
    · exact least j (by omega) hjk
  | none nowhere =>
    refine .none fun j hij => ?_
    by_cases hj : j < i'
    · exact hskip j hij hj
    · exact nowhere j (by omega)

theorem unique (h : FirstFrom P i r) (h' : FirstFrom P i r') : r = r' := by
  cases h with
  | found le holds least =>
    cases h' with
    | found le' holds' least' =>
      rename_i k k'
      rcases Nat.lt_trichotomy k k' with hlt | heq | hlt
      · exact absurd holds (least' k le hlt)
      · rw [heq]
      · exact absurd holds' (least k' le' hlt)
    | none nowhere => exact absurd holds (nowhere _ le)
  | none nowhere =>
    cases h' with
    | found le' holds' least' => exact absurd holds' (nowhere _ le')
    | none _ => rfl

/-- What is found is one of them. -/
theorem sound (h : FirstFrom P i r) : r = -1 ∨ ∃ j : Nat, r = j ∧ i ≤ j ∧ P j := by
  cases h with
  | found le holds _ => exact .inr ⟨_, rfl, le, holds⟩
  | none _ => exact .inl rfl

theorem congr (h : FirstFrom P i r) (hPQ : ∀ j, i ≤ j → (P j ↔ Q j)) : FirstFrom Q i r := by
  cases h with
  | found le holds least =>
    exact .found le ((hPQ _ le).mp holds) fun j hij hjk hq => least j hij hjk ((hPQ j hij).mpr hq)
  | none nowhere => exact .none fun j hij hq => nowhere j hij ((hPQ j hij).mpr hq)

end FirstFrom

/-! ## Counting -/

/-- The places at which `n` stands in `h`, which may overlap; an empty one stands everywhere. -/
def occurrences [DecidableEq α] (n h : List α) : Nat :=
  (List.range (h.length + 1)).countP (OccursAt n h ·)

theorem occurrences_nil [DecidableEq α] (h : List α) : occurrences [] h = h.length + 1 := by
  rw [occurrences, List.countP_eq_length.mpr, List.length_range]
  intro i hi
  rw [decide_eq_true_eq, occursAt_nil]
  exact Nat.le_of_lt_succ (List.mem_range.mp hi)

/-- Searches from behind `pos`, each from behind what was found, as long as something is. -/
def countFrom (search : Int → Option Int) : Nat → Int → Option Nat
  | 0, _ => none
  | rounds + 1, pos => do
    let found ← search (pos + 1)
    if found = -1 then some 0 else (countFrom search rounds found).map (· + 1)

/-- First places, one behind another, are all there are. -/
theorem countFrom_first {P : Nat → Prop} [DecidablePred P] {search : Int → Option Int}
    (bound : Nat) (hin : ∀ i, P i → i < bound)
    (hsearch : ∀ place : Nat, place ≤ bound →
      ∃ r, search place = some r ∧ FirstFrom P place r) :
    ∀ rounds place : Nat, place ≤ bound → bound + 1 ≤ rounds + place →
      countFrom search rounds ((place : Int) - 1) =
        some ((List.range' place (bound - place)).countP (P ·))
  | 0, place, hplace, hrounds => by omega
  | rounds + 1, place, hplace, hrounds => by
    obtain ⟨r, hr, hfirst⟩ := hsearch place hplace
    rw [countFrom, Int.sub_add_cancel, hr, Option.bind_eq_bind, Option.bind_some]
    cases hfirst with
    | none nowhere =>
      rw [if_pos rfl, List.countP_eq_zero.mpr]
      intro i hi
      rw [decide_eq_true_eq]
      exact nowhere i (List.mem_range'_1.mp hi).1
    | @found k le holds least =>
      have hk := hin k holds
      have hfound : ((k + 1 : Nat) : Int) - 1 = k := by omega
      have hsplit : List.range' place (bound - place) =
          List.range' place (k - place) ++ k :: List.range' (k + 1) (bound - (k + 1)) := by
        have hcount : bound - place = (k - place) + (bound - k) := by omega
        have hrest : bound - k = bound - (k + 1) + 1 := by omega
        have hmiddle : place + (k - place) = k := by omega
        rw [hcount, ← List.range'_append_1, hmiddle, hrest, List.range'_succ]
      have hfront : (List.range' place (k - place)).countP (P ·) = 0 := by
        rw [List.countP_eq_zero]
        intro i hi
        obtain ⟨hle, hlt⟩ := List.mem_range'_1.mp hi
        rw [decide_eq_true_eq]
        exact least i hle (by omega)
      have hrun := countFrom_first bound hin hsearch rounds (k + 1) (by omega) (by omega)
      rw [hfound] at hrun
      rw [if_neg (by omega), hrun, hsplit, List.countP_append, hfront,
        List.countP_cons_of_pos (by simpa using holds), Nat.zero_add]
      rfl

/-- The occurrences are counted; only an empty one is searched behind the end. -/
theorem countFrom_occurrences [DecidableEq α] {n h : List α} {search : Int → Option Int}
    (hsearch : ∀ place : Nat, place ≤ h.length ∨ place = h.length + 1 ∧ n.length = 0 →
      ∃ r, search place = some r ∧ FirstFrom (OccursAt n h) place r) :
    countFrom search (h.length + 2) (-1) = some (occurrences n h) := by
  obtain ⟨bound, hbound⟩ : ∃ bound, bound = h.length + 1 - min n.length 1 := ⟨_, rfl⟩
  have hrun := countFrom_first bound
    (fun i (hat : OccursAt n h i) => by have hle := hat.le; omega) (fun place hplace => hsearch place (by omega))
    (h.length + 2) 0 (Nat.zero_le _) (by omega)
  have hcount : (List.range bound).countP (OccursAt n h ·) = occurrences n h := by
    by_cases hn : n.length = 0
    · have hall : bound = h.length + 1 := by omega
      rw [occurrences, hall]
    · -- behind the last element there is no room
      have hall : bound = h.length := by omega
      have hend : ¬OccursAt n h h.length := fun hat => by have hle := hat.le; omega
      rw [occurrences, hall, List.range_succ, List.countP_append, List.countP_singleton]
      simp [hend]
  rw [Nat.sub_zero, ← List.range_eq_range', hcount] at hrun
  exact hrun

/-! ## The last one -/

/-- The greatest place up to `i` at which `P` holds; -1 where there is none. -/
inductive LastUpTo (P : Nat → Prop) (i : Int) : Int → Prop
  | found {k : Nat} (le : (k : Int) ≤ i) (holds : P k)
      (greatest : ∀ j : Nat, k < j → (j : Int) ≤ i → ¬P j) : LastUpTo P i k
  | none (nowhere : ∀ j : Nat, (j : Int) ≤ i → ¬P j) : LastUpTo P i (-1)

namespace LastUpTo

variable {P Q : Nat → Prop} {i i' r : Int}

theorem here {k : Nat} (h : P k) : LastUpTo P k k :=
  .found (Int.le_refl _) h fun _ hlt hle => absurd hlt (by omega)

/-- A search may end in front of places at which there is nothing. -/
theorem skip (h : LastUpTo P i' r) (hle : i' ≤ i)
    (hskip : ∀ j : Nat, i' < j → (j : Int) ≤ i → ¬P j) : LastUpTo P i r := by
  cases h with
  | found le holds greatest =>
    refine .found (by omega) holds fun j hkj hji => ?_
    by_cases hj : (j : Int) ≤ i'
    · exact greatest j hkj hj
    · exact hskip j (by omega) hji
  | none nowhere =>
    refine .none fun j hji => ?_
    by_cases hj : (j : Int) ≤ i'
    · exact nowhere j hj
    · exact hskip j (by omega) hji

theorem congr (h : LastUpTo P i r) (hPQ : ∀ j, P j ↔ Q j) : LastUpTo Q i r := by
  cases h with
  | found le holds greatest =>
    exact .found le ((hPQ _).mp holds) fun j hkj hji hq => greatest j hkj hji ((hPQ j).mpr hq)
  | none nowhere => exact .none fun j hji hq => nowhere j hji ((hPQ j).mpr hq)

end LastUpTo

end Libpdk

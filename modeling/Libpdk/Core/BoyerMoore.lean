import Libpdk.Core.Occurrence
import Mathlib.Logic.Function.Basic

/-!
# Skipping

A table says of each class of elements how far from the end of a pattern its last element stands,
as far as the table reaches. A search that looks at the last element of a window may move on by
that (`Skips.advance`); one that found a difference at an element of which there is none in the
pattern may move on behind it (`Skips.behind`). So it finds the first occurrence (`search_first`).
-/
namespace Libpdk.BoyerMoore

variable {β γ : Type} (low : β → γ)

/-- What a table must know of a pattern. -/
structure Skips (pattern : List β) (table : γ → Nat) : Prop where
  le : ∀ c, table c ≤ pattern.length
  absent : ∀ c d x, d < table c → pattern[pattern.length - 1 - d]? = some x → low x ≠ c

section

variable [DecidableEq γ]

/-- The distances of the elements from the end, those of later ones over those of earlier ones. -/
@[grind =] def distances : List β → (γ → Nat) → γ → Nat
  | [], table => table
  | x :: rest, table => distances rest (Function.update table (low x) rest.length)

variable {low}

theorem distances_le {n : Nat} {c : γ} : ∀ {last : List β} {table : γ → Nat}, last.length ≤ n →
    table c ≤ n → distances low last table c ≤ n
  | [], _, _, htable => htable
  | x :: rest, table, hlen, htable => by
    rw [List.length_cons] at hlen
    rw [distances]
    apply distances_le (by omega)
    by_cases hc : c = low x
    · rw [hc, Function.update_self]
      omega
    · rwa [Function.update_of_ne hc]

theorem distances_absent {c : γ} {d : Nat} {x : β} : ∀ {last : List β} {table : γ → Nat},
    d < distances low last table c → d < last.length →
    last[last.length - 1 - d]? = some x → low x ≠ c
  | y :: rest, table, hd, hlen, hx => by
    rw [List.length_cons] at hlen hx
    by_cases hrest : d < rest.length
    · have hsucc : rest.length + 1 - 1 - d = (rest.length - 1 - d) + 1 := by omega
      rw [hsucc, List.getElem?_cons_succ] at hx
      rw [distances] at hd
      exact distances_absent hd hrest hx
    · -- the first of them: no later one of the class is farther away
      have hzero : rest.length + 1 - 1 - d = 0 := by omega
      rw [hzero, List.getElem?_cons_zero, Option.some.injEq] at hx
      subst hx
      intro hc
      have hle : distances low (y :: rest) table c ≤ rest.length := by
        rw [distances]
        apply distances_le (Nat.le_refl _)
        exact Nat.le_of_eq (by rw [← hc, Function.update_self])
      omega

variable (low) in
theorem distances_last {x : β} : ∀ {last : List β} {table : γ → Nat},
    distances low (last ++ [x]) table (low x) = 0
  | [], table => by
    rw [List.nil_append, distances, distances, Function.update_self, List.length_nil]
  | y :: rest, table => by
    rw [List.cons_append, distances]
    exact distances_last

variable (low) in
/-- A table that is built of the last `l` elements only. -/
theorem skips_of_last {pattern : List β} {l : Nat} (h : l ≤ pattern.length) :
    Skips low pattern (distances low (pattern.drop (pattern.length - l)) fun _ => l) := by
  have hlen : (pattern.drop (pattern.length - l)).length = l := by
    rw [List.length_drop]
    omega
  have hle (c : γ) : distances low (pattern.drop (pattern.length - l)) (fun _ => l) c ≤ l :=
    distances_le (Nat.le_of_eq hlen) (Nat.le_refl l)
  refine ⟨fun c => Nat.le_trans (hle c) h, fun c d x hd hx => ?_⟩
  have hdl := Nat.lt_of_lt_of_le hd (hle c)
  refine distances_absent hd (by omega) ?_
  rw [List.getElem?_drop, hlen, ← hx]
  congr 1
  omega

end

namespace Skips

variable {low} {pattern text : List β} {table : γ → Nat} {a : Nat} {x : β}

/-- No occurrence is jumped over from the last element of the window at `a`. -/
theorem advance (h : Skips low pattern table) (hx : text[a + pattern.length - 1]? = some x) :
    ∀ j, a ≤ j → j < a + table (low x) → ¬OccursAt pattern text j := by
  intro j haj hj ho
  obtain ⟨d, rfl⟩ := Nat.exists_eq_add_of_le haj
  have hle := h.le (low x)
  have hback := ho.back (s := d) (by omega)
  have hplace : a + d + pattern.length - 1 - d = a + pattern.length - 1 := by omega
  rw [hplace, hx] at hback
  exact h.absent (low x) d x (by omega) hback.symm rfl

/-- No occurrence holds an element of a class of which the pattern has none. -/
theorem behind (h : Skips low pattern table) {s : Nat}
    (hx : text[a + pattern.length - 1 - s]? = some x) (hnone : table (low x) = pattern.length) :
    ∀ j, a ≤ j → j < a + (pattern.length - s) → ¬OccursAt pattern text j := by
  intro j haj hj ho
  obtain ⟨d, rfl⟩ := Nat.exists_eq_add_of_le haj
  have hback := ho.back (s := s + d) (by omega)
  have hplace : a + d + pattern.length - 1 - (s + d) = a + pattern.length - 1 - s := by omega
  rw [hplace, hx] at hback
  exact h.absent (low x) (s + d) x (by omega) hback.symm rfl

end Skips

/-! ## The search -/

section

variable [DecidableEq β] (low : β → γ) (text pattern : List β) (table : γ → Nat)

/-- The number of elements that are equal, up from the last one. -/
@[grind =] def matchBack (current : Nat) : Nat → Nat → Option Nat
  | 0, skip => some skip
  | count + 1, skip => do
    let x ← elementAt text ((current : Int) - skip)
    let y ← elementAt pattern ((pattern.length : Int) - 1 - skip)
    if x ≠ y then some skip else matchBack current count (skip + 1)

/-- How far to move on; `none` is a match. -/
def skipAt (current : Nat) : Option (Option Nat) := do
  let x ← elementAt text current
  if table (low x) ≠ 0 then some (some (table (low x)))
  else do
    let skip ← matchBack text pattern current pattern.length 0
    if skip ≥ pattern.length then some none
    else do
      let y ← elementAt text ((current : Int) - skip)
      if table (low y) = pattern.length then some (some (pattern.length - skip)) else some (some 1)

@[grind =] def searchLoop : Nat → Nat → Option Int
  | 0, _ => none
  | rounds + 1, current =>
    if current < text.length then do
      let skip ← skipAt low text pattern table current
      match skip with
      | none => some ((current : Int) - (pattern.length - 1))
      | some skip =>
        if (current : Int) > text.length - skip then some (-1)
        else searchLoop rounds (current + skip)
    else some (-1)

/-- The search from `index`, where an empty pattern is unless that is behind the end. -/
def search (index : Nat) : Option Int :=
  if pattern.length = 0 then some (if index > text.length then -1 else index)
  else searchLoop low text pattern table (text.length + 1) (index + (pattern.length - 1))

variable {text pattern table} {a : Nat}

variable (text pattern) in
/-- Of the elements that are compared backwards all are equal, up to one that differs. -/
theorem matchBack_spec (hin : a + pattern.length ≤ text.length) :
    ∀ (count skip : Nat), skip + count = pattern.length →
      (∀ d < skip, text[a + pattern.length - 1 - d]? = pattern[pattern.length - 1 - d]?) →
      ∃ s, matchBack text pattern (a + (pattern.length - 1)) count skip = some s ∧
        s ≤ pattern.length ∧
        (∀ d < s, text[a + pattern.length - 1 - d]? = pattern[pattern.length - 1 - d]?) ∧
        (s < pattern.length →
          text[a + pattern.length - 1 - s]? ≠ pattern[pattern.length - 1 - s]?)
  | 0, skip, hcount, hsame => ⟨skip, rfl, by omega, hsame, fun hlt => absurd hlt (by omega)⟩
  | count + 1, skip, hcount, hsame => by
    obtain ⟨x, hx⟩ := getElem?_isSome (s := text) (i := a + pattern.length - 1 - skip) (by omega)
    obtain ⟨y, hy⟩ := getElem?_isSome (s := pattern) (i := pattern.length - 1 - skip) (by omega)
    have hplace : ((a + (pattern.length - 1) : Nat) : Int) - skip =
        (a + pattern.length - 1 - skip : Nat) := by omega
    have hplace' : (pattern.length : Int) - 1 - skip = (pattern.length - 1 - skip : Nat) := by
      omega
    rw [matchBack, hplace, hplace', elementAt_nat, elementAt_nat, hx, hy]
    by_cases hne : x ≠ y
    · refine ⟨skip, if_pos hne, by omega, hsame, fun _ => ?_⟩
      rw [hx, hy, Ne, Option.some.injEq]
      exact hne
    · obtain ⟨s, hs, hrest⟩ := matchBack_spec hin count (skip + 1) (by omega) (by
        intro d hd
        by_cases hlast : d < skip
        · exact hsame d hlast
        · obtain rfl : d = skip := by omega
          rw [hx, hy, not_not.mp hne])
      exact ⟨s, by simpa [not_not.mp hne] using hs, hrest⟩

variable (table) in
/-- A round at the window at `a`. -/
theorem skipAt_spec (hpos : 0 < pattern.length) (hin : a + pattern.length ≤ text.length) :
    ∃ skip, skipAt low text pattern table (a + (pattern.length - 1)) = some skip ∧
      (skip = none → OccursAt pattern text a) ∧
      ∀ k, skip = some k → 0 < k ∧
        (Skips low pattern table → ∀ j, a ≤ j → j < a + k → ¬OccursAt pattern text j) := by
  obtain ⟨x, hx⟩ := getElem?_isSome (s := text) (i := a + (pattern.length - 1)) (by omega)
  rw [skipAt, elementAt_nat, hx, Option.bind_eq_bind, Option.bind_some]
  by_cases htable : table (low x) ≠ 0
  · refine ⟨_, if_pos htable, (nomatch ·), ?_⟩
    rintro k ⟨⟩
    refine ⟨by omega, fun hskip => hskip.advance ?_⟩
    have hplace : a + pattern.length - 1 = a + (pattern.length - 1) := by omega
    rw [hplace, hx]
  rw [if_neg htable]
  obtain ⟨s, hs, hle, hsame, hdiff⟩ := matchBack_spec text pattern hin pattern.length 0 (Nat.zero_add _)
    fun d hd => absurd hd (Nat.not_lt_zero d)
  rw [hs, Option.bind_eq_bind, Option.bind_some]
  by_cases hall : s ≥ pattern.length
  · refine ⟨none, if_pos hall, fun _ => ⟨hin, fun j hj => ?_⟩, fun _ hk => nomatch hk⟩
    have hback := hsame (pattern.length - 1 - j) (by omega)
    have hplace : a + pattern.length - 1 - (pattern.length - 1 - j) = a + j := by omega
    have hplace' : pattern.length - 1 - (pattern.length - 1 - j) = j := by omega
    rwa [hplace, hplace'] at hback
  obtain ⟨y, hy⟩ := getElem?_isSome (s := text) (i := a + pattern.length - 1 - s) (by omega)
  have hplace : ((a + (pattern.length - 1) : Nat) : Int) - s =
      (a + pattern.length - 1 - s : Nat) := by omega
  rw [if_neg hall, hplace, elementAt_nat, hy, Option.bind_some]
  by_cases hnone : table (low y) = pattern.length
  · refine ⟨_, if_pos hnone, (nomatch ·), ?_⟩
    rintro k ⟨⟩
    exact ⟨by omega, fun hskip => hskip.behind hy hnone⟩
  · refine ⟨_, if_neg hnone, (nomatch ·), ?_⟩
    rintro k ⟨⟩
    refine ⟨Nat.one_pos, fun _ j hj hj' hat => ?_⟩
    obtain rfl : j = a := by omega
    -- the occurrence would agree at the element that differs
    exact hdiff (by omega) (hat.back (s := s) (by omega))

variable (table) in
theorem searchLoop_first (hpos : 0 < pattern.length) : ∀ (rounds a : Nat), 0 < rounds →
    text.length < a + rounds →
    ∃ r, searchLoop low text pattern table rounds (a + (pattern.length - 1)) = some r ∧
      (r = -1 ∨ ∃ j : Nat, r = j ∧ a ≤ j ∧ OccursAt pattern text j) ∧
      (Skips low pattern table → FirstFrom (OccursAt pattern text) a r)
  | 0, a, hrounds, _ => absurd hrounds (Nat.not_lt_zero 0)
  | rounds + 1, a, _, hrounds => by
    rw [searchLoop]
    by_cases hcurrent : a + (pattern.length - 1) < text.length
    · obtain ⟨skip, hskip, hmatch, hmove⟩ := skipAt_spec low table hpos
        (show a + pattern.length ≤ text.length by omega)
      rw [if_pos hcurrent, hskip, Option.bind_eq_bind, Option.bind_some]
      cases skip with
      | none =>
        have hplace : ((a + (pattern.length - 1) : Nat) : Int) - (pattern.length - 1) = a := by
          omega
        have hat := hmatch rfl
        exact ⟨a, by rw [hplace], .inr ⟨a, rfl, Nat.le_refl a, hat⟩, fun _ => .here hat⟩
      | some k =>
        obtain ⟨hk, hsafe⟩ := hmove k rfl
        by_cases hend : ((a + (pattern.length - 1) : Nat) : Int) > text.length - k
        · refine ⟨-1, if_pos hend, .inl rfl, fun hs => .none fun j hj hat => ?_⟩
          have hle := hat.le
          exact hsafe hs j hj (by omega) hat
        · have hplace : a + (pattern.length - 1) + k = a + k + (pattern.length - 1) := by omega
          obtain ⟨r, hr, hsound, hfirst⟩ := searchLoop_first hpos rounds (a + k)
            (by omega) (by omega)
          rw [← hplace] at hr
          refine ⟨r, (if_neg hend).trans hr, ?_, fun hs => (hfirst hs).skip (by omega) (hsafe hs)⟩
          rcases hsound with hneg | ⟨j, hj, hle, hat⟩
          · exact .inl hneg
          · exact .inr ⟨j, hj, by omega, hat⟩
    · refine ⟨-1, if_neg hcurrent, .inl rfl, fun _ => .none fun j hj hat => ?_⟩
      have hle := hat.le
      omega

variable (text pattern table) in
/-- Whatever the table holds, what is found is there; with one of the pattern it is the first. -/
theorem search_first {index : Nat} (hindex : index ≤ text.length) :
    ∃ r, search low text pattern table index = some r ∧
      (r = -1 ∨ ∃ j : Nat, r = j ∧ index ≤ j ∧ OccursAt pattern text j) ∧
      (Skips low pattern table → FirstFrom (OccursAt pattern text) index r) := by
  rw [search]
  by_cases hempty : pattern.length = 0
  · have hat : OccursAt pattern text index := by
      rw [List.length_eq_zero_iff.mp hempty, occursAt_nil]
      exact hindex
    rw [if_pos hempty, if_neg (by omega)]
    exact ⟨index, rfl, .inr ⟨index, rfl, Nat.le_refl index, hat⟩, fun _ => .here hat⟩
  · rw [if_neg hempty]
    exact searchLoop_first low table (by omega) (text.length + 1) index (by omega) (by omega)

theorem search_behind {index : Nat} (hindex : text.length < index) :
    search low text pattern table index = some (-1) := by
  rw [search]
  by_cases hempty : pattern.length = 0
  · rw [if_pos hempty, if_pos hindex]
  · rw [if_neg hempty, searchLoop, if_neg (by omega)]

end

end Libpdk.BoyerMoore

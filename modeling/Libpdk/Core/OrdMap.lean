import Mathlib.Tactic.Ring

/-!
# Ordered maps

`std::map` as an association list with strictly ascending keys. Two maps with
the same lookups are equal (`OrdMap.ext_find`), so a map is what its lookups
say; the entries are enumerated in key order.
-/
namespace Libpdk

universe u v

/-! ## Association lists -/

namespace Assoc

variable {K : Type u} {V : Type v} [LinearOrder K]

@[grind =] def find (k : K) : List (K × V) → Option V
  | [] => none
  | (k', v) :: l => if k' = k then some v else find k l

@[grind =] def insert (k : K) (v : V) : List (K × V) → List (K × V)
  | [] => [(k, v)]
  | (k', v') :: l =>
    if k < k' then (k, v) :: (k', v') :: l
    else if k = k' then (k, v) :: l
    else (k', v') :: insert k v l

def Sorted (l : List (K × V)) : Prop := l.Pairwise (fun a b => a.1 < b.1)

theorem mem_insert {k : K} {v : V} : ∀ {l : List (K × V)} {e : K × V}, e ∈ insert k v l →
    e = (k, v) ∨ e ∈ l
  | [], e, h => by simpa [insert] using h
  | (k', v') :: l, e, h => by
    unfold insert at h
    split at h
    · simpa using h
    · split at h
      · simp only [List.mem_cons] at h ⊢
        exact h.imp_right .inr
      · simp only [List.mem_cons] at h ⊢
        rcases h with h | h
        · exact .inr (.inl h)
        · rcases mem_insert h with h | h
          · exact .inl h
          · exact .inr (.inr h)

theorem sorted_insert {k : K} {v : V} : ∀ {l : List (K × V)}, Sorted l → Sorted (insert k v l)
  | [], _ => by simp [insert, Sorted]
  | (k', v') :: l, h => by
    obtain ⟨h1, h2⟩ := List.pairwise_cons.mp h
    unfold insert
    split
    · rename_i hlt
      refine List.pairwise_cons.mpr ⟨fun e he => ?_, h⟩
      rcases List.mem_cons.mp he with rfl | he
      · exact hlt
      · exact lt_trans hlt (h1 e he)
    · split
      · rename_i _ heq
        subst heq
        exact List.pairwise_cons.mpr ⟨fun e he => h1 e he, h2⟩
      · rename_i hnlt hne
        refine List.pairwise_cons.mpr ⟨fun e he => ?_, sorted_insert h2⟩
        rcases mem_insert he with rfl | he
        · exact lt_of_le_of_ne (not_lt.mp hnlt) (fun e => hne e.symm)
        · exact h1 e he

theorem find_insert (k : K) (v : V) (k₁ : K) : ∀ l : List (K × V),
    find k₁ (insert k v l) = if k = k₁ then some v else find k₁ l
  | [] => by simp [insert, find]
  | (k', v') :: l => by
    have ih := find_insert k v k₁ l
    unfold insert
    split
    · simp only [find]
    · split
      · rename_i _ heq
        subst heq
        by_cases h : k = k₁ <;> simp [find, h]
      · rename_i _ hne
        simp only [find, ih]
        by_cases h' : k' = k₁
        · subst h'
          simp [hne]
        · simp [h']

theorem find_none_of_lt {k : K} : ∀ {l : List (K × V)}, (∀ e ∈ l, k < e.1) → find k l = none
  | [], _ => rfl
  | (k', v) :: l, h => by
    have hlt := h (k', v) List.mem_cons_self
    rw [find, if_neg (ne_of_gt hlt)]
    exact find_none_of_lt fun e he => h e (List.mem_cons_of_mem _ he)

theorem find_eq_some {k : K} {v : V} : ∀ {l : List (K × V)}, Sorted l →
    (find k l = some v ↔ (k, v) ∈ l)
  | [], _ => by simp [find]
  | (k', v') :: l, h => by
    obtain ⟨h1, h2⟩ := List.pairwise_cons.mp h
    have ih := find_eq_some (k := k) (v := v) h2
    rw [find]
    split
    · rename_i heq
      subst heq
      refine ⟨fun e => by simp only [Option.some.injEq] at e; simp [e], fun hm => ?_⟩
      rcases List.mem_cons.mp hm with hm | hm
      · simp only [Prod.mk.injEq, true_and] at hm
        rw [hm]
      · exact absurd (h1 _ hm) (lt_irrefl _)
    · rename_i hne
      rw [ih, List.mem_cons]
      refine ⟨.inr, fun hm => ?_⟩
      rcases hm with hm | hm
      · simp only [Prod.mk.injEq] at hm
        exact absurd hm.1.symm hne
      · exact hm

/-- Sorted lists with the same lookups are equal. -/
theorem eq_of_find : ∀ {l l' : List (K × V)}, Sorted l → Sorted l' →
    (∀ k, find k l = find k l') → l = l'
  | [], [], _, _, _ => rfl
  | [], (k, v) :: _, _, _, h => by have := h k; simp [find] at this
  | (k, v) :: _, [], _, _, h => by have := h k; simp [find] at this
  | (k, v) :: l, (k', v') :: l', hs, hs', h => by
    obtain ⟨h1, h2⟩ := List.pairwise_cons.mp hs
    obtain ⟨h1', h2'⟩ := List.pairwise_cons.mp hs'
    have hk : k = k' := by
      rcases lt_trichotomy k k' with hlt | heq | hlt
      · have := h k
        rw [find_none_of_lt (l := (k', v') :: l')] at this
        · simp [find] at this
        · intro e he
          rcases List.mem_cons.mp he with rfl | he
          · exact hlt
          · exact lt_trans hlt (h1' e he)
      · exact heq
      · have := h k'
        rw [find_none_of_lt (l := (k, v) :: l)] at this
        · simp [find] at this
        · intro e he
          rcases List.mem_cons.mp he with rfl | he
          · exact hlt
          · exact lt_trans hlt (h1 e he)
    subst hk
    have hv : v = v' := by have := h k; simpa [find] using this
    subst hv
    have hl : ∀ k₁, find k₁ l = find k₁ l' := by
      intro k₁
      by_cases e : k = k₁
      · subst e
        rw [find_none_of_lt h1, find_none_of_lt h1']
      · have := h k₁
        simpa [find, e] using this
    rw [eq_of_find h2 h2' hl]

end Assoc

/-- A map with an order on its keys. -/
structure OrdMap (K : Type u) (V : Type v) [LinearOrder K] where
  entries : List (K × V)
  sorted : Assoc.Sorted entries

namespace OrdMap

variable {K : Type u} {V : Type v} [LinearOrder K]

def empty : OrdMap K V := ⟨[], List.Pairwise.nil⟩

def find (m : OrdMap K V) (k : K) : Option V := Assoc.find k m.entries

def insert (m : OrdMap K V) (k : K) (v : V) : OrdMap K V :=
  ⟨Assoc.insert k v m.entries, Assoc.sorted_insert m.sorted⟩

/-- The entries of `l` inserted one after the other. -/
def insertAll (m : OrdMap K V) (l : List (K × V)) : OrdMap K V :=
  l.foldl (fun m e => m.insert e.1 e.2) m

@[simp] theorem find_empty (k : K) : (empty : OrdMap K V).find k = none := rfl

theorem find_insert (m : OrdMap K V) (k : K) (v : V) (k₁ : K) :
    (m.insert k v).find k₁ = if k = k₁ then some v else m.find k₁ :=
  Assoc.find_insert k v k₁ m.entries

theorem ext_find {m m' : OrdMap K V} (h : ∀ k, m.find k = m'.find k) : m = m' := by
  have := Assoc.eq_of_find m.sorted m'.sorted h
  cases m
  cases m'
  simp only at this
  subst this
  rfl

theorem insert_insert (m : OrdMap K V) (k : K) (v w : V) :
    (m.insert k v).insert k w = m.insert k w := by
  apply ext_find
  intro k'
  rw [find_insert, find_insert, find_insert]
  split <;> rfl

theorem insert_comm (m : OrdMap K V) {k k' : K} (hk : k ≠ k') (v w : V) :
    (m.insert k v).insert k' w = (m.insert k' w).insert k v := by
  apply ext_find
  intro k₁
  simp only [find_insert]
  by_cases h : k = k₁
  · subst h
    simp [hk.symm]
  · simp [h]

theorem find_eq_some {m : OrdMap K V} {k : K} {v : V} : m.find k = some v ↔ (k, v) ∈ m.entries :=
  Assoc.find_eq_some m.sorted

@[simp] theorem insertAll_cons (m : OrdMap K V) (e : K × V) (l : List (K × V)) :
    m.insertAll (e :: l) = (m.insert e.1 e.2).insertAll l := rfl

theorem find_insertAll_of_not_mem {k : K} : ∀ {l : List (K × V)} {m : OrdMap K V},
    (∀ e ∈ l, e.1 ≠ k) → (m.insertAll l).find k = m.find k
  | [], _, _ => rfl
  | e :: l, m, h => by
    rw [insertAll_cons, find_insertAll_of_not_mem fun e' he' => h e' (List.mem_cons_of_mem _ he'),
      find_insert, if_neg (h e List.mem_cons_self)]

theorem find_insertAll_of_mem {k : K} {v : V} : ∀ {l : List (K × V)} {m : OrdMap K V},
    (∀ v', (k, v') ∈ l → v' = v) → (k, v) ∈ l → (m.insertAll l).find k = some v
  | e :: l, m, hu, h => by
    rw [insertAll_cons]
    by_cases hl : (k, v) ∈ l
    · exact find_insertAll_of_mem (fun v' hv' => hu v' (List.mem_cons_of_mem _ hv')) hl
    · have he : (k, v) = e := (List.mem_cons.mp h).resolve_right hl
      subst he
      rw [find_insertAll_of_not_mem, find_insert, if_pos rfl]
      rintro ⟨k', v'⟩ he' hk
      simp only at hk
      subst hk
      rw [hu v' (List.mem_cons_of_mem _ he')] at he'
      exact hl he'

/-- What is found is what was inserted, or else what was there. -/
theorem find_insertAll (k : K) : ∀ (l : List (K × V)) (m : OrdMap K V),
    (m.insertAll l).find k = (((empty : OrdMap K V).insertAll l).find k).or (m.find k)
  | [], m => rfl
  | e :: l, m => by
    rw [insertAll_cons, insertAll_cons, find_insertAll k l (m.insert e.1 e.2),
      find_insertAll k l (empty.insert e.1 e.2), find_insert, find_insert, find_empty]
    cases ((empty : OrdMap K V).insertAll l).find k with
    | some v => rfl
    | none => by_cases h : e.1 = k <;> simp [h]

theorem isSome_insertAll_empty {k : K} : ∀ {l : List (K × V)},
    (((empty : OrdMap K V).insertAll l).find k).isSome ↔ k ∈ l.map Prod.fst
  | [] => by simp [insertAll]
  | e :: l => by
    have ih := isSome_insertAll_empty (k := k) (l := l)
    rw [insertAll_cons, find_insertAll, find_insert, find_empty, Option.isSome_or, Bool.or_eq_true,
      ih, List.map_cons, List.mem_cons, or_comm]
    by_cases h : e.1 = k
    · simp [h]
    · simp [h, Ne.symm h]

theorem insertAll_append (m : OrdMap K V) (l l' : List (K × V)) :
    m.insertAll (l ++ l') = (m.insertAll l).insertAll l' := List.foldl_append

/-- Entries without a common key can be inserted in either order. -/
theorem insertAll_disjoint {l l' : List (K × V)} (m : OrdMap K V)
    (h : ∀ k ∈ l.map Prod.fst, k ∉ l'.map Prod.fst) :
    (m.insertAll l).insertAll l' = (m.insertAll l').insertAll l := by
  apply ext_find
  intro k
  rw [find_insertAll k l' (m.insertAll l), find_insertAll k l m,
    find_insertAll k l (m.insertAll l'), find_insertAll k l' m]
  have hk := h k
  rw [← isSome_insertAll_empty, ← isSome_insertAll_empty] at hk
  cases hl : ((empty : OrdMap K V).insertAll l).find k with
  | none => rfl
  | some v =>
    have hnone : ((empty : OrdMap K V).insertAll l').find k = none := by simpa [hl] using hk
    rw [hnone]
    rfl

/-- An entry that is inserted first under one key or another: it makes no difference
exactly where both keys are inserted again. -/
theorem insertAll_cons_eq_iff {k k' : K} (hk : k ≠ k') (v : V) (l : List (K × V)) :
    (empty : OrdMap K V).insertAll ((k, v) :: l) = (empty : OrdMap K V).insertAll ((k', v) :: l) ↔
      k ∈ l.map Prod.fst ∧ k' ∈ l.map Prod.fst := by
  simp only [insertAll_cons, ← isSome_insertAll_empty]
  constructor
  · intro h
    have hfind := fun k₁ => congrArg (fun m => (m.find k₁).isSome) h
    simp only [find_insertAll _ l (empty.insert _ _), find_insert, find_empty] at hfind
    have h₁ := hfind k
    have h₂ := hfind k'
    simp only [if_true, if_neg hk, if_neg hk.symm, Option.or_none, Option.isSome_or,
      Option.isSome_some, Bool.or_true] at h₁ h₂
    exact ⟨h₁.symm, h₂⟩
  · intro h
    apply ext_find
    intro k₁
    rw [find_insertAll _ l, find_insertAll _ l (empty.insert k' v)]
    cases hf : ((empty : OrdMap K V).insertAll l).find k₁ with
    | some w => rfl
    | none =>
      have hne : k ≠ k₁ := by
        rintro rfl
        simp [hf] at h
      have hne' : k' ≠ k₁ := by
        rintro rfl
        simp [hf] at h
      rw [find_insert, find_insert, if_neg hne, if_neg hne']

/-- Inserting all entries of a map, each as often as one likes, into an empty
map gives the map back. -/
theorem insertAll_entries {m : OrdMap K V} {l : List (K × V)} (h : ∀ e, e ∈ l ↔ e ∈ m.entries) :
    (empty : OrdMap K V).insertAll l = m := by
  apply ext_find
  intro k
  by_cases hk : ∃ v, (k, v) ∈ m.entries
  · obtain ⟨v, hv⟩ := hk
    rw [find_eq_some.mpr hv]
    refine find_insertAll_of_mem (fun v' hv' => ?_) ((h _).mpr hv)
    have h1 := find_eq_some.mpr ((h _).mp hv')
    have h2 := find_eq_some.mpr hv
    rw [h1] at h2
    exact Option.some.inj h2
  · have hn : m.find k = none := by
      cases e : m.find k with
      | none => rfl
      | some v => exact absurd ⟨v, find_eq_some.mp e⟩ hk
    rw [hn, find_insertAll_of_not_mem, find_empty]
    rintro ⟨k', v⟩ he rfl
    exact hk ⟨v, (h _).mp he⟩

/-- The values of a map, changed. -/
def map {W : Type v} (f : V → W) (m : OrdMap K V) : OrdMap K W :=
  ⟨m.entries.map fun e => (e.1, f e.2), by
    unfold Assoc.Sorted
    rw [List.pairwise_map]
    exact m.sorted⟩

/-- The entries whose keys meet `p`. -/
def filter (p : K → Bool) (m : OrdMap K V) : OrdMap K V :=
  ⟨m.entries.filter fun e => p e.1, List.Pairwise.filter _ m.sorted⟩

theorem find_filter (p : K → Bool) (m : OrdMap K V) (k : K) :
    (m.filter p).find k = if p k = true then m.find k else none := by
  cases h : (m.filter p).find k with
  | some v =>
    have hm := List.mem_filter.mp (find_eq_some.mp h)
    rw [if_pos hm.2, find_eq_some.mpr hm.1]
  | none =>
    split
    · rename_i hp
      cases hf : m.find k with
      | none => rfl
      | some v =>
        have hmem : (k, v) ∈ (m.filter p).entries := List.mem_filter.mpr ⟨find_eq_some.mp hf, hp⟩
        rw [find_eq_some.mpr hmem] at h
        cases h
    · rfl

/-- The map without a key. -/
def erase (m : OrdMap K V) (k : K) : OrdMap K V := m.filter (· ≠ k)

theorem find_erase (m : OrdMap K V) (k k₁ : K) :
    (m.erase k).find k₁ = if k₁ = k then none else m.find k₁ := by
  rw [erase, find_filter]
  by_cases h : k₁ = k <;> simp [h]

theorem eq_of_key {m : OrdMap K V} {e e' : K × V} (h : e ∈ m.entries) (h' : e' ∈ m.entries)
    (hk : e.1 = e'.1) : e = e' := by
  obtain ⟨k, v⟩ := e
  obtain ⟨k', v'⟩ := e'
  simp only at hk
  subst hk
  have h1 := find_eq_some.mpr h
  rw [find_eq_some.mpr h', Option.some.injEq] at h1
  rw [h1]

theorem map_eq_self {f : V → V} {m : OrdMap K V} (h : ∀ e ∈ m.entries, f e.2 = e.2) :
    m.map f = m := by
  obtain ⟨l, hs⟩ := m
  have : l.map (fun e => (e.1, f e.2)) = l :=
    (List.map_congr_left fun e he => by rw [h e he]; rfl).trans (List.map_id l)
  simp only [map, this]

theorem filter_eq_self {p : K → Bool} {m : OrdMap K V} (h : ∀ e ∈ m.entries, p e.1 = true) :
    m.filter p = m := by
  obtain ⟨l, hs⟩ := m
  simp only [filter, List.filter_eq_self.mpr h]

end OrdMap

end Libpdk

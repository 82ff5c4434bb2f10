import Mathlib.Algebra.Order.Group.Multiset
import Mathlib.Tactic.Abel
import Libpdk.Utils.Cache

/-!
# The cache is a least-recently-used map
-/
namespace Libpdk.Utils

open Links

set_option linter.unusedSectionVars false

variable {K O : Type} [DecidableEq K]

/-! ## The representation -/

/-- The list holds exactly the nodes of the map, and is `l` in both directions. -/
structure Rep (c : Cache K O) (l : List (K × Cell O)) : Prop where
  forward : c.forward = headKey none l
  last : c.last = lastKey none l
  seg : Seg c.map none l none
  nodup : (l.map Prod.fst).Nodup
  mem : ∀ k, k ∈ c.map ↔ k ∈ l.map Prod.fst

namespace Rep

variable {c : Cache K O} {l xs ys : List (K × Cell O)} {e : K × Cell O} {k : K}

theorem lookup (h : Rep c (xs ++ e :: ys)) :
    c.map.lookup e.1 = some ⟨e.2, lastKey none xs, headKey none ys⟩ := h.seg.lookup

theorem lookup_none (h : Rep c l) (hk : k ∉ l.map Prod.fst) : c.map.lookup k = none :=
  AList.lookup_eq_none.mpr fun hm => hk ((h.mem k).mp hm)

/-- The neighbours are linked to each other, and the node keeps its links. -/
theorem bypass (h : Rep c (xs ++ e :: ys)) :
    ∃ map last, c.bypass e.1 = some { c with map := map, last := last } ∧
      last = lastKey none (xs ++ ys) ∧ Seg map none (xs ++ ys) none ∧
      map.lookup e.1 = some ⟨e.2, lastKey none xs, headKey none ys⟩ ∧
      ∀ k, k ∈ map ↔ k ∈ c.map := by
  obtain ⟨hxd, hyd, -, hex, hey, hxy⟩ := keys_apart h.nodup
  obtain ⟨hsx, -, hsy⟩ := seg_append.mp h.seg
  obtain ⟨map₁, hset₁, hseg₁, hmem₁, hframe₁⟩ := setNext_lastKey hsx hxd (headKey none ys)
  have hsy₁ : Seg map₁ (some e.1) ys none :=
    hsy.frame fun k hk => hframe₁ k fun hkx => hxy k hkx hk
  obtain ⟨map₂, hset₂, hseg₂, hmem₂, hframe₂⟩ := setPrev_headKey hsy₁ hyd (lastKey none xs)
  have hlook₁ : map₁.lookup e.1 = some ⟨e.2, lastKey none xs, headKey none ys⟩ := by
    rw [hframe₁ _ hex, h.lookup]
  have hlook₂ : map₂.lookup e.1 = some ⟨e.2, lastKey none xs, headKey none ys⟩ := by
    rw [hframe₂ _ hey, hlook₁]
  refine ⟨map₂, if c.last = some e.1 then lastKey none xs else c.last, ?_, ?_,
    seg_append.mpr ⟨?_, hseg₂⟩, hlook₂, fun k => (hmem₂ k).trans (hmem₁ k)⟩
  · unfold Cache.bypass
    simp only [h.lookup, hset₁, hlook₁, hset₂, hlook₂, Option.bind_eq_bind, Option.bind_some]
  · by_cases hys : ys = []
    · subst hys
      rw [h.last, lastKey_concat, if_pos rfl, List.append_nil]
    · obtain ⟨hne, heq⟩ := lastKey_ne h.nodup hys
      rw [h.last, if_neg hne, heq]
  · exact hseg₁.frame fun k hk => hframe₂ k (hxy k hk)

theorem unlink (h : Rep c (xs ++ e :: ys)) :
    ∃ c', c.unlink e.1 = some c' ∧ Rep c' (xs ++ ys) ∧ c'.mx = c.mx ∧ c'.total = c.total ∧
      c'.deleted = c.deleted ++ e.2.data.toList := by
  obtain ⟨map, last, hby, hlast, hseg, hlook, hmem⟩ := h.bypass
  obtain ⟨-, -, hd, hex, hey, -⟩ := keys_apart h.nodup
  have hek : e.1 ∉ (xs ++ ys).map Prod.fst := by simp [hex, hey]
  refine ⟨{ c with
    forward := if c.forward = some e.1 then headKey none ys else c.forward, last := last,
    map := map.erase e.1, deleted := c.deleted ++ e.2.data.toList }, ?_, ⟨?_, hlast, ?_, hd, ?_⟩,
    rfl, rfl, rfl⟩
  · unfold Cache.unlink
    simp only [hby, hlook, Option.bind_eq_bind, Option.bind_some]
  · simp only [h.forward]
    cases xs with
    | nil => rw [List.nil_append, headKey, if_pos rfl, List.nil_append]
    | cons x xs =>
      have hne : x.1 ≠ e.1 := fun he => hex (by simp [he])
      rw [List.cons_append, headKey, if_neg (by simpa using hne), List.cons_append, headKey]
  · exact hseg.frame fun k hk => AList.lookup_erase_ne fun hke => hek (hke ▸ hk)
  · intro k
    simp only [AList.mem_erase, hmem, h.mem, List.map_append, List.map_cons, List.mem_append,
      List.mem_cons]
    constructor
    · intro hk
      obtain ⟨hne, hk⟩ := hk
      tauto
    · intro hk
      refine ⟨?_, by tauto⟩
      intro hke
      rw [hke] at hk
      tauto

/-- The node goes to the front. -/
theorem relink (h : Rep c (xs ++ e :: ys)) :
    ∃ c', c.relink e.1 = some (e.2.data, c') ∧ Rep c' (e :: (xs ++ ys)) ∧ c'.mx = c.mx ∧
      c'.total = c.total ∧ c'.deleted = c.deleted := by
  cases xs with
  | nil =>
    have hf : c.forward = some e.1 := h.forward
    refine ⟨c, ?_, h, rfl, rfl, rfl⟩
    unfold Cache.relink
    simp only [h.lookup]
    rw [if_pos hf]
  | cons x xs =>
    obtain ⟨map, last, hby, hlast, hseg, hlook, hmem⟩ := h.bypass
    obtain ⟨-, -, hd, hex, hey, -⟩ := keys_apart h.nodup
    have hek : e.1 ∉ (x :: xs ++ ys).map Prod.fst := by
      rw [List.map_append, List.mem_append]
      tauto
    have hne : x.1 ≠ e.1 := fun he => hex (by simp [he])
    have hf : c.forward = some x.1 := h.forward
    have hseg₁ : Seg (map.insert e.1 ⟨e.2, none, some x.1⟩) none (x :: xs ++ ys) none :=
      hseg.frame fun k hk => AList.lookup_insert_ne fun hke => hek (hke ▸ hk)
    obtain ⟨map₂, hset₂, hseg₂, hmem₂, hframe₂⟩ := setPrev_headKey hseg₁ hd (some e.1)
    refine ⟨{ c with map := map₂, forward := some e.1, last := last }, ?_,
      ⟨rfl, ?_, ⟨?_, hseg₂⟩, ?_, ?_⟩, rfl, rfl, rfl⟩
    · unfold Cache.relink
      simp only [h.lookup]
      rw [if_neg (by rw [hf]; simpa using hne), hby]
      simp only [hlook, hf, Option.bind_eq_bind, Option.bind_some]
      rw [show setPrev (map.insert e.1 ⟨e.2, none, some x.1⟩) (some x.1) (some e.1) = some map₂ from
        hset₂]
      rfl
    · rw [hlast]
      rfl
    · rw [hframe₂ _ hek, AList.lookup_insert]
      rfl
    · rw [List.map_cons, List.nodup_cons]
      exact ⟨hek, hd⟩
    · intro k
      rw [hmem₂, AList.mem_insert, hmem, h.mem]
      simp only [List.map_append, List.map_cons, List.mem_append, List.mem_cons]
      tauto

/-- Emptying a node before it is unlinked. -/
theorem setVal (h : Rep c (xs ++ e :: ys)) (v : Cell O) :
    Rep { c with map := c.map.insert e.1 ⟨v, lastKey none xs, headKey none ys⟩ }
      (xs ++ (e.1, v) :: ys) := by
  obtain ⟨-, -, -, hex, hey, -⟩ := keys_apart h.nodup
  obtain ⟨hsx, -, hsy⟩ := seg_append.mp h.seg
  have hkeys : (xs ++ (e.1, v) :: ys).map Prod.fst = (xs ++ e :: ys).map Prod.fst := by simp
  refine ⟨?_, ?_, seg_append.mpr ⟨?_, AList.lookup_insert _, ?_⟩, ?_, fun k => ?_⟩
  · rw [h.forward, headKey_append, headKey_append]
    rfl
  · rw [h.last, lastKey_append, lastKey_append]
    rfl
  · exact hsx.frame fun k hk => AList.lookup_insert_ne fun hke => hex (hke ▸ hk)
  · exact hsy.frame fun k hk => AList.lookup_insert_ne fun hke => hey (hke ▸ hk)
  · rw [hkeys]
    exact h.nodup
  · rw [hkeys, ← h.mem, AList.mem_insert, h.mem]
    simp only [List.map_append, List.map_cons, List.mem_append, List.mem_cons]
    tauto

/-- A new node at the front. -/
theorem link (h : Rep c l) (hk : k ∉ l.map Prod.fst) (obj : O) (cost : Int) :
    ∃ c', c.link k obj cost = some c' ∧ Rep c' ((k, ⟨cost, some obj⟩) :: l) ∧ c'.mx = c.mx ∧
      c'.total = (c.total + cost).bmod (2 ^ 32) ∧ c'.deleted = c.deleted := by
  have hseg₁ : Seg (c.map.insert k ⟨⟨cost, some obj⟩, none, none⟩) none l none :=
    h.seg.frame fun k' hk' => AList.lookup_insert_ne fun hke => hk (hke ▸ hk')
  obtain ⟨map₂, hset₂, hseg₂, hmem₂, hframe₂⟩ := setPrev_headKey hseg₁ h.nodup (some k)
  have hlook₂ : map₂.lookup k = some ⟨⟨cost, some obj⟩, none, none⟩ := by
    rw [hframe₂ _ hk, AList.lookup_insert]
  refine ⟨⟨some k, if c.last.isNone then some k else c.last,
    map₂.insert k ⟨⟨cost, some obj⟩, none, c.forward⟩, c.mx, (c.total + cost).bmod (2 ^ 32),
    c.deleted⟩, ?_, ⟨rfl, ?_, ⟨?_, ?_⟩, ?_, fun k' => ?_⟩, rfl, rfl, rfl⟩
  · unfold Cache.link
    rw [h.forward]
    simp only [hset₂, Option.bind_eq_bind, Option.bind_some, setNext, hlook₂, Option.map_some]
  · rw [h.last]
    cases l with
    | nil => rfl
    | cons e l =>
      obtain ⟨zs, z, hz⟩ : ∃ zs z, e :: l = zs ++ [z] :=
        ⟨_, _, (List.dropLast_concat_getLast (by simp)).symm⟩
      rw [hz, lastKey_concat, ← List.cons_append, lastKey_concat]
      rfl
  · rw [AList.lookup_insert, h.forward]
  · exact hseg₂.frame fun k' hk' => AList.lookup_insert_ne fun hke => hk (hke ▸ hk')
  · rw [List.map_cons, List.nodup_cons]
    exact ⟨hk, h.nodup⟩
  · rw [AList.mem_insert, hmem₂, AList.mem_insert, h.mem]
    simp only [List.map_cons, List.mem_cons]
    tauto

theorem length_keys (h : Rep c l) : c.map.keys.length = l.length := by
  have hperm : c.map.keys.Perm (l.map Prod.fst) :=
    (List.perm_ext_iff_of_nodup c.map.keys_nodup h.nodup).mpr fun k => h.mem k
  rw [hperm.length_eq, List.length_map]

end Rep

/-! ## The abstract cache -/

/-- The sum of the costs. -/
def cost (l : List (K × Cell O)) : Int := (l.map fun e => e.2.cost).sum

/-- The objects of the entries. -/
def objects (l : List (K × Cell O)) : List O := l.flatMap fun e => e.2.data.toList

def others (k : K) (l : List (K × Cell O)) : List (K × Cell O) := l.filter fun e => e.1 ≠ k

/-- The entry of the key, if there is one. -/
def entry (k : K) (l : List (K × Cell O)) : List (K × Cell O) := l.filter fun e => e.1 = k

/-- What is left when the least recently used entries are evicted, one by one, until
the rest costs at most `m`. -/
def Shortest (m : Int) (l kept : List (K × Cell O)) : Prop :=
  cost kept ≤ m ∧ ∃ gone, l = kept ++ gone ∧
    ∀ kept' gone', l = kept' ++ gone' → cost kept' ≤ m → gone.length ≤ gone'.length

/-- The most recently used entry comes first. -/
structure Lru (K O : Type) where
  entries : List (K × Cell O)
  mx : Int

inductive Op (K O : Type) where
  | insert (k : K) (obj : O) (cost : Int)
  | getData (k : K)
  | remove (k : K)
  | take (k : K)
  | setMaxCost (m : Int)
  | clear

inductive Out (O : Type) where
  | done
  | flag (b : Bool)
  | data (o : Option O)

/-- What an operation is to do. -/
def Spec (a : Lru K O) (op : Op K O) (out : Out O) (a' : Lru K O) : Prop :=
  match op with
  | .insert k obj c =>
    out = .flag (decide (c ≤ a.mx)) ∧ a'.mx = a.mx ∧
      if c ≤ a.mx then ∃ kept, Shortest (a.mx - c) (others k a.entries) kept ∧
        a'.entries = (k, ⟨c, some obj⟩) :: kept
      else a'.entries = others k a.entries
  | .getData k =>
    out = .data (objects (entry k a.entries)).head? ∧ a'.mx = a.mx ∧
      a'.entries = entry k a.entries ++ others k a.entries
  | .remove k =>
    out = .flag (decide (k ∈ a.entries.map Prod.fst)) ∧ a'.mx = a.mx ∧
      a'.entries = others k a.entries
  | .take k =>
    out = .data (objects (entry k a.entries)).head? ∧ a'.mx = a.mx ∧
      a'.entries = others k a.entries
  | .setMaxCost m => out = .done ∧ a'.mx = m ∧ Shortest m a.entries a'.entries
  | .clear => out = .done ∧ a'.mx = a.mx ∧ a'.entries = []

section Entries

variable {l xs ys : List (K × Cell O)} {e : K × Cell O} {k : K}

theorem others_eq_self (h : k ∉ l.map Prod.fst) : others k l = l := by
  refine List.filter_eq_self.mpr fun e he => ?_
  simp only [ne_eq, decide_not, Bool.not_eq_true', decide_eq_false_iff_not]
  exact fun hke => h (hke ▸ List.mem_map_of_mem he)

theorem entry_eq_nil (h : k ∉ l.map Prod.fst) : entry k l = [] := by
  refine List.filter_eq_nil_iff.mpr fun e he => ?_
  simp only [decide_eq_true_eq]
  exact fun hke => h (hke ▸ List.mem_map_of_mem he)

theorem others_middle (h : ((xs ++ e :: ys).map Prod.fst).Nodup) :
    others e.1 (xs ++ e :: ys) = xs ++ ys := by
  obtain ⟨-, -, -, hex, hey, -⟩ := keys_apart h
  have hx := others_eq_self hex
  have hy := others_eq_self hey
  unfold others at hx hy ⊢
  rw [List.filter_append, List.filter_cons_of_neg (by simp), hx, hy]

theorem entry_middle (h : ((xs ++ e :: ys).map Prod.fst).Nodup) :
    entry e.1 (xs ++ e :: ys) = [e] := by
  obtain ⟨-, -, -, hex, hey, -⟩ := keys_apart h
  have hx := entry_eq_nil hex
  have hy := entry_eq_nil hey
  unfold entry at hx hy ⊢
  rw [List.filter_append, List.filter_cons_of_pos (by simp), hx, hy, List.nil_append]

theorem exists_middle (h : k ∈ l.map Prod.fst) : ∃ xs e ys, l = xs ++ e :: ys ∧ e.1 = k := by
  obtain ⟨e, he, rfl⟩ := List.mem_map.mp h
  obtain ⟨xs, ys, rfl⟩ := List.append_of_mem he
  exact ⟨xs, e, ys, rfl, rfl⟩

theorem not_mem_others : k ∉ (others k l).map Prod.fst := by
  intro h
  obtain ⟨e, he, rfl⟩ := List.mem_map.mp h
  have := (List.mem_filter.mp he).2
  simp at this

@[simp] theorem objects_append : objects (xs ++ ys) = objects xs ++ objects ys :=
  List.flatMap_append

@[simp] theorem cost_nil : cost ([] : List (K × Cell O)) = 0 := rfl

theorem cost_cons : cost (e :: l) = e.2.cost + cost l := by
  rw [cost, List.map_cons, List.sum_cons]
  rfl

theorem cost_append : cost (xs ++ ys) = cost xs + cost ys := by
  rw [cost, List.map_append, List.sum_append]
  rfl

theorem cost_nonneg (h : ∀ e ∈ l, 0 ≤ e.2.cost) : 0 ≤ cost l := by
  induction l with
  | nil => exact Int.le_refl 0
  | cons e l ih =>
    have he := h e (by simp)
    have := ih fun x hx => h x (by simp [hx])
    rw [cost_cons]
    omega

/-- Nothing is evicted from what fits. -/
theorem shortest_self {m : Int} (h : cost l ≤ m) : Shortest m l l :=
  ⟨h, [], (List.append_nil l).symm, fun _ _ _ _ => Nat.zero_le _⟩

end Entries

/-! ## The operations -/

section Operations

variable {c : Cache K O} {l : List (K × Cell O)} {k : K}

theorem Rep.remove (h : Rep c l) (k : K) :
    ∃ c', c.remove k = some (decide (k ∈ l.map Prod.fst), c') ∧ Rep c' (others k l) ∧
      c'.mx = c.mx ∧ c'.total = c.total ∧ c'.deleted = c.deleted ++ objects (entry k l) := by
  by_cases hk : k ∈ l.map Prod.fst
  · obtain ⟨xs, e, ys, rfl, rfl⟩ := exists_middle hk
    obtain ⟨c', hun, hr, hmx, htot, hdel⟩ := h.unlink
    rw [others_middle h.nodup, entry_middle h.nodup]
    refine ⟨c', ?_, hr, hmx, htot, by simpa [objects] using hdel⟩
    simp only [Cache.remove, h.lookup, hun, Option.bind_eq_bind, Option.bind_some, hk, decide_true]
  · rw [others_eq_self hk, entry_eq_nil hk]
    refine ⟨c, ?_, h, rfl, rfl, (List.append_nil _).symm⟩
    simp only [Cache.remove, h.lookup_none hk, hk, decide_false]

theorem Rep.take (h : Rep c l) (k : K) :
    ∃ c', c.take k = some ((objects (entry k l)).head?, c') ∧ Rep c' (others k l) ∧
      c'.mx = c.mx ∧ c'.total = c.total ∧ c'.deleted = c.deleted := by
  by_cases hk : k ∈ l.map Prod.fst
  · obtain ⟨xs, e, ys, rfl, rfl⟩ := exists_middle hk
    have hset := h.setVal { e.2 with data := none }
    obtain ⟨c', hun, hr, hmx, htot, hdel⟩ := hset.unlink
    rw [others_middle h.nodup, entry_middle h.nodup]
    refine ⟨c', ?_, hr, hmx, htot, by simpa using hdel⟩
    have hhead : (objects [e]).head? = e.2.data := by
      unfold objects
      cases hd : e.2.data <;> simp [hd]
    simp only at hun
    simp only [Cache.take, h.lookup, hun, hhead, Option.bind_eq_bind, Option.bind_some]
  · rw [others_eq_self hk, entry_eq_nil hk]
    refine ⟨c, ?_, h, rfl, rfl, rfl⟩
    simp only [Cache.take, h.lookup_none hk]
    rfl

theorem Rep.getData (h : Rep c l) (k : K) :
    ∃ c', c.getData k = some ((objects (entry k l)).head?, c') ∧ Rep c' (entry k l ++ others k l) ∧
      c'.mx = c.mx ∧ c'.total = c.total ∧ c'.deleted = c.deleted := by
  by_cases hk : k ∈ l.map Prod.fst
  · obtain ⟨xs, e, ys, rfl, rfl⟩ := exists_middle hk
    obtain ⟨c', hre, hr, hrest⟩ := h.relink
    rw [others_middle h.nodup, entry_middle h.nodup]
    have hhead : (objects [e]).head? = e.2.data := by
      unfold objects
      cases hd : e.2.data <;> simp [hd]
    exact ⟨c', by rw [hhead]; exact hre, hr, hrest⟩
  · rw [others_eq_self hk, entry_eq_nil hk]
    refine ⟨c, ?_, h, rfl, rfl, rfl⟩
    simp only [Cache.getData, Cache.relink, h.lookup_none hk]
    rfl

/-- `m_total` does not change while `trim` evicts, so it evicts everything or nothing. -/
theorem Rep.trimLoop {m : Int} (h : Rep c l) {n : Nat} (hn : l.length < n) :
    ∃ c', Cache.trimLoop m n (lastKey none l) c = some c' ∧
      Rep c' (if c.total ≤ m then l else []) ∧ c'.mx = c.mx ∧ c'.total = c.total ∧
      c'.deleted = c.deleted ++ if c.total ≤ m then [] else objects l.reverse := by
  induction l using List.reverseRecOn generalizing c n with
  | nil =>
    obtain ⟨n, rfl⟩ : ∃ n', n = n' + 1 := ⟨n - 1, by simp at hn; omega⟩
    refine ⟨c, rfl, ?_, rfl, rfl, ?_⟩
    · simpa using h
    · simp [objects]
  | append_singleton l e ih =>
    obtain ⟨n, rfl⟩ : ∃ n', n = n' + 1 := ⟨n - 1, by omega⟩
    rw [List.length_append, List.length_singleton] at hn
    rw [lastKey_concat]
    unfold Cache.trimLoop
    by_cases hm : c.total ≤ m
    · simp only [if_pos hm]
      exact ⟨c, rfl, h, rfl, rfl, (List.append_nil _).symm⟩
    · obtain ⟨c₁, hun, hr, hmx, htot, hdel⟩ := h.unlink
      rw [List.append_nil] at hr
      obtain ⟨c', hloop, hr', hmx', htot', hdel'⟩ := ih hr (n := n) (by omega)
      rw [htot, if_neg hm] at hr' hdel'
      refine ⟨c', ?_, by simpa [if_neg hm] using hr', hmx'.trans hmx, htot'.trans htot, ?_⟩
      · simp only [if_neg hm, h.lookup, hun, Option.bind_eq_bind, Option.bind_some, hloop]
      · rw [hdel', hdel, if_neg hm, List.reverse_append, List.append_assoc]
        simp [objects]

theorem Rep.trim (h : Rep c l) (m : Int) :
    ∃ c', Cache.trim m c = some c' ∧ Rep c' (if c.total ≤ m then l else []) ∧ c'.mx = c.mx ∧
      c'.total = c.total ∧
      c'.deleted = c.deleted ++ if c.total ≤ m then [] else objects l.reverse := by
  unfold Cache.trim
  rw [h.last]
  exact h.trimLoop (by rw [h.length_keys]; omega)

theorem Rep.clearLoop {n : Nat} {p : Option K} (hf : c.forward = headKey none l)
    (hs : Seg c.map p l none) (hn : l.length < n) :
    Cache.clearLoop n c =
      some { c with forward := none, deleted := c.deleted ++ objects l } := by
  induction l generalizing c n p with
  | nil =>
    obtain ⟨n, rfl⟩ : ∃ n', n = n' + 1 := ⟨n - 1, by simp at hn; omega⟩
    unfold Cache.clearLoop
    rw [hf]
    obtain ⟨f, la, map, mx, total, deleted⟩ := c
    simp only [headKey] at hf
    subst hf
    simp [headKey, objects]
  | cons e l ih =>
    obtain ⟨n, rfl⟩ : ∃ n', n = n' + 1 := ⟨n - 1, by omega⟩
    rw [List.length_cons] at hn
    obtain ⟨he, hl⟩ := hs
    unfold Cache.clearLoop
    rw [hf, headKey]
    simp only [he, Option.bind_eq_bind, Option.bind_some]
    have hrest := ih (c := { c with
      forward := headKey none l, deleted := c.deleted ++ e.2.data.toList }) rfl hl
      (show l.length < n by omega)
    rw [hrest]
    simp [objects]

theorem Rep.clear (h : Rep c l) :
    ∃ c', c.clear = some c' ∧ Rep c' [] ∧ c'.mx = c.mx ∧ c'.total = 0 ∧
      c'.deleted = c.deleted ++ objects l := by
  refine ⟨⟨none, none, ∅, c.mx, 0, c.deleted ++ objects l⟩, ?_,
    ⟨rfl, rfl, trivial, List.nodup_nil, ?_⟩,
    rfl, rfl, rfl⟩
  · unfold Cache.clear
    rw [Rep.clearLoop h.forward h.seg (by rw [h.length_keys]; omega)]
    rfl
  · intro k
    simp

theorem Rep.insert (h : Rep c l) (k : K) (obj : O) (price : Int) :
    ∃ c', c.insert k obj price = some (decide (price ≤ c.mx), c') ∧ c'.mx = c.mx ∧
      (¬ price ≤ c.mx → Rep c' (others k l) ∧ c'.total = c.total ∧
        c'.deleted = c.deleted ++ objects (entry k l) ++ [obj]) ∧
      (price ≤ c.mx → c'.total = (c.total + price).bmod (2 ^ 32) ∧
        ∃ kept gone, others k l = kept ++ gone ∧ Rep c' ((k, ⟨price, some obj⟩) :: kept) ∧
          (c.total ≤ c.mx - price → gone = []) ∧ (¬ c.total ≤ c.mx - price → kept = []) ∧
          c'.deleted.Perm (c.deleted ++ objects (entry k l) ++ objects gone)) := by
  obtain ⟨c₁, hrem, hr₁, hmx₁, htot₁, hdel₁⟩ := h.remove k
  unfold Cache.insert
  rw [hrem, Option.bind_eq_bind, Option.bind_some]
  simp only [hmx₁]
  by_cases hp : price ≤ c.mx
  · rw [if_neg (by omega)]
    obtain ⟨c₂, htrim, hr₂, hmx₂, htot₂, hdel₂⟩ := hr₁.trim (c.mx - price)
    rw [htot₁] at hr₂ hdel₂ htot₂
    have hk₂ : k ∉ (if c.total ≤ c.mx - price then others k l else []).map Prod.fst := by
      split
      · exact not_mem_others
      · simp
    obtain ⟨c₃, hlink, hr₃, hmx₃, htot₃, hdel₃⟩ := hr₂.link hk₂ obj price
    refine ⟨c₃, ?_, by rw [hmx₃, hmx₂, hmx₁], fun hn => absurd hp hn,
      fun _ => ⟨by rw [htot₃, htot₂], ?_⟩⟩
    · rw [htrim, Option.bind_eq_bind, Option.bind_some, hlink, Option.bind_some]
      simp [hp]
    · by_cases hfit : c.total ≤ c.mx - price
      · rw [if_pos hfit] at hr₃ hdel₂
        refine ⟨others k l, [], (List.append_nil _).symm, hr₃, fun _ => rfl,
          fun hn => absurd hfit hn, ?_⟩
        rw [hdel₃, hdel₂, hdel₁]
        simp [objects]
      · rw [if_neg hfit] at hr₃ hdel₂
        refine ⟨[], others k l, rfl, hr₃, fun hn => absurd hn hfit, fun _ => rfl, ?_⟩
        rw [hdel₃, hdel₂, hdel₁]
        exact ((List.reverse_perm _).flatMap_right _).append_left _
  · rw [if_pos (by omega)]
    refine ⟨{ c₁ with deleted := c₁.deleted ++ [obj] }, ?_, hmx₁,
      fun _ => ⟨?_, htot₁, by rw [hdel₁]⟩, fun hn => absurd hn hp⟩
    · simp [hp, hmx₁]
    · exact ⟨hr₁.forward, hr₁.last, hr₁.seg, hr₁.nodup, hr₁.mem⟩

end Operations

/-! ## Runs -/

def perform (c : Cache K O) : Op K O → Option (Out O × Cache K O)
  | .insert k obj price => (c.insert k obj price).map fun r => (.flag r.1, r.2)
  | .getData k => (c.getData k).map fun r => (.data r.1, r.2)
  | .remove k => (c.remove k).map fun r => (.flag r.1, r.2)
  | .take k => (c.take k).map fun r => (.data r.1, r.2)
  | .setMaxCost m => (c.setMaxCost m).map fun c => (.done, c)
  | .clear => c.clear.map fun c => (.done, c)

/-- Costs are not negative, and every number is an `int`. -/
def Op.Valid : Op K O → Prop
  | .insert _ _ price => 0 ≤ price ∧ price < 2 ^ 31
  | .setMaxCost m => m < 2 ^ 31
  | _ => True

/-- A step that takes no entry out whose cost is not 0. `unlink` forgets to take
the cost off `m_total`. -/
def Steady (c : Cache K O) : Op K O → Prop
  | .insert k _ price =>
    (∀ node, c.map.lookup k = some node → node.val.cost = 0) ∧
      (price ≤ c.mx → c.total ≤ c.mx - price)
  | .remove k | .take k => ∀ node, c.map.lookup k = some node → node.val.cost = 0
  | .setMaxCost m => c.total ≤ m
  | .getData _ | .clear => True

/-- A label is an operation and what it returns. -/
def cacheSystem (K O : Type) [DecidableEq K] (maxCost : Int) :
    Lts (Cache K O) (Op K O × Out O) where
  init c := c = Cache.init maxCost
  step c l c' := l.1.Valid ∧ perform c l.1 = some (l.2, c')

def lruSystem (K O : Type) [DecidableEq K] (maxCost : Int) : Lts (Lru K O) (Op K O × Out O) where
  init a := a = ⟨[], maxCost⟩
  step a l a' := Spec a l.1 l.2 a'

def insertedBy : Op K O × Out O → List O
  | (.insert _ obj _, _) => [obj]
  | _ => []

def takenBy : Op K O × Out O → List O
  | (.take _, .data obj) => obj.toList
  | _ => []

/-- The cache is the abstract one. -/
structure Sound (c : Cache K O) (a : Lru K O) : Prop where
  rep : Rep c a.entries
  mx : c.mx = a.mx
  total : c.total = cost a.entries
  bound : c.total ≤ c.mx
  costs : ∀ e ∈ a.entries, 0 ≤ e.2.cost
  mx_lt : c.mx < 2 ^ 31

/-- No object is lost or deleted twice: those that have come in are in the cache,
deleted or handed out. -/
def Accounts (c : Cache K O) (a : Lru K O) (ls : List (Op K O × Out O)) (c' : Cache K O)
    (a' : Lru K O) : Prop :=
  (objects a'.entries ++ c'.deleted ++ ls.flatMap takenBy).Perm
    (ls.flatMap insertedBy ++ objects a.entries ++ c.deleted)

section Steps

variable {c c' : Cache K O} {a : Lru K O} {l : List (K × Cell O)} {k : K}

theorem entry_cases (h : (l.map Prod.fst).Nodup) (k : K) :
    entry k l = [] ∨ ∃ e, e.1 = k ∧ e ∈ l ∧ entry k l = [e] := by
  by_cases hk : k ∈ l.map Prod.fst
  · obtain ⟨xs, e, ys, rfl, rfl⟩ := exists_middle hk
    exact .inr ⟨e, rfl, by simp, entry_middle h⟩
  · exact .inl (entry_eq_nil hk)

/-- The entry of a key has one object at most. -/
theorem objects_entry (h : (l.map Prod.fst).Nodup) (k : K) :
    (objects (entry k l)).head?.toList = objects (entry k l) := by
  rcases entry_cases h k with he | ⟨e, -, -, he⟩
  · rw [he]
    rfl
  · rw [he]
    unfold objects
    cases hd : e.2.data <;> simp [hd]

theorem perm_entry (k : K) (l : List (K × Cell O)) :
    (objects (entry k l) ++ objects (others k l)).Perm (objects l) := by
  have hp := List.filter_append_perm (fun e : K × Cell O => decide (e.1 = k)) l
  have := hp.flatMap_right fun e => e.2.data.toList
  rw [List.flatMap_append] at this
  simpa [objects, entry, others] using this

theorem cost_entry (k : K) (l : List (K × Cell O)) :
    cost l = cost (entry k l) + cost (others k l) := by
  induction l with
  | nil => rfl
  | cons e l ih =>
    by_cases hk : e.1 = k
    · rw [entry, List.filter_cons_of_pos (by simpa using hk), others,
        List.filter_cons_of_neg (by simpa using hk), cost_cons, cost_cons, ih, entry, others]
      omega
    · rw [entry, List.filter_cons_of_neg (by simpa using hk), others,
        List.filter_cons_of_pos (by simpa using hk), cost_cons, cost_cons, ih, entry, others]
      omega

/-- Entries of cost 0 do not count. -/
theorem cost_others (h : Rep c l)
    (hz : ∀ node, c.map.lookup k = some node → node.val.cost = 0) :
    cost (others k l) = cost l := by
  have hsplit := cost_entry k l
  rcases entry_cases h.nodup k with he | ⟨e, rfl, hmem, he⟩
  · rw [he] at hsplit
    simpa using hsplit.symm
  · obtain ⟨xs, ys, rfl⟩ := List.append_of_mem hmem
    have hcost := hz _ h.lookup
    rw [he, cost_cons, cost_nil] at hsplit
    simp only at hcost
    omega

theorem mem_others {e : K × Cell O} (h : e ∈ others k l) : e ∈ l := (List.mem_filter.mp h).1

theorem Sound.insert (h : Sound c a) (obj : O) {price : Int} (hprice : 0 ≤ price)
    (hz : ∀ node, c.map.lookup k = some node → node.val.cost = 0)
    (hfit : price ≤ c.mx → c.total ≤ c.mx - price) :
    ∃ c' a', c.insert k obj price = some (decide (price ≤ c.mx), c') ∧ Sound c' a' ∧
      Spec a (.insert k obj price) (.flag (decide (price ≤ c.mx))) a' ∧
      Accounts c a [(.insert k obj price, .flag (decide (price ≤ c.mx)))] c' a' := by
  obtain ⟨c₁, hins, hmx, hno, hyes⟩ := h.rep.insert k obj price
  have hcost := cost_others h.rep hz
  have hperm := Multiset.coe_eq_coe.mpr (perm_entry k a.entries)
  have htotal := h.total
  have hbound := h.bound
  have hlt := h.mx_lt
  by_cases hle : price ≤ c.mx
  · obtain ⟨htot, kept, gone, hsplit, hrep', hnil, -, hdel⟩ := hyes hle
    have hfit' := hfit hle
    have hgone := hnil hfit'
    subst hgone
    rw [List.append_nil] at hsplit
    subst hsplit
    have hpos := cost_nonneg h.costs
    have htot' : c₁.total = c.total + price := by
      rw [htot]
      exact Int.bmod_eq_of_le (by omega) (by omega)
    refine ⟨c₁, ⟨(k, ⟨price, some obj⟩) :: others k a.entries, a.mx⟩, hins,
      ⟨hrep', hmx.trans h.mx, ?_, by omega, ?_, by omega⟩, ⟨by rw [h.mx], rfl, ?_⟩, ?_⟩
    · rw [htot', cost_cons, hcost]
      simp only
      omega
    · intro e he
      rcases List.mem_cons.mp he with rfl | he
      · exact hprice
      · exact h.costs e (mem_others he)
    · rw [if_pos (by rw [← h.mx]; exact hle)]
      exact ⟨_, shortest_self (by rw [hcost, ← h.mx]; omega), rfl⟩
    · apply Multiset.coe_eq_coe.mp
      have hdel' := Multiset.coe_eq_coe.mpr hdel
      simp only [← Multiset.coe_add] at hdel' hperm ⊢
      rw [hdel', ← hperm]
      simp only [objects, List.flatMap_cons, List.flatMap_nil, Option.toList_some, insertedBy,
        takenBy,
        ← Multiset.coe_add, List.append_nil, Multiset.coe_nil]
      abel
  · obtain ⟨hrep', htot, hdel⟩ := hno hle
    refine ⟨c₁, ⟨others k a.entries, a.mx⟩, hins,
      ⟨hrep', hmx.trans h.mx, by rw [htot, hcost, htotal], by omega,
        fun e he => h.costs e (mem_others he),
        by omega⟩, ⟨by rw [h.mx], rfl, ?_⟩, ?_⟩
    · rw [if_neg (by rw [← h.mx]; exact hle)]
    · apply Multiset.coe_eq_coe.mp
      simp only [← Multiset.coe_add, hdel] at hperm ⊢
      rw [← hperm]
      simp only [List.flatMap_cons, List.flatMap_nil, insertedBy, takenBy, List.append_nil,
        Multiset.coe_nil]
      abel

theorem Sound.remove (h : Sound c a)
    (hz : ∀ node, c.map.lookup k = some node → node.val.cost = 0) :
    ∃ c' a' b, c.remove k = some (b, c') ∧ Sound c' a' ∧ Spec a (.remove k) (.flag b) a' ∧
      Accounts c a [(.remove k, .flag b)] c' a' := by
  obtain ⟨c', hrem, hrep', hmx, htot, hdel⟩ := h.rep.remove k
  have hperm := Multiset.coe_eq_coe.mpr (perm_entry k a.entries)
  refine ⟨c', ⟨others k a.entries, a.mx⟩, _, hrem,
    ⟨hrep', hmx.trans h.mx, ?_, ?_, fun e he => h.costs e (mem_others he), ?_⟩, ⟨rfl, rfl, rfl⟩, ?_⟩
  · rw [htot, cost_others h.rep hz, h.total]
  · rw [htot, hmx]
    exact h.bound
  · rw [hmx]
    exact h.mx_lt
  · apply Multiset.coe_eq_coe.mp
    simp only [← Multiset.coe_add, hdel] at hperm ⊢
    rw [← hperm]
    simp only [List.flatMap_cons, List.flatMap_nil, insertedBy, takenBy, List.append_nil,
      Multiset.coe_nil]
    abel

theorem Sound.take (h : Sound c a)
    (hz : ∀ node, c.map.lookup k = some node → node.val.cost = 0) :
    ∃ c' a' o, c.take k = some (o, c') ∧ Sound c' a' ∧ Spec a (.take k) (.data o) a' ∧
      Accounts c a [(.take k, .data o)] c' a' := by
  obtain ⟨c', htake, hrep', hmx, htot, hdel⟩ := h.rep.take k
  have hperm := Multiset.coe_eq_coe.mpr (perm_entry k a.entries)
  refine ⟨c', ⟨others k a.entries, a.mx⟩, _, htake,
    ⟨hrep', hmx.trans h.mx, ?_, ?_, fun e he => h.costs e (mem_others he), ?_⟩, ⟨rfl, rfl, rfl⟩, ?_⟩
  · rw [htot, cost_others h.rep hz, h.total]
  · rw [htot, hmx]
    exact h.bound
  · rw [hmx]
    exact h.mx_lt
  · apply Multiset.coe_eq_coe.mp
    simp only [List.flatMap_cons, List.flatMap_nil, insertedBy, takenBy, List.append_nil,
      objects_entry h.rep.nodup k]
    simp only [← Multiset.coe_add, hdel] at hperm ⊢
    rw [← hperm, Multiset.coe_nil]
    abel

theorem Sound.getData (h : Sound c a) (k : K) :
    ∃ c' a' o, c.getData k = some (o, c') ∧ Sound c' a' ∧ Spec a (.getData k) (.data o) a' ∧
      Accounts c a [(.getData k, .data o)] c' a' := by
  obtain ⟨c', hget, hrep', hmx, htot, hdel⟩ := h.rep.getData k
  have hperm := Multiset.coe_eq_coe.mpr (perm_entry k a.entries)
  refine ⟨c', ⟨entry k a.entries ++ others k a.entries, a.mx⟩, _, hget,
    ⟨hrep', hmx.trans h.mx, ?_, ?_, fun e he => ?_, ?_⟩, ⟨rfl, rfl, rfl⟩, ?_⟩
  · rw [htot, h.total, cost_append, ← cost_entry]
  · rw [htot, hmx]
    exact h.bound
  · rcases List.mem_append.mp he with he | he
    · exact h.costs e (List.mem_filter.mp he).1
    · exact h.costs e (mem_others he)
  · rw [hmx]
    exact h.mx_lt
  · apply Multiset.coe_eq_coe.mp
    simp only [List.flatMap_cons, List.flatMap_nil, insertedBy, takenBy, List.append_nil,
      objects_append]
    simp only [← Multiset.coe_add, hdel] at hperm ⊢
    rw [← hperm, Multiset.coe_nil]
    abel

theorem Sound.setMaxCost (h : Sound c a) {m : Int} (hm : m < 2 ^ 31) (hfit : c.total ≤ m) :
    ∃ c' a', c.setMaxCost m = some c' ∧ Sound c' a' ∧ Spec a (.setMaxCost m) .done a' ∧
      Accounts c a [(.setMaxCost m, .done)] c' a' := by
  have hrep : Rep { c with mx := m } a.entries :=
    ⟨h.rep.forward, h.rep.last, h.rep.seg, h.rep.nodup, h.rep.mem⟩
  obtain ⟨c', htrim, hrep', hmx, htot, hdel⟩ := hrep.trim m
  simp only [if_pos hfit] at hrep' hdel
  refine ⟨c', ⟨a.entries, m⟩, htrim,
    ⟨hrep', hmx, htot.trans h.total, by rw [htot, hmx]; exact hfit, h.costs, by rw [hmx]; exact hm⟩,
    ⟨rfl, rfl, shortest_self (by rw [← h.total]; exact hfit)⟩, ?_⟩
  unfold Accounts
  rw [hdel]
  simp [insertedBy, takenBy]

theorem Sound.clear (h : Sound c a) :
    ∃ c' a', c.clear = some c' ∧ Sound c' a' ∧ Spec a .clear .done a' ∧
      Accounts c a [(.clear, .done)] c' a' := by
  obtain ⟨c', hclear, hrep', hmx, htot, hdel⟩ := h.rep.clear
  have hpos := cost_nonneg h.costs
  have hbound := h.bound
  have htotal := h.total
  refine ⟨c', ⟨[], a.mx⟩, hclear, ⟨hrep', hmx.trans h.mx, htot, by rw [htot, hmx]; omega,
    fun e he => absurd he (by simp), by rw [hmx]; exact h.mx_lt⟩, ⟨rfl, rfl, rfl⟩, ?_⟩
  unfold Accounts
  rw [hdel]
  simp only [objects, List.flatMap_cons, List.flatMap_nil, insertedBy, takenBy, List.append_nil,
    List.nil_append]
  exact List.perm_append_comm

/-- A steady operation on a sound cache is what it is to be. -/
theorem Sound.step (h : Sound c a) {op : Op K O} (hv : op.Valid) (hs : Steady c op) :
    ∃ out c' a', perform c op = some (out, c') ∧ Sound c' a' ∧ Spec a op out a' ∧
      Accounts c a [(op, out)] c' a' := by
  cases op with
  | insert k obj price =>
    obtain ⟨c', a', hp, hrest⟩ := h.insert obj hv.1 hs.1 hs.2
    exact ⟨_, c', a', by rw [perform, hp]; rfl, hrest⟩
  | getData k =>
    obtain ⟨c', a', o, hp, hrest⟩ := h.getData k
    exact ⟨_, c', a', by rw [perform, hp]; rfl, hrest⟩
  | remove k =>
    obtain ⟨c', a', b, hp, hrest⟩ := h.remove hs
    exact ⟨_, c', a', by rw [perform, hp]; rfl, hrest⟩
  | take k =>
    obtain ⟨c', a', o, hp, hrest⟩ := h.take hs
    exact ⟨_, c', a', by rw [perform, hp]; rfl, hrest⟩
  | setMaxCost m =>
    obtain ⟨c', a', hp, hrest⟩ := h.setMaxCost hv hs
    exact ⟨_, c', a', by rw [perform, hp]; rfl, hrest⟩
  | clear =>
    obtain ⟨c', a', hp, hrest⟩ := h.clear
    exact ⟨_, c', a', by rw [perform, hp]; rfl, hrest⟩

/-! ### The condition is exact -/

end Steps

/-! ## The run -/

theorem sound_init {maxCost : Int} (h0 : 0 ≤ maxCost) (hlt : maxCost < 2 ^ 31) :
    Sound (Cache.init maxCost : Cache K O) ⟨[], maxCost⟩ :=
  ⟨⟨rfl, rfl, trivial, List.nodup_nil, fun k => by simp [Cache.init]⟩, rfl, rfl, h0,
    fun e he => absurd he (by simp), hlt⟩

/-- A steady run from a sound cache is a run of the map that the cache is to be. -/
theorem Sound.run {maxCost : Int} {c₀ c : Cache K O} {ls : List (Op K O × Out O)}
    (hr : ((cacheSystem K O maxCost).restrict fun c l => Steady c l.1).Run c₀ ls c) :
    ∀ a₀ : Lru K O, Sound c₀ a₀ →
      ∃ a, (lruSystem K O maxCost).Run a₀ ls a ∧ Sound c a ∧ Accounts c₀ a₀ ls c a := by
  induction hr with
  | nil c => exact fun a₀ h₀ => ⟨a₀, .nil _, h₀, by simp [Accounts]⟩
  | @cons c₀ c₁ c₂ l ls hstep _ ih =>
    intro a₀ h₀
    obtain ⟨⟨hv, hp⟩, hsteady⟩ := hstep
    obtain ⟨out, c', a₁, hp', h₁, hspec, hacc⟩ := h₀.step hv hsteady
    rw [hp, Option.some.injEq, Prod.mk.injEq] at hp'
    obtain ⟨hout, rfl⟩ := hp'
    rw [← hout] at hspec hacc
    obtain ⟨a, hrest, hsound, hacc'⟩ := ih a₁ h₁
    refine ⟨a, .cons hspec hrest, hsound, ?_⟩
    apply Multiset.coe_eq_coe.mp
    have e₁ := Multiset.coe_eq_coe.mpr hacc
    have e₂ := Multiset.coe_eq_coe.mpr hacc'
    simp only [List.flatMap_cons, List.flatMap_nil, List.append_nil, ← Multiset.coe_add] at e₁ e₂ ⊢
    calc _ = (↑(objects a.entries) + ↑c₂.deleted + ↑(ls.flatMap takenBy) : Multiset O) +
          ↑(takenBy l) := by abel
      _ = ↑(ls.flatMap insertedBy) + (↑(objects a₁.entries) + ↑c₁.deleted + ↑(takenBy l)) := by
          rw [e₂]
          abel
      _ = _ := by
          rw [e₁]
          abel

/-- In every run whose operations are all steady, the cache does and returns what
the abstract one does, and accounts for its objects; and the next steady
operation runs. -/
theorem cache_sound (maxCost : Int) (h0 : 0 ≤ maxCost) (hlt : maxCost < 2 ^ 31)
    (ls : List (Op K O × Out O)) (c : Cache K O)
    (hr : ((cacheSystem K O maxCost).restrict fun c l => Steady c l.1).Run
      (Cache.init maxCost) ls c) :
    (∃ a, (lruSystem K O maxCost).Run ⟨[], maxCost⟩ ls a ∧ Sound c a ∧
      (objects a.entries ++ c.deleted ++ ls.flatMap takenBy).Perm (ls.flatMap insertedBy)) ∧
    ∀ op : Op K O, op.Valid → Steady c op → ∃ out c', perform c op = some (out, c') := by
  obtain ⟨a, hlru, hsound, hacc⟩ := Sound.run hr _ (sound_init h0 hlt)
  refine ⟨⟨a, hlru, hsound, by simpa [Accounts, objects, Cache.init] using hacc⟩, ?_⟩
  intro op hv hs
  obtain ⟨out, c', -, hp, -⟩ := hsound.step hv hs
  exact ⟨out, c', hp⟩

/-- An object of cost 6 comes and goes, and its cost stays. -/
theorem cache_sound_false : ¬ ∀ (maxCost : Int), 0 ≤ maxCost → maxCost < 2 ^ 31 →
    ∀ (ls : List (Op Nat Nat × Out Nat)) (c : Cache Nat Nat),
      (cacheSystem Nat Nat maxCost).Run (Cache.init maxCost) ls c →
      ∃ a, (lruSystem Nat Nat maxCost).Run ⟨[], maxCost⟩ ls a ∧ Sound c a ∧
        (objects a.entries ++ c.deleted ++ ls.flatMap takenBy).Perm (ls.flatMap insertedBy) := by
  intro h
  obtain ⟨a, -, hsound, -⟩ := h 10 (by omega) (by omega)
    [(.insert 1 7 6, .flag true), (.remove 1, .flag true)] ⟨none, none, ∅, 10, 6, [7]⟩
    (.cons ⟨⟨by omega, by omega⟩, rfl⟩ (.cons ⟨trivial, rfl⟩ (.nil _)))
  have hnil : a.entries = [] := by
    cases he : a.entries with
    | nil => rfl
    | cons e l => exact absurd ((hsound.rep.mem e.1).mpr (by rw [he]; simp)) (by simp)
  have := hsound.total
  rw [hnil] at this
  exact absurd this (by decide)

/-- Two objects come, the first is used again and one of cost 0 is taken out. -/
def usedRun : List (Op Nat Nat × Out Nat) :=
  [(.insert 1 7 6, .flag true), (.insert 2 8 0, .flag true), (.getData 1, .data (some 7)),
    (.take 2, .data (some 8)), (.setMaxCost 6, .done)]

theorem usedRun_sound : ∃ c a, (lruSystem Nat Nat 10).Run ⟨[], 10⟩ usedRun a ∧ Sound c a ∧
    c.total = 6 := by
  obtain ⟨⟨a, hrun, hsound, -⟩, -⟩ := cache_sound 10 (by omega) (by omega) usedRun
    ⟨some 1, some 1, AList.singleton 1 ⟨⟨6, some 7⟩, none, none⟩, 6, 6, []⟩
    (.cons ⟨⟨⟨by omega, by omega⟩, rfl⟩, by
        constructor
        · intro _ h
          cases h
        · exact fun _ => by decide⟩
      (.cons ⟨⟨⟨by omega, by omega⟩, rfl⟩, by
          constructor
          · intro _ h
            cases h
          · exact fun _ => by decide⟩
        (.cons ⟨⟨trivial, rfl⟩, trivial⟩
          (.cons ⟨⟨trivial, rfl⟩, fun _ h => by cases h; rfl⟩
            (.cons ⟨⟨show (6 : Int) < 2 ^ 31 by omega, rfl⟩, by exact Int.le_refl 6⟩
              (.nil _))))))
  exact ⟨_, a, hrun, hsound, rfl⟩

end Libpdk.Utils

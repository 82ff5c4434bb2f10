import Mathlib.Data.List.AList
import Mathlib.Data.List.Induction
import Mathlib.Tactic.Ring
import Mathlib.Tactic.Tauto

/-!
# Doubly linked lists in a map

The nodes of the list are the values of a finite map, and a link is the key of
another node. `Seg map p l n` says that the nodes of `l` are linked in this
order, with `p` before the first and `n` behind the last one. A segment falls
apart where its list does (`seg_append`), and is not touched by a change of
other nodes (`Seg.frame`).
-/
namespace Libpdk

variable {K V : Type}

structure Linked (K V : Type) where
  val : V
  prev : Option K
  next : Option K
  deriving DecidableEq

abbrev LinkMap (K V : Type) := AList fun _ : K => Linked K V

namespace Links

/-- The key of the first element, `n` if there is none. -/
def headKey (n : Option K) : List (K × V) → Option K
  | [] => n
  | e :: _ => some e.1

/-- The key of the last element, `p` if there is none. -/
def lastKey (p : Option K) : List (K × V) → Option K
  | [] => p
  | e :: l => lastKey (some e.1) l

theorem headKey_append (n : Option K) (l l' : List (K × V)) :
    headKey n (l ++ l') = headKey (headKey n l') l := by
  cases l <;> rfl

theorem lastKey_append (p : Option K) (l l' : List (K × V)) :
    lastKey p (l ++ l') = lastKey (lastKey p l) l' := by
  induction l generalizing p with
  | nil => rfl
  | cons e l ih => exact ih (some e.1)

@[simp] theorem lastKey_concat (p : Option K) (l : List (K × V)) (e : K × V) :
    lastKey p (l ++ [e]) = some e.1 := by
  rw [lastKey_append]
  rfl

/-- The keys around an element are others. -/
theorem keys_apart {xs ys : List (K × V)} {e : K × V} (h : ((xs ++ e :: ys).map Prod.fst).Nodup) :
    (xs.map Prod.fst).Nodup ∧ (ys.map Prod.fst).Nodup ∧ ((xs ++ ys).map Prod.fst).Nodup ∧
      e.1 ∉ xs.map Prod.fst ∧ e.1 ∉ ys.map Prod.fst ∧
      ∀ k ∈ xs.map Prod.fst, k ∉ ys.map Prod.fst := by
  simp only [List.map_append, List.map_cons, List.nodup_append, List.nodup_cons,
    List.mem_cons] at h ⊢
  obtain ⟨hx, ⟨hey, hy⟩, hd⟩ := h
  exact ⟨hx, hy, ⟨hx, hy, fun a ha b hb => hd a ha b (.inr hb)⟩,
    fun he => hd e.1 he e.1 (.inl rfl) rfl, hey, fun a ha hb => hd a ha a (.inr hb) rfl⟩

theorem lastKey_ne {xs ys : List (K × V)} {e : K × V} (h : ((xs ++ e :: ys).map Prod.fst).Nodup) (hys : ys ≠ []) :
    lastKey none (xs ++ e :: ys) ≠ some e.1 ∧
      lastKey none (xs ++ e :: ys) = lastKey none (xs ++ ys) := by
  obtain ⟨zs, z, rfl⟩ : ∃ zs z, ys = zs ++ [z] := ⟨_, _, (List.dropLast_concat_getLast hys).symm⟩
  have hsplit : xs ++ e :: (zs ++ [z]) = (xs ++ e :: zs) ++ [z] := by simp
  have hsplit' : xs ++ (zs ++ [z]) = (xs ++ zs) ++ [z] := by simp
  rw [hsplit, hsplit', lastKey_concat, lastKey_concat]
  refine ⟨fun hz => ?_, rfl⟩
  obtain ⟨-, -, -, -, hey, -⟩ := keys_apart h
  exact hey (by rw [← Option.some.inj hz]; simp)

variable [DecidableEq K]

/-- `*link = v` for the `next` field of the node that `link` leads to, if it is not
null; `none` is a link that leads nowhere. -/
def setNext (map : LinkMap K V) (link v : Option K) : Option (LinkMap K V) :=
  match link with
  | none => some map
  | some k => (map.lookup k).map fun node => map.insert k { node with next := v }

def setPrev (map : LinkMap K V) (link v : Option K) : Option (LinkMap K V) :=
  match link with
  | none => some map
  | some k => (map.lookup k).map fun node => map.insert k { node with prev := v }

def Seg (map : LinkMap K V) : Option K → List (K × V) → Option K → Prop
  | _, [], _ => True
  | p, e :: l, n => map.lookup e.1 = some ⟨e.2, p, headKey n l⟩ ∧ Seg map (some e.1) l n

variable {map map' : LinkMap K V} {p n : Option K} {l l' : List (K × V)}

theorem seg_append :
    Seg map p (l ++ l') n ↔ Seg map p l (headKey n l') ∧ Seg map (lastKey p l) l' n := by
  induction l generalizing p with
  | nil => simp [Seg, lastKey]
  | cons e l ih => simp only [List.cons_append, Seg, headKey_append, ih, lastKey, and_assoc]

/-- Only the nodes of the segment matter. -/
theorem Seg.frame (h : Seg map p l n)
    (hm : ∀ k ∈ l.map Prod.fst, map'.lookup k = map.lookup k) : Seg map' p l n := by
  induction l generalizing p with
  | nil => trivial
  | cons e l ih =>
    obtain ⟨he, hl⟩ := h
    refine ⟨?_, ih hl fun k hk => hm k (by simp [hk])⟩
    rw [hm e.1 (by simp), he]

theorem Seg.lookup {l₁ l₂ : List (K × V)} {e : K × V} (h : Seg map p (l₁ ++ e :: l₂) n) :
    map.lookup e.1 = some ⟨e.2, lastKey p l₁, headKey n l₂⟩ := (seg_append.mp h).2.1

/-- What the last link of a list leads to, when the list is nothing or has it. -/
theorem setNext_lastKey (h : Seg map none l n) (hd : (l.map Prod.fst).Nodup) (v : Option K) :
    ∃ map', setNext map (lastKey none l) v = some map' ∧ Seg map' none l v ∧
      (∀ k, k ∈ map' ↔ k ∈ map) ∧ ∀ k, k ∉ l.map Prod.fst → map'.lookup k = map.lookup k := by
  induction l using List.reverseRecOn with
  | nil => exact ⟨map, rfl, trivial, fun _ => Iff.rfl, fun _ _ => rfl⟩
  | append_singleton l e =>
    have he := h.lookup
    refine ⟨map.insert e.1 ⟨e.2, lastKey none l, v⟩, ?_, ?_, fun k => ?_, fun k hk => ?_⟩
    · rw [lastKey_concat, setNext, he, Option.map_some]
    · rw [List.map_append, List.nodup_append] at hd
      refine seg_append.mpr ⟨(seg_append.mp h).1.frame fun k hk => ?_, ?_, trivial⟩
      · exact AList.lookup_insert_ne fun hke => hd.2.2 k hk e.1 (by simp) hke
      · exact AList.lookup_insert _
    · rw [AList.mem_insert]
      refine ⟨fun hk => ?_, .inr⟩
      rcases hk with rfl | hk
      · exact AList.lookup_isSome.mp (by rw [he]; rfl)
      · exact hk
    · exact AList.lookup_insert_ne fun hke => hk (by simp [hke])

/-- What the first link of a list leads to, when the list is nothing or has it. -/
theorem setPrev_headKey (h : Seg map p l none) (hd : (l.map Prod.fst).Nodup) (v : Option K) :
    ∃ map', setPrev map (headKey none l) v = some map' ∧ Seg map' v l none ∧
      (∀ k, k ∈ map' ↔ k ∈ map) ∧ ∀ k, k ∉ l.map Prod.fst → map'.lookup k = map.lookup k := by
  cases l with
  | nil => exact ⟨map, rfl, trivial, fun _ => Iff.rfl, fun _ _ => rfl⟩
  | cons e l =>
    obtain ⟨he, hl⟩ := h
    rw [List.map_cons, List.nodup_cons] at hd
    refine ⟨map.insert e.1 ⟨e.2, v, headKey none l⟩, ?_, ⟨?_, ?_⟩, fun k => ?_, fun k hk => ?_⟩
    · rw [headKey, setPrev, he, Option.map_some]
    · exact AList.lookup_insert _
    · exact hl.frame fun k hk => AList.lookup_insert_ne fun hke => hd.1 (hke ▸ hk)
    · rw [AList.mem_insert]
      refine ⟨fun hk => ?_, .inr⟩
      rcases hk with rfl | hk
      · exact AList.lookup_isSome.mp (by rw [he]; rfl)
      · exact hk
    · exact AList.lookup_insert_ne fun hke => hk (by simp [hke])

end Links

end Libpdk

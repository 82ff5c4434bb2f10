import Libpdk.Json.Content

/-!
# Handles

A `JsonArray` or a `JsonObject` is a reference to a block and the address of a
base in it; one that has just been made has neither. `detach` gives the handle a
block of its own with room for what is to come, `compactIfDue` is what ends every
operation that leaves garbage.

`shared` is `m_ref.load() != 1`: whether another handle or value refers to the
block. It is an input of each operation, so what is proved holds for every use
that other parts of a program make of the block.
-/
namespace Libpdk.Json

section

open Libpdk.Mem

/-- `m_data` and `m_array` or `m_object`. -/
abbrev Handle := Option (Data × Nat)

/-- `none` is a document that is too large.
mirrors utils/json/JsonArray.cpp:321-347 and JsonObject.cpp:413-439 -/
def detach (fill : Nat → UInt8) (obj shared : Bool) (h : Handle) (reserve : Nat) : Option Handle :=
  match h with
  | none => if maxSize ≤ reserve then some none else some (some (newData fill reserve obj, root))
  | some (d, p) =>
    if reserve = 0 ∧ !shared then some (some (d, p))
    else do
      let x ← clone fill d p (!shared) reserve
      some (x.map fun x => (x, root))

/-- `++m_compactionCounter` and what follows it. The operation has detached the
handle, so the `detach` of `compact` finds no other reference.
mirrors utils/json/JsonArray.cpp:199-202 and 349-357 -/
def compactIfDue (fill : Nat → UInt8) (d : Data) (p : Nat) : Option Handle := do
  let len ← baseLength d.raw p
  if 32 < d.compactionCounter ∧ len / 2 ≤ d.compactionCounter then
    let x ← compact fill d
    some (some (x, root))
  else some (some (d, p))

/-- An empty table moves back to the header. -/
def resetTable (m : Bytes) (p : Nat) : Option Bytes := do
  let len ← baseLength m p
  if len = 0 then setTableOffset m p 12 else some m

variable {E : Type} {R : Holding E} {obj : Bool} {h : Handle} {size : Nat} {es : List (E × Nat)}

/-- What a handle refers to: the base at the root of its block. -/
def Refers (R : Holding E) (obj : Bool) (h : Handle) (size : Nat) (es : List (E × Nat)) : Prop :=
  match h with
  | none => size = 12 ∧ es = []
  | some (d, p) => p = root ∧ Content R d.raw header obj size es

/-- Neither the size that the base gets nor that of the new block reaches the limit.
A block is made with at least 128 bytes in reserve. -/
def Fits (size reserve : Nat) : Prop := 8 + size + max reserve 128 ≤ maxSize

instance {reserve : Nat} : Decidable (Fits size reserve) := inferInstanceAs (Decidable (_ ≤ _))

/-- `detach` changes nothing but the room that there is. -/
theorem detach_spec (fill : Nat → UInt8) (shared : Bool) (reserve : Nat)
    (hr : Refers R obj h size es) :
    ∃ x, detach fill obj shared h reserve = some x ∧ (reserve = 0 → h.isSome → x.isSome) ∧
      (Fits size reserve → x.isSome) ∧
      ∀ d p, x = some (d, p) → p = root ∧ Content R d.raw header obj size es ∧
        root + size + reserve ≤ d.raw.length := by
  have hM : maxSize = 0x7FFFFFF := rfl
  cases h with
  | none =>
    obtain ⟨rfl, rfl⟩ := hr
    unfold detach
    simp only
    split
    · next hle =>
      refine ⟨none, rfl, fun _ hn => hn, fun hf => ?_, fun _ _ hx => by cases hx⟩
      unfold Fits at hf
      omega
    · refine ⟨_, rfl, fun _ _ => rfl, fun _ => rfl, fun d p hx => ?_⟩
      cases hx
      refine ⟨rfl, .empty fill reserve, ?_⟩
      simp only [newData, malloc, List.length_append, length_header, length_toLe, List.length_map,
        List.length_range]
      omega
  | some b =>
    obtain ⟨d, p⟩ := b
    obtain ⟨rfl, hc⟩ := hr
    obtain ⟨t, -, -, -, hin⟩ := hc.bounds
    rw [length_header] at hin
    unfold detach
    simp only
    split
    · next hstay =>
      refine ⟨_, rfl, fun _ _ => rfl, fun _ => rfl, fun d p hx => ?_⟩
      cases hx
      exact ⟨rfl, hc, by omega⟩
    · have hsize := hc.baseSize
      obtain ⟨bytes, hp, hlen, hcopy⟩ := hc.copy
      rw [length_header] at hsize hp
      rw [clone_eq hsize hp, Option.bind_eq_bind, Option.bind_some]
      refine ⟨_, rfl, ?_, ?_, ?_⟩
      · intro h0 _
        split
        · rfl
        · rw [if_neg (by omega)]
          rfl
      · intro hf
        unfold Fits at hf
        have hclone : cloneSize (8 + size) reserve ≤ maxSize := by
          unfold cloneSize
          split <;> omega
        split
        · rfl
        · rw [if_neg (by omega)]
          rfl
      · intro d' p' hx
        split at hx
        · next hstay =>
          cases hx
          exact ⟨rfl, hc, by have := hstay.2.2; unfold root; omega⟩
        · split at hx
          · cases hx
          · cases hx
            refine ⟨rfl, hcopy _ _, ?_⟩
            simp only [List.length_append, length_header, hlen, malloc, List.length_map,
              List.length_range]
            have hclone : 8 + size + reserve ≤ cloneSize (8 + size) reserve := by
              unfold cloneSize
              split <;> omega
            unfold root
            omega

/-- The size after `compactIfDue`, of a base that has had some size. -/
def settledSize (counter size : Nat) (es : List (E × Nat)) : Nat :=
  if 32 < counter ∧ es.length / 2 ≤ counter then 12 + (es.map Prod.snd).sum + 4 * es.length else size

/-- The counter of the block after `detach`: a copy begins with 0. -/
def keptCounter (shared : Bool) (h : Handle) (reserve : Nat) : Option Nat :=
  match h with
  | none => some 0
  | some (d, p) => do
    let size ← baseSize d.raw p
    some (if p = root ∧ !shared ∧ 8 + size + reserve ≤ d.raw.length then d.compactionCounter else 0)

theorem detach_counter (fill : Nat → UInt8) (shared : Bool) (reserve : Nat)
    (hr : Refers R obj h size es) {d : Data} {p : Nat}
    (hx : detach fill obj shared h reserve = some (some (d, p))) :
    keptCounter shared h reserve = some d.compactionCounter := by
  cases h with
  | none =>
    unfold detach at hx
    simp only at hx
    split at hx
    · cases hx
    · cases hx
      rfl
  | some b =>
    obtain ⟨d', p'⟩ := b
    obtain ⟨rfl, hc⟩ := hr
    obtain ⟨-, -, -, -, hin⟩ := hc.bounds
    obtain ⟨bytes, hp, -, -⟩ := hc.copy
    have hsize := hc.baseSize
    rw [length_header] at hsize hin hp
    have hroot : root = 8 := rfl
    unfold detach at hx
    simp only at hx
    rw [keptCounter, hsize, Option.bind_eq_bind, Option.bind_some]
    split at hx
    · next hstay =>
      cases hx
      rw [if_pos ⟨rfl, hstay.2, by omega⟩]
    · rw [clone_eq hsize hp, Option.bind_eq_bind, Option.bind_some] at hx
      by_cases hstay : root = root ∧ (!shared) = true ∧ 8 + size + reserve ≤ d'.raw.length
      · rw [if_pos hstay] at hx
        cases hx
        rw [if_pos hstay]
      · rw [if_neg hstay] at hx
        rw [if_neg hstay]
        split at hx
        · cases hx
        · cases hx
          rfl

/-- Compaction changes nothing but the storage that the base takes. -/
theorem compactIfDue_spec (fill : Nat → UInt8) (hR : Movable obj R) {d : Data}
    (hc : Content R d.raw header obj size es) :
    ∃ x, compactIfDue fill d root = some (some (x, root)) ∧
      Content R x.raw header obj (settledSize d.compactionCounter size es) es := by
  have hlen := hc.baseLength
  rw [length_header] at hlen
  unfold compactIfDue settledSize
  rw [hlen, Option.bind_eq_bind, Option.bind_some]
  by_cases hdue : 32 < d.compactionCounter ∧ es.length / 2 ≤ d.compactionCounter
  · obtain ⟨new, r, size', hr, hsize', -, -, -, heq, -, -, hnew⟩ :=
      hc.compact_eq fill (c := d.compactionCounter) (by omega) hR
    refine ⟨⟨new, 0⟩, ?_, ?_⟩
    · rw [if_pos hdue, heq]
      rfl
    · rw [if_pos hdue, ← hr, ← hsize']
      exact hnew
  · exact ⟨d, if_neg hdue, by rw [if_neg hdue]; exact hc⟩

theorem resetTable_spec {m : Bytes} (hc : Content R m header obj size es) :
    ∃ m', resetTable m root = some m' ∧ m'.length = m.length ∧ Content R m' header obj size es := by
  have hlen := hc.baseLength
  rw [length_header] at hlen
  unfold resetTable
  rw [hlen, Option.bind_eq_bind, Option.bind_some]
  split
  · next h0 =>
    obtain ⟨body, words, rest, hb, hes, -⟩ := hc
    have hnil := List.length_eq_zero_iff.mp h0
    subst hnil
    cases hes
    obtain ⟨m', hset, hm', hb'⟩ := hb.resetTable
    rw [length_header] at hset
    exact ⟨m', hset, hm', [], [], _, hb', .nil, Nat.le_refl 0⟩
  · exact ⟨m, rfl, rfl, hc⟩

end

/-!
## What a block is made of

An account says how much storage each element of a base uses and how many bytes are left of
elements that are gone. The operations of arrays and objects change it alike: an element that is
overwritten leaves its storage behind, one that is taken out its table word as well, and a
compaction clears all of it. `Booked` is that a handle has an account.
-/

/-- The storage of each element, and the bytes that belong to none. -/
structure Account where
  sizes : List Nat
  garbage : Nat
  deriving DecidableEq

namespace Account

def empty : Account := ⟨[], 0⟩

/-- The size of the base. -/
def total (x : Account) : Nat := 12 + x.sizes.sum + 4 * x.sizes.length + x.garbage

def insert (x : Account) (i n : Nat) : Account := { x with sizes := x.sizes.insertIdx i n }

def replace (x : Account) (i n : Nat) : Account :=
  { sizes := x.sizes.set i n, garbage := x.garbage + x.sizes.getD i 0 }

def remove (x : Account) (i : Nat) : Account :=
  { sizes := x.sizes.eraseIdx i, garbage := x.garbage + (x.sizes.getD i 0 + 4) }

/-- After an operation that leaves the block with some counter. -/
def settle (x : Account) (counter : Nat) : Account :=
  if 32 < counter ∧ x.sizes.length / 2 ≤ counter then { x with garbage := 0 } else x

/-! ## Splits -/

variable {x : Account} {ns₁ ns₂ : List Nat} {n n' : Nat}

theorem insertIdx_append {α : Type} (l₁ l₂ : List α) (a : α) :
    (l₁ ++ l₂).insertIdx l₁.length a = l₁ ++ a :: l₂ := by
  induction l₁ with
  | nil => rfl
  | cons b l₁ ih =>
    rw [List.cons_append, List.length_cons, List.insertIdx_succ_cons, ih, List.cons_append]

theorem settle_sizes (x : Account) (counter : Nat) : (x.settle counter).sizes = x.sizes := by
  rw [settle]
  split <;> rfl

end Account

section

variable {E : Type} {R : Holding E} {obj : Bool} {h : Handle} {x : Account} {es : List (E × Nat)}

theorem settledSize_eq (hes : es.map Prod.snd = x.sizes) (counter : Nat) :
    settledSize counter x.total es = (x.settle counter).total := by
  have hlen : es.length = x.sizes.length := by rw [← hes, List.length_map]
  rw [settledSize, Account.settle, hes, hlen]
  split <;> rfl

/-- The account of what a handle refers to. -/
def Booked (R : Holding E) (obj : Bool) (h : Handle) (x : Account) : Prop :=
  ∃ es, Refers R obj h x.total es ∧ es.map Prod.snd = x.sizes

theorem Booked.settled {counter : Nat} (hes : es.map Prod.snd = x.sizes)
    (h' : Refers R obj h (settledSize counter x.total es) es) :
    Booked R obj h (x.settle counter) := by
  rw [settledSize_eq hes] at h'
  exact ⟨es, h', by rw [Account.settle_sizes, hes]⟩

end

end Libpdk.Json

import Mathlib.Tactic.Ring

/-!
# Tokens of a list

A token is recognised by what a list begins with. It begins with an element at which no other
token is going on, so that the tokens of a list do not overlap, and a list is rewritten by what
its tokens stand for (`rewrite`).
-/
namespace Libpdk

/-- How tokens are recognised, and how many elements each takes up. -/
structure Tokens (α β : Type) where
  read : List α → Option β
  size : β → Nat
  /-- The elements that tokens begin with. -/
  start : α → Prop
  begins : ∀ {c s m}, read (c :: s) = some m → start c
  room : ∀ {s m}, read s = some m → 0 < size m ∧ size m ≤ s.length
  apart : ∀ {c s m}, read (c :: s) = some m → ∀ x ∈ s.take (size m - 1), ¬start x

namespace Tokens

variable {α β : Type}

section

variable (T : Tokens α β)

/-- The tokens of a list in their order. -/
def all : List α → List β
  | [] => []
  | c :: s => (T.read (c :: s)).toList ++ all s

/-- A token that has a text is replaced by it, whatever else is copied. The first `skip` elements
belong to a token. -/
def rewriteFrom (text : β → Option (List α)) : Nat → List α → List α
  | _, [] => []
  | skip + 1, _ :: s => rewriteFrom text skip s
  | 0, c :: s =>
    match (T.read (c :: s)).bind fun m => (text m).map (·, T.size m) with
    | some (replacement, size) => replacement ++ rewriteFrom text (size - 1) s
    | none => c :: rewriteFrom text 0 s

def rewrite (text : β → Option (List α)) (s : List α) : List α := T.rewriteFrom text 0 s

end

variable {T : Tokens α β} {text : β → Option (List α)}

theorem rewriteFrom_drop (skip : Nat) (s : List α) :
    T.rewriteFrom text skip s = T.rewrite text (s.drop skip) := by
  induction skip generalizing s with
  | zero => rfl
  | succ skip ih =>
    cases s with
    | nil => rfl
    | cons c s => exact ih s

@[simp] theorem all_nil : T.all [] = [] := rfl

@[simp] theorem rewrite_nil : T.rewrite text [] = [] := rfl

theorem all_none {c : α} {s : List α} (hnone : T.read (c :: s) = none) :
    T.all (c :: s) = T.all s := by
  rw [all, hnone]
  rfl

theorem rewrite_copy {c : α} {s : List α} (hcopy : ∀ m, T.read (c :: s) = some m → text m = none) :
    T.rewrite text (c :: s) = c :: T.rewrite text s := by
  have hnone : ((T.read (c :: s)).bind fun m => (text m).map (·, T.size m)) = none := by
    cases hread : T.read (c :: s) with
    | none => rfl
    | some m => rw [Option.bind_some, hcopy m hread, Option.map_none]
  rw [rewrite, rewriteFrom, hnone]
  rfl

theorem read_none {c : α} (hc : ¬T.start c) (s : List α) : T.read (c :: s) = none := by
  cases hread : T.read (c :: s) with
  | none => rfl
  | some m => exact absurd (T.begins hread) hc

/-- Elements that begin no token have none. -/
theorem all_append {front : List α} (hfront : ∀ x ∈ front, ¬T.start x) (s : List α) :
    T.all (front ++ s) = T.all s := by
  induction front with
  | nil => rfl
  | cons c front ih =>
    rw [List.cons_append, all_none (read_none (hfront c (List.mem_cons_self ..)) _)]
    exact ih fun x hx => hfront x (List.mem_cons_of_mem _ hx)

theorem rewrite_append {front : List α} (hfront : ∀ x ∈ front, ¬T.start x) (s : List α) :
    T.rewrite text (front ++ s) = front ++ T.rewrite text s := by
  induction front with
  | nil => rfl
  | cons c front ih =>
    have hnone := T.read_none (hfront c (List.mem_cons_self ..)) (front ++ s)
    rw [List.cons_append, rewrite_copy (by rw [hnone]; nofun), List.cons_append,
      ih fun x hx => hfront x (List.mem_cons_of_mem _ hx)]

/-- What follows the first element of a token up to its end. -/
theorem drop_token {c : α} {s : List α} {m : β} (hread : T.read (c :: s) = some m) :
    s = s.take (T.size m - 1) ++ (c :: s).drop (T.size m) := by
  obtain ⟨n, hn⟩ : ∃ n, T.size m = n + 1 := ⟨T.size m - 1, by have := (T.room hread).1; omega⟩
  rw [hn, List.drop_succ_cons, Nat.add_sub_cancel, List.take_append_drop]

theorem all_token {c : α} {s : List α} {m : β} (hread : T.read (c :: s) = some m) :
    T.all (c :: s) = m :: T.all ((c :: s).drop (T.size m)) := by
  have hrest : T.all s = T.all ((c :: s).drop (T.size m)) := by
    rw [drop_token hread, all_append (T.apart hread), ← drop_token hread]
  rw [all, hread, hrest]
  rfl

theorem rewrite_token {c : α} {s : List α} {m : β} {replacement : List α}
    (hread : T.read (c :: s) = some m) (htext : text m = some replacement) :
    T.rewrite text (c :: s) = replacement ++ T.rewrite text ((c :: s).drop (T.size m)) := by
  obtain ⟨n, hn⟩ : ∃ n, T.size m = n + 1 := ⟨T.size m - 1, by have := (T.room hread).1; omega⟩
  rw [rewrite, rewriteFrom, hread, Option.bind_some, htext, Option.map_some]
  simp only [rewriteFrom_drop, hn, List.drop_succ_cons, Nat.add_sub_cancel]

/-- A token without a text stays, and so does what is in it. -/
theorem rewrite_kept {c : α} {s : List α} {m : β} (hread : T.read (c :: s) = some m)
    (htext : text m = none) :
    T.rewrite text (c :: s) =
      (c :: s).take (T.size m) ++ T.rewrite text ((c :: s).drop (T.size m)) := by
  obtain ⟨n, hn⟩ : ∃ n, T.size m = n + 1 := ⟨T.size m - 1, by have := (T.room hread).1; omega⟩
  have hcopy : ∀ m', T.read (c :: s) = some m' → text m' = none := by
    intro m' hread'
    rw [hread, Option.some.injEq] at hread'
    rw [← hread', htext]
  have hrest : T.rewrite text (s.take (T.size m - 1) ++ (c :: s).drop (T.size m)) = _ :=
    rewrite_append (T.apart hread) _
  rw [← drop_token hread] at hrest
  rw [rewrite_copy hcopy, hrest, hn, List.take_succ_cons, Nat.add_sub_cancel, List.cons_append]

/-! ## How long the rewritten list is -/

section

variable (T)

/-- Lists as their tokens and the elements between them. -/
theorem induct {P : List α → Prop} (nil : P [])
    (copy : ∀ c s, T.read (c :: s) = none → P s → P (c :: s))
    (token : ∀ c s m, T.read (c :: s) = some m → P ((c :: s).drop (T.size m)) → P (c :: s))
    (s : List α) : P s := by
  induction hn : s.length using Nat.strongRecOn generalizing s with
  | ind n ih =>
    subst hn
    cases s with
    | nil => exact nil
    | cons c s =>
      cases hread : T.read (c :: s) with
      | none => exact copy c s hread (ih s.length (by simp) s rfl)
      | some m =>
        have hroom := T.room hread
        exact token c s m hread (ih _ (by rw [List.length_drop]; omega) _ rfl)

/-- How many elements of a token are replaced. -/
def taken (text : β → Option (List α)) (m : β) : Nat := if (text m).isSome then T.size m else 0

end

/-- Where no token has a text the list stays. -/
theorem rewrite_self {s : List α} (hall : ∀ m ∈ T.all s, text m = none) :
    T.rewrite text s = s := by
  induction s using T.induct with
  | nil => rfl
  | copy c s hread ih =>
    rw [all_none hread] at hall
    rw [rewrite_copy (by rw [hread]; nofun), ih hall]
  | token c s m hread ih =>
    rw [all_token hread] at hall
    rw [rewrite_kept hread (hall m (List.mem_cons_self ..)),
      ih fun m' hm' => hall m' (List.mem_cons_of_mem _ hm'), List.take_append_drop]

/-- How many elements replace them. -/
def given (text : β → Option (List α)) (m : β) : Nat := ((text m).getD []).length

end Tokens

end Libpdk

import Libpdk.Core.Occurrence
import Mathlib.Data.List.Induction

/-!
# A hash of a window

A word that is doubled for each element of a window. A window that moves on by one takes its
first element off with the weight that it has then; in a window longer than the word is wide the
weight is zero, as the element was shifted out. So a search may compare only the windows that have
the hash it looks for (`slide_first`); one that goes backwards hashes the reversed windows
(`slideBack_last`).
-/
namespace Libpdk.RollingHash

variable {w : Nat}

def push (hash x : BitVec w) : BitVec w := (hash <<< 1) + x

def hash (window : List (BitVec w)) : BitVec w := window.foldl push 0

theorem push_shift (a b : BitVec w) : (a + b) <<< 1 = (a <<< 1) + (b <<< 1) := by
  rw [BitVec.shiftLeft_eq_mul_twoPow, BitVec.shiftLeft_eq_mul_twoPow,
    BitVec.shiftLeft_eq_mul_twoPow, BitVec.add_mul]

theorem hash_append (window : List (BitVec w)) (x : BitVec w) :
    hash (window ++ [x]) = (hash window <<< 1) + x := by
  rw [hash, List.foldl_append]
  rfl

theorem foldl_push (window : List (BitVec w)) (h : BitVec w) :
    window.foldl push h = (h <<< window.length) + hash window := by
  induction window using List.reverseRecOn with
  | nil => simp [hash]
  | append_singleton window x ih =>
    rw [List.foldl_append, ih, hash_append, List.length_append, List.length_singleton,
      BitVec.shiftLeft_add, ← BitVec.add_assoc, ← push_shift]
    rfl

/-- What the first element adds. -/
theorem hash_cons (x : BitVec w) (window : List (BitVec w)) :
    hash (x :: window) = (x <<< window.length) + hash window := by
  rw [hash, List.foldl_cons, foldl_push]
  congr 2
  simp [push]

/-- The first of `n + 1` elements taken off, where it was not shifted out before. -/
def pop (hash x : BitVec w) (n : Nat) : BitVec w :=
  (if n < w then hash - (x <<< n) else hash) <<< 1

theorem pop_hash (x : BitVec w) (window : List (BitVec w)) :
    pop (hash (x :: window)) x window.length = hash window <<< 1 := by
  rw [pop, hash_cons]
  by_cases hw : window.length < w
  · rw [if_pos hw, BitVec.add_comm, BitVec.add_sub_cancel]
  · have hgone : x <<< window.length = 0#w := BitVec.shiftLeft_eq_zero (by omega)
    rw [if_neg hw, hgone, BitVec.zero_add]

/-- The window moves on to `y`. -/
theorem pop_push (x : BitVec w) (window : List (BitVec w)) (y : BitVec w) :
    pop (hash (x :: window)) x window.length + y = hash (window ++ [y]) := by
  rw [pop_hash, hash_append]

/-! ## The search -/

/-- The `size` elements at `i`. -/
def window (words : List (BitVec w)) (i size : Nat) : List (BitVec w) := (words.drop i).take size

theorem window_cons {words : List (BitVec w)} {i size : Nat} {x : BitVec w}
    (h : words[i]? = some x) : window words i (size + 1) = x :: window words (i + 1) size := by
  obtain ⟨hi, hx⟩ := List.getElem?_eq_some_iff.mp h
  rw [window, window, List.drop_eq_getElem_cons hi, hx, List.take_succ_cons]

theorem window_append {words : List (BitVec w)} {i size : Nat} {x : BitVec w}
    (h : words[i + size]? = some x) : window words i (size + 1) = window words i size ++ [x] := by
  rw [window, window, List.take_add_one, List.getElem?_drop, h, Option.toList_some]

theorem length_window {words : List (BitVec w)} {i size : Nat} (h : i + size ≤ words.length) :
    (window words i size).length = size := by
  rw [window, List.length_take, List.length_drop]
  omega

/-- The hash of `count` elements from `i` on, in front of which there is one. -/
def hashFrom (words : List (BitVec w)) : Nat → Int → BitVec w → Option (BitVec w)
  | 0, _, hash => some hash
  | count + 1, i, hash => do
    let x ← elementAt words i
    hashFrom words count (i + 1) ((hash <<< 1) + x)

theorem hashFrom_eq (words : List (BitVec w)) : ∀ (count i : Nat) (hash : BitVec w),
    i + count ≤ words.length →
    hashFrom words count i hash = some ((window words i count).foldl push hash)
  | 0, i, hash, _ => by
    rw [window, List.take_zero]
    rfl
  | count + 1, i, hash, h => by
    obtain ⟨x, hx⟩ := getElem?_isSome (s := words) (i := i) (by omega)
    have hnext : (i : Int) + 1 = (i + 1 : Nat) := by omega
    rw [hashFrom, elementAt_nat, hx, window_cons hx, List.foldl_cons, Option.bind_eq_bind,
      Option.bind_some, hnext]
    exact hashFrom_eq words count (i + 1) _ (by omega)

/-- The windows from `i` on; `hash` lacks the last element of its window in front of each round. -/
def slide (words : List (BitVec w)) (size : Nat) (found : BitVec w → Int → Option Bool) :
    Nat → Int → BitVec w → Option Int
  | 0, _, _ => some (-1)
  | count + 1, i, hash => do
    let last ← elementAt words (i + (size - 1))
    let hit ← found (hash + last) i
    if hit then some i
    else do
      let first ← elementAt words i
      slide words size found count (i + 1) (pop (hash + last) first (size - 1))

/-- The first window that is found. -/
theorem slide_first (words : List (BitVec w)) (size : Nat) (found : BitVec w → Int → Option Bool)
    {P : Nat → Prop} (hsize : 0 < size) (hin : ∀ i, P i → i + size ≤ words.length)
    (hfound : ∀ i : Nat, i + size ≤ words.length →
      ∃ hit, found (hash (window words i size)) i = some hit ∧ (hit = true ↔ P i)) :
    ∀ (count i : Nat) (h : BitVec w), i + count = words.length - size + 1 →
      size ≤ words.length →
      (0 < count → ∃ last, words[i + (size - 1)]? = some last ∧
        h + last = hash (window words i size)) →
      ∃ r, slide words size found count i h = some r ∧ FirstFrom P i r
  | 0, i, h, hcount, hle, _ => by
    refine ⟨-1, rfl, .none fun j hj hat => ?_⟩
    have hj' := hin j hat
    omega
  | count + 1, i, h, hcount, hle, hinv => by
    obtain ⟨last, hlast, hhash⟩ := hinv (Nat.succ_pos _)
    have hplace : (i : Int) + (size - 1) = (i + (size - 1) : Nat) := by omega
    obtain ⟨hit, hhit, hiff⟩ := hfound i (by omega)
    simp only [slide, hplace, elementAt_nat, hlast, Option.bind_eq_bind, Option.bind_some, hhash,
      hhit]
    by_cases htrue : hit = true
    · rw [if_pos htrue]
      exact ⟨i, rfl, .here (hiff.mp htrue)⟩
    · obtain ⟨first, hfirst⟩ := getElem?_isSome (s := words) (i := i) (by omega)
      obtain ⟨n, hn⟩ : ∃ n, size = n + 1 := ⟨size - 1, by omega⟩
      have hnext : (i : Int) + 1 = (i + 1 : Nat) := by omega
      rw [if_neg htrue, hfirst, Option.bind_some, hnext]
      obtain ⟨r, hr, hrest⟩ := slide_first words size found hsize hin hfound count (i + 1)
        (pop (hash (window words i size)) first (size - 1)) (by omega) hle (by
          intro hpos
          obtain ⟨next, hnext⟩ := getElem?_isSome (s := words) (i := i + 1 + n) (by omega)
          refine ⟨next, by rw [hn]; exact hnext, ?_⟩
          have hlen : (window words (i + 1) n).length = n := length_window (by omega)
          have hslide := pop_push first (window words (i + 1) n) next
          rw [hlen] at hslide
          rw [hn, window_cons hfirst, window_append hnext]
          exact hslide)
      refine ⟨r, hr, hrest.skip (by omega) fun j hj hj' => ?_⟩
      obtain rfl : j = i := by omega
      exact fun hat => htrue (hiff.mpr hat)

/-! ## The search backwards -/

/-- The hash of the `count` elements from `i` on, the last of them first. -/
def hashBack (words : List (BitVec w)) (i : Int) : Nat → BitVec w → Option (BitVec w)
  | 0, hash => some hash
  | count + 1, hash => do
    let x ← elementAt words (i + count)
    hashBack words i count ((hash <<< 1) + x)

theorem hashBack_eq (words : List (BitVec w)) (i : Nat) : ∀ (count : Nat) (hash : BitVec w),
    i + count ≤ words.length →
    hashBack words i count hash = some ((window words i count).reverse.foldl push hash)
  | 0, hash, _ => by
    rw [window, List.take_zero]
    rfl
  | count + 1, hash, h => by
    obtain ⟨x, hx⟩ := getElem?_isSome (s := words) (i := i + count) (by omega)
    have hplace : (i : Int) + count = (i + count : Nat) := by omega
    rw [hashBack, hplace, elementAt_nat, hx, window_append hx, List.reverse_append,
      List.reverse_singleton, List.singleton_append, List.foldl_cons]
    exact hashBack_eq words i count _ (by omega)

/-- In front of the first element there is nothing to hash. -/
theorem hashBack_neg {words : List (BitVec w)} {i : Int} (hi : i < 0) : ∀ (count : Nat)
    (hash : BitVec w), hashBack words i (count + 1) hash = none
  | 0, hash => by
    have hzero : i + ((0 : Nat) : Int) = i := Int.add_zero i
    rw [hashBack, hzero, elementAt_neg hi]
    rfl
  | count + 1, hash => by
    rw [hashBack]
    cases elementAt words (i + (count + 1 : Nat)) with
    | none => rfl
    | some x => exact hashBack_neg hi count _

theorem hashFrom_neg {words : List (BitVec w)} {i : Int} (hi : i < 0) (count : Nat)
    (hash : BitVec w) : hashFrom words (count + 1) i hash = none := by
  rw [hashFrom, elementAt_neg hi]
  rfl

/-- The windows down from the one in front of `n`; `hash` lacks the first element of its window in
front of each round. -/
def slideBack (words : List (BitVec w)) (size weight : Nat)
    (found : BitVec w → Int → Option Bool) : Nat → BitVec w → Option Int
  | 0, _ => some (-1)
  | i + 1, hash => do
    let first ← elementAt words i
    let hit ← found (hash + first) i
    if hit then some i
    else do
      let last ← elementAt words ((i : Int) - 1 + size)
      slideBack words size weight found i (pop (hash + first) last weight)

/-- The last window that is found; an empty one is found at once. -/
theorem slideBack_last (words : List (BitVec w)) (size weight : Nat)
    (found : BitVec w → Int → Option Bool) {P : Nat → Prop}
    (hweight : ∀ n, size = n + 1 → weight = n)
    (hempty : size = 0 → ∀ i, i ≤ words.length → P i)
    (hfound : ∀ i : Nat, i + size ≤ words.length →
      ∃ hit, found (hash (window words i size).reverse) i = some hit ∧ (hit = true ↔ P i)) :
    ∀ (n : Nat) (h : BitVec w),
      (∀ i, n = i + 1 → i + size ≤ words.length ∧ ∃ first, words[i]? = some first ∧
        h + first = hash (window words i size).reverse) →
      ∃ r, slideBack words size weight found n h = some r ∧ LastUpTo P ((n : Int) - 1) r
  | 0, _, _ => ⟨-1, rfl, .none fun j hj => by omega⟩
  | i + 1, h, hinv => by
    obtain ⟨hin, first, hfirst, hhash⟩ := hinv i rfl
    obtain ⟨hit, hhit, hiff⟩ := hfound i hin
    have hlast : ((i + 1 : Nat) : Int) - 1 = i := by omega
    simp only [slideBack, elementAt_nat, hfirst, Option.bind_eq_bind, Option.bind_some, hhash,
      hhit, hlast]
    by_cases htrue : hit = true
    · rw [if_pos htrue]
      exact ⟨i, rfl, .here (hiff.mp htrue)⟩
    · have hnot : ¬P i := fun hat => htrue (hiff.mpr hat)
      obtain ⟨n, hn⟩ : ∃ n, size = n + 1 :=
        Nat.exists_eq_succ_of_ne_zero fun hzero => hnot (hempty hzero i (by omega))
      obtain ⟨last, hkey⟩ := getElem?_isSome (s := words) (i := i + n) (by omega)
      have hplace : (i : Int) - 1 + size = (i + n : Nat) := by omega
      rw [if_neg htrue, hplace, elementAt_nat, hkey, Option.bind_some, hweight n hn]
      obtain ⟨r, hr, hup⟩ := slideBack_last words size weight found hweight hempty hfound i
        (pop (hash (window words i size).reverse) last n) (by
          rintro j rfl
          obtain ⟨next, hnext⟩ := getElem?_isSome (s := words) (i := j) (by omega)
          refine ⟨by omega, next, hnext, ?_⟩
          have hlen : (window words (j + 1) n).reverse.length = n := by
            rw [List.length_reverse, length_window (by omega)]
          have hslide := pop_push last (window words (j + 1) n).reverse next
          rw [hlen] at hslide
          rw [hn, window_append hkey, window_cons hnext, List.reverse_append,
            List.reverse_singleton, List.singleton_append, List.reverse_cons]
          exact hslide)
      rw [hweight n hn] at hr
      refine ⟨r, hr, hup.skip (by omega) fun j hj hj' => ?_⟩
      obtain rfl : j = i := by omega
      exact hnot

end Libpdk.RollingHash

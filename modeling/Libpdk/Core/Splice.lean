import Libpdk.Core.Occurrence
import Mathlib.Data.List.Induction

/-!
# Blocks that are spliced

A block of memory is a list; `read`, `write` and `move` fail outside of it. `splice` puts a text in
the place of `size` elements at each of some places, which follow each other (`Spaced`);
`replaceAll` puts it in the place of each occurrence of a pattern, from the left and without
overlaps.
-/
namespace Libpdk

variable {α : Type}

namespace Block

/-- `n` elements at `i`. -/
def read (u : List α) (i n : Nat) : Option (List α) :=
  if i + n ≤ u.length then some ((u.drop i).take n) else none

/-- `memcpy(u + i, xs)` -/
def write (u : List α) (i : Nat) (xs : List α) : Option (List α) :=
  if i + xs.length ≤ u.length then some (u.take i ++ xs ++ u.drop (i + xs.length)) else none

/-- `memmove(u + dst, u + src, n)` -/
def move (u : List α) (dst src n : Nat) : Option (List α) := do
  let xs ← read u src n
  write u dst xs

theorem read_eq {u : List α} {i n : Nat} (h : i + n ≤ u.length) :
    read u i n = some ((u.drop i).take n) := if_pos h

/-- What a write leaves in front of it and behind it. -/
structure Written (u u' : List α) (i : Nat) (xs : List α) : Prop where
  length : u'.length = u.length
  front : u'.take (i + xs.length) = u.take i ++ xs
  back : u'.drop (i + xs.length) = u.drop (i + xs.length)

theorem write_spec (u : List α) (i : Nat) (xs : List α) (h : i + xs.length ≤ u.length) :
    ∃ u', write u i xs = some u' ∧ Written u u' i xs := by
  have hfront : (u.take i ++ xs).length = i + xs.length := by
    rw [List.length_append, List.length_take]
    omega
  refine ⟨_, if_pos h, ⟨?_, ?_, ?_⟩⟩
  · rw [List.length_append, hfront, List.length_drop]
    omega
  · rw [← hfront, List.take_left]
  · rw [← hfront, List.drop_left]

namespace Written

variable {u u' : List α} {i : Nat} {xs : List α}

theorem take (h : Written u u' i xs) {k : Nat} (hk : k ≤ i) : u'.take k = u.take k := by
  have hshort := congrArg (List.take k) h.front
  rw [List.take_take, Nat.min_eq_left (by omega)] at hshort
  rw [hshort]
  by_cases hi : i ≤ u.length
  · rw [List.take_append_of_le_length (by rw [List.length_take]; omega), List.take_take,
      Nat.min_eq_left hk]
  · -- nothing was written
    have hback := congrArg List.length h.front
    rw [List.length_take, List.length_append, List.length_take, h.length] at hback
    have hnil : xs = [] := List.length_eq_zero_iff.mp (by omega)
    rw [hnil, List.append_nil, List.take_take, Nat.min_eq_left hk]

theorem drop (h : Written u u' i xs) {k : Nat} (hk : i + xs.length ≤ k) :
    u'.drop k = u.drop k := by
  obtain ⟨d, rfl⟩ := Nat.exists_eq_add_of_le hk
  rw [← List.drop_drop, h.back, List.drop_drop]

theorem drop_start (h : Written u u' i xs) (hi : i + xs.length ≤ u.length) :
    u'.drop i = xs ++ u.drop (i + xs.length) := by
  have hsplit := List.take_append_drop (i + xs.length) u'
  rw [h.front, h.back, List.append_assoc] at hsplit
  rw [← hsplit]
  exact List.drop_left' (by rw [List.length_take]; omega)

end Written

theorem move_spec (u : List α) (dst src n : Nat) (hsrc : src + n ≤ u.length)
    (hdst : dst + n ≤ u.length) :
    ∃ u', move u dst src n = some u' ∧ Written u u' dst ((u.drop src).take n) := by
  have hlen : ((u.drop src).take n).length = n := by
    rw [List.length_take, List.length_drop]
    omega
  obtain ⟨u', hu', hw⟩ := write_spec u dst ((u.drop src).take n) (by omega)
  exact ⟨u', by rw [move, read_eq hsrc]; exact hu', hw⟩

end Block

/-! ## Places -/

/-- Places from `i` on, with `size` elements between them and behind the last one. -/
def Spaced (length size : Nat) : Nat → List Nat → Prop
  | i, [] => i ≤ length
  | i, place :: places => i ≤ place ∧ Spaced length size (place + size) places

/-- The elements from `i` on, with `text` in the place of `size` elements at each place. -/
def splice (size : Nat) (text s : List α) : Nat → List Nat → List α
  | i, [] => s.drop i
  | i, place :: places =>
    (s.drop i).take (place - i) ++ (text ++ splice size text s (place + size) places)

/-- One place. -/
theorem splice_one (text front middle tail : List α) :
    splice middle.length text (front ++ (middle ++ tail)) 0 [front.length] =
      front ++ (text ++ tail) := by
  rw [splice, splice, List.drop_zero, Nat.sub_zero, List.take_left, List.drop_length_add_append,
    List.drop_left]

namespace Spaced

variable {length size i : Nat}

theorem le : ∀ {places : List Nat} {i : Nat}, Spaced length size i places → i ≤ length
  | [], _, h => h
  | place :: places, i, h => by
    have hrest := le h.2
    have hplace := h.1
    omega

theorem mono {j : Nat} {places : List Nat} (hij : j ≤ i) (h : Spaced length size i places) :
    Spaced length size j places := by
  cases places with
  | nil => exact Nat.le_trans hij h
  | cons place places => exact ⟨Nat.le_trans hij h.1, h.2⟩

theorem append_right : ∀ {places places' : List Nat} {i : Nat},
    Spaced length size i (places ++ places') → Spaced length size i places'
  | [], _, _, h => h
  | place :: places, _, i, h => by
    have hrest := append_right h.2
    exact hrest.mono (by have := h.1; omega)

theorem place_le : ∀ {places : List Nat} {i place : Nat}, Spaced length size i places →
    place ∈ places → i ≤ place ∧ place + size ≤ length
  | p :: places, i, place, h, hmem => by
    rcases List.mem_cons.mp hmem with rfl | hmem
    · exact ⟨h.1, h.2.le⟩
    · have hrest := place_le h.2 hmem
      have hp := h.1
      omega

theorem before : ∀ {places places' : List Nat} {i place : Nat},
    Spaced length size i (places ++ place :: places') → ∀ p ∈ places, p + size ≤ place
  | q :: places, places', i, place, h, p, hp => by
    rcases List.mem_cons.mp hp with rfl | hmem
    · have hmem : place ∈ places ++ place :: places' :=
        List.mem_append_right _ (List.mem_cons_self ..)
      exact (h.2.place_le hmem).1
    · exact before h.2 p hmem

end Spaced

section

variable {size : Nat} {text s : List α}

theorem take_add_drop (s : List α) {i j k : Nat} (hij : i ≤ j) (hjk : j ≤ k) :
    (s.drop i).take (k - i) = (s.drop i).take (j - i) ++ (s.drop j).take (k - j) := by
  have hsum : k - i = (j - i) + (k - j) := by omega
  have hplace : i + (j - i) = j := by omega
  rw [hsum, List.take_add, List.drop_drop, hplace]

/-- Up to the first place a splice is the list. -/
theorem splice_skip {i j : Nat} {places : List Nat} (hij : i ≤ j)
    (h : Spaced s.length size j places) :
    splice size text s i places = (s.drop i).take (j - i) ++ splice size text s j places := by
  cases places with
  | nil =>
    have hplace : i + (j - i) = j := by omega
    have hdrop : s.drop j = (s.drop i).drop (j - i) := by rw [List.drop_drop, hplace]
    rw [splice, splice, hdrop, List.take_append_drop]
  | cons place places =>
    rw [splice, splice, take_add_drop s hij h.1, List.append_assoc]

end

/-! ## Making room -/

namespace Block

/-- From the last place down: what is behind a place moves to the end of its room, and `text` is
written in front of it. -/
def expand (size : Nat) (text : List α) : List Nat → List α → Nat → Option (List α)
  | [], u, _ => some u
  | place :: earlier, u, moveend => do
    let start := place + earlier.length * (text.length - size)
    let u ← move u (start + text.length) (place + size) (moveend - (place + size))
    let u ← write u start text
    expand size text earlier u place

/-- From the last place down: up to `moveend` the elements are as before, behind the room that
the places in front need they are done. -/
theorem expand_splice {s after : List α} {blength : Nat} (hlong : blength ≤ after.length)
    {places' : List Nat} : ∀ {places : List Nat} {u : List α} {moveend : Nat},
      Spaced s.length blength 0 (places ++ places') → (∀ p ∈ places, p + blength ≤ moveend) →
      Spaced s.length blength moveend places' →
      u.length = s.length + (places.length + places'.length) * (after.length - blength) →
      u.take moveend = s.take moveend →
      u.drop (moveend + places.length * (after.length - blength)) =
        splice blength after s moveend places' →
      expand blength after places.reverse u moveend =
        some (splice blength after s 0 (places ++ places')) := by
  intro places
  induction places using List.reverseRecOn generalizing places' with
  | nil =>
    intro u moveend h _ hspaced hlen htake hdrop
    rw [List.length_nil, Nat.zero_mul, Nat.add_zero] at hdrop
    rw [List.reverse_nil, expand, List.nil_append, splice_skip (Nat.zero_le _) hspaced, ← hdrop,
      List.drop_zero, Nat.sub_zero, ← htake, List.take_append_drop]
  | append_singleton places index ih =>
    intro u moveend h hbefore hspaced hlen htake hdrop
    obtain ⟨d, hd⟩ : ∃ d, after.length = blength + d := Nat.exists_eq_add_of_le hlong
    have hdiff : after.length - blength = d := by omega
    rw [hdiff, List.length_append, List.length_singleton] at hlen hdrop
    have hin : index + blength ≤ moveend := hbefore index (List.mem_append_right _ (by simp))
    have hend := hspaced.le
    obtain ⟨room, hroom⟩ : ∃ room, places.length * d = room := ⟨_, rfl⟩
    obtain ⟨room', hroom'⟩ : ∃ room', places'.length * d = room' := ⟨_, rfl⟩
    have hlen' : u.length = s.length + (room + d + room') := by
      rw [hlen, Nat.add_mul, Nat.add_mul, Nat.one_mul, hroom, hroom']
    rw [Nat.add_mul, Nat.one_mul, hroom] at hdrop
    -- the units behind the place move to the end of their room
    obtain ⟨u₁, hu₁, hw₁⟩ := Block.move_spec u (index + room + after.length)
      (index + blength) (moveend - (index + blength)) (by omega) (by omega)
    have hmoved : (u.drop (index + blength)).take (moveend - (index + blength)) =
        (s.drop (index + blength)).take (moveend - (index + blength)) := by
      rw [← List.drop_take, htake, List.drop_take]
    have hsize : ((s.drop (index + blength)).take (moveend - (index + blength))).length =
        moveend - (index + blength) := by
      rw [List.length_take, List.length_drop]
      omega
    rw [hmoved] at hw₁
    have hafter : Spaced s.length blength (index + blength) places' := by
      rw [List.append_assoc] at h
      exact h.append_right.2
    have htail : u₁.drop (index + room + after.length) =
        splice blength after s (index + blength) places' := by
      have hplace : index + room + after.length + (moveend - (index + blength)) =
          moveend + (room + d) := by omega
      rw [hw₁.drop_start (by omega), hsize, hplace, hdrop, splice_skip hin hspaced]
    obtain ⟨u₂, hu₂, hw₂⟩ := Block.write_spec u₁ (index + room) after
      (by rw [hw₁.length]; omega)
    have hindex : u₂.take index = s.take index := by
      have hshort := congrArg (List.take index) htake
      rw [List.take_take, List.take_take, Nat.min_eq_left (by omega)] at hshort
      rw [hw₂.take (by omega), hw₁.take (by omega), hshort]
    have hbehind : u₂.drop (index + places.length * (after.length - blength)) =
        splice blength after s index (index :: places') := by
      rw [hdiff, hroom, hw₂.drop_start (by rw [hw₁.length]; omega), htail, splice, Nat.sub_self,
        List.take_zero, List.nil_append]
    rw [List.append_assoc, List.singleton_append] at h ⊢
    have hstep := ih h h.before ⟨Nat.le_refl index, hafter⟩ (by
      rw [hw₂.length, hw₁.length, hlen', hdiff, List.length_cons, Nat.add_mul, Nat.add_mul,
        Nat.one_mul, hroom, hroom']
      omega) hindex hbehind
    rw [List.reverse_append, List.reverse_singleton, List.singleton_append, expand,
      List.length_reverse, hdiff, hroom, hu₁, Option.bind_eq_bind, Option.bind_some, hu₂,
      Option.bind_some]
    exact hstep

end Block

/-! ## Every occurrence -/

/-- How far behind an occurrence the next one is searched. -/
def stride (before : List α) : Nat := if before = [] then 1 else before.length

theorem le_stride (before : List α) : before.length ≤ stride before := by
  rw [stride]
  split
  · next hnil => rw [hnil]; exact Nat.zero_le 1
  · exact Nat.le_refl _

section

variable [DecidableEq α]

/-- Every occurrence is replaced from the left; the first `skip` elements belong to one that was.
An empty pattern stands in front of each element and at the end. -/
@[grind =] def replaceFrom (before after : List α) : Nat → List α → List α
  | 0, [] => if before = [] then after else []
  | _ + 1, [] => []
  | skip + 1, _ :: s => replaceFrom before after skip s
  | 0, c :: s =>
    if before.isPrefixOf (c :: s) then
      if before = [] then after ++ c :: replaceFrom before after 0 s
      else after ++ replaceFrom before after (before.length - 1) s
    else c :: replaceFrom before after 0 s

def replaceAll (before after s : List α) : List α := replaceFrom before after 0 s

example : replaceAll [0, 0] [1] [0, 0, 0, 2, 0, 0] = [1, 0, 2, 1] := by decide

/-- What is left to be done at `k`; behind the end there is nothing. -/
def replaceTail (before after s : List α) (k : Nat) : List α :=
  if k ≤ s.length then replaceAll before after (s.drop k) else []

variable {before after s : List α}

theorem replaceFrom_none : ∀ {t : List α}, (∀ j, ¬OccursAt before t j) →
    replaceFrom before after 0 t = t
  | [], h => by
    have hne : before ≠ [] := by
      rintro rfl
      exact h 0 (occursAt_nil.mpr (Nat.le_refl 0))
    rw [replaceFrom, if_neg hne]
  | c :: t, h => by
    have hprefix : ¬before.isPrefixOf (c :: t) := by
      intro hp
      exact h 0 (occursAt_iff_isPrefix.mpr ⟨Nat.zero_le _, List.isPrefixOf_iff_prefix.mp hp⟩)
    rw [replaceFrom, if_neg hprefix, replaceFrom_none fun j hj => h (j + 1) (occursAt_succ.mpr hj)]

/-- In front of the first occurrence nothing changes. -/
theorem replaceFrom_first : ∀ {j : Nat} {t : List α}, j ≤ t.length →
    (∀ i < j, ¬OccursAt before t i) →
    replaceFrom before after 0 t = t.take j ++ replaceFrom before after 0 (t.drop j)
  | 0, _, _, _ => rfl
  | j + 1, c :: t, hj, h => by
    have hprefix : ¬before.isPrefixOf (c :: t) := by
      intro hp
      exact h 0 (Nat.succ_pos j)
        (occursAt_iff_isPrefix.mpr ⟨Nat.zero_le _, List.isPrefixOf_iff_prefix.mp hp⟩)
    have hrest := replaceFrom_first (Nat.le_of_succ_le_succ hj) fun i hi hat =>
      h (i + 1) (Nat.succ_lt_succ hi) (occursAt_succ.mpr hat)
    rw [replaceFrom, if_neg hprefix, hrest, List.take_succ_cons, List.drop_succ_cons,
      List.cons_append]

theorem replaceFrom_skip (hne : before ≠ []) : ∀ {n : Nat} {t : List α},
    replaceFrom before after n t = replaceFrom before after 0 (t.drop n)
  | 0, _ => rfl
  | n + 1, [] => by rw [replaceFrom, List.drop_nil, replaceFrom, if_neg hne]
  | n + 1, c :: t => by rw [replaceFrom, List.drop_succ_cons, replaceFrom_skip hne]

theorem replaceAll_nil (t : List α) : replaceAll [] after t =
    after ++ (t.take 1 ++ if 1 ≤ t.length then replaceAll [] after (t.drop 1) else []) := by
  cases t with
  | nil => simp [replaceAll, replaceFrom]
  | cons c t => simp [replaceAll, replaceFrom]

theorem replaceAll_of_isPrefix (hne : before ≠ []) {t : List α} (hp : before <+: t) :
    replaceAll before after t = after ++ replaceAll before after (t.drop before.length) := by
  cases t with
  | nil => exact absurd (List.prefix_nil.mp hp) hne
  | cons c t =>
    obtain ⟨n, hn⟩ : ∃ n, before.length = n + 1 :=
      ⟨before.length - 1, by have := List.length_pos_of_ne_nil hne; omega⟩
    rw [replaceAll, replaceFrom, if_pos (List.isPrefixOf_iff_prefix.mpr hp), if_neg hne,
      replaceFrom_skip hne, hn, replaceAll, List.drop_succ_cons, Nat.add_sub_cancel]

theorem replaceTail_none {k : Nat} (h : ∀ j, k ≤ j → ¬OccursAt before s j) :
    replaceTail before after s k = s.drop k := by
  rw [replaceTail]
  by_cases hk : k ≤ s.length
  · rw [if_pos hk, replaceAll]
    apply replaceFrom_none
    intro j hj
    rw [occursAt_iff_isPrefix, List.length_drop, List.drop_drop] at hj
    exact h (k + j) (by omega) (occursAt_iff_isPrefix.mpr ⟨by omega, hj.2⟩)
  · rw [if_neg hk, List.drop_eq_nil_of_le (by omega)]

/-- Units in front of which nothing occurs stay. -/
theorem replaceTail_blank {k j : Nat} (hkj : k ≤ j) (hj : j ≤ s.length)
    (hblank : ∀ i, k ≤ i → i < j → ¬OccursAt before s i) :
    replaceTail before after s k =
      (s.drop k).take (j - k) ++ replaceTail before after s j := by
  have hplace : k + (j - k) = j := by omega
  have hfirst : replaceFrom before after 0 (s.drop k) = _ := replaceFrom_first (j := j - k)
    (by rw [List.length_drop]; omega) (by
      intro i hi hocc
      rw [occursAt_iff_isPrefix, List.length_drop, List.drop_drop] at hocc
      exact hblank (k + i) (by omega) (by omega)
        (occursAt_iff_isPrefix.mpr ⟨by omega, hocc.2⟩))
  rw [List.drop_drop, hplace] at hfirst
  rw [replaceTail, replaceTail, if_pos (by omega), if_pos hj]
  exact hfirst

/-- An occurrence, and what is between it and the next search. -/
theorem replaceTail_here {j : Nat} (hat : OccursAt before s j) :
    replaceTail before after s j = after ++
      ((s.drop (j + before.length)).take (min (j + stride before) s.length - (j + before.length)) ++
        replaceTail before after s (j + stride before)) := by
  obtain ⟨hj, hp⟩ := occursAt_iff_isPrefix.mp hat
  rw [replaceTail, if_pos hj]
  by_cases hne : before = []
  · subst hne
    have hone : stride ([] : List α) = 1 := rfl
    rw [replaceAll_nil, hone, List.length_nil, replaceTail]
    simp only [Nat.add_zero]
    congr 2
    · by_cases hend : j + 1 ≤ s.length
      · rw [Nat.min_eq_left hend, Nat.add_sub_cancel_left]
      · rw [List.drop_eq_nil_of_le (by omega), List.take_nil, List.take_nil]
    · rw [List.length_drop, List.drop_drop]
      by_cases hend : j + 1 ≤ s.length
      · rw [if_pos (by omega), if_pos hend]
      · rw [if_neg (by omega), if_neg hend]
  · have hle := hat.le
    rw [replaceAll_of_isPrefix hne hp, stride, if_neg hne, Nat.min_eq_left hle, Nat.sub_self,
      List.take_zero, List.nil_append, replaceTail, if_pos hle, List.drop_drop]

/-- The places of the occurrences from `k` on, each searched behind the one in front of it, and
where the next one is searched. -/
inductive Greedy (before s : List α) : Nat → List Nat → Nat → Prop
  | nil {k k' : Nat} (le : k ≤ k') (within : k' ≤ max k s.length)
      (blank : ∀ i, k ≤ i → i < k' → ¬OccursAt before s i) : Greedy before s k [] k'
  | cons {k j k' : Nat} {places : List Nat} (le : k ≤ j) (holds : OccursAt before s j)
      (least : ∀ i, k ≤ i → i < j → ¬OccursAt before s i)
      (rest : Greedy before s (j + stride before) places k') : Greedy before s k (j :: places) k'

namespace Greedy

variable {k k' : Nat} {places : List Nat}

omit [DecidableEq α] in
theorem stop (k : Nat) : Greedy before s k [] k :=
  .nil (Nat.le_refl k) (Nat.le_max_left _ _) fun _ hle hlt => absurd hlt (by omega)

omit [DecidableEq α] in
/-- A search may start in front of elements at which nothing occurs. -/
theorem widen {j : Nat} (hkj : k ≤ j) (hj : j ≤ s.length)
    (hblank : ∀ i, k ≤ i → i < j → ¬OccursAt before s i) (h : Greedy before s j places k') :
    Greedy before s k places k' := by
  have hboth {e : Nat} (hleast : ∀ i, j ≤ i → i < e → ¬OccursAt before s i) :
      ∀ i, k ≤ i → i < e → ¬OccursAt before s i := by
    intro i hi hie
    by_cases hij : i < j
    · exact hblank i hi hij
    · exact hleast i (by omega) hie
  cases h with
  | nil le within blank => exact .nil (by omega) (by omega) (hboth blank)
  | cons le holds least rest => exact .cons (by omega) holds (hboth least) rest

omit [DecidableEq α] in
theorem spaced (h : Greedy before s k places k') :
    Spaced s.length before.length (min k s.length) places := by
  induction h with
  | nil le within blank => exact Nat.min_le_right _ _
  | cons le holds least rest ih =>
    have hle := holds.le
    have hstride := le_stride before
    exact ⟨by omega, ih.mono (by omega)⟩

omit [DecidableEq α] in
theorem next_le (h : Greedy before s k places k') :
    k ≤ k' ∧ k' ≤ max k (s.length + 1) ∧ (places ≠ [] → k < k' ∧ k ≤ s.length) := by
  induction h with
  | nil le within blank => exact ⟨le, by omega, fun hne => absurd rfl hne⟩
  | cons le holds least rest ih =>
    have hle := holds.le
    have hstride : 0 < stride before ∧ stride before ≤ before.length + 1 := by
      rw [stride]
      split
      · omega
      · next hne => exact ⟨List.length_pos_of_ne_nil hne, by omega⟩
    obtain ⟨hmono, hbound, -⟩ := ih
    exact ⟨by omega, by omega, fun _ => ⟨by omega, by omega⟩⟩

/-- A splice at these places is done up to where the next one is searched. -/
theorem splice (after : List α) (h : Greedy before s k places k') : ∃ done : List α,
    Libpdk.splice before.length after s (min k s.length) places = done ++ s.drop k' ∧
    replaceTail before after s k = done ++ replaceTail before after s k' ∧
    (done.length : Int) = min k' s.length - min k s.length +
      places.length * ((after.length : Int) - before.length) := by
  induction h with
  | @nil k k' le within blank =>
    by_cases hk : k ≤ s.length
    · have hplace : k + (k' - k) = k' := by omega
      refine ⟨(s.drop k).take (k' - k), ?_, replaceTail_blank le (by omega) blank, ?_⟩
      · have hdrop : s.drop k' = (s.drop k).drop (k' - k) := by rw [List.drop_drop, hplace]
        rw [Libpdk.splice, Nat.min_eq_left hk, hdrop, List.take_append_drop]
      · rw [List.length_take, List.length_drop, List.length_nil]
        push_cast
        omega
    · have hsame : k' = k := by omega
      rw [hsame]
      refine ⟨[], ?_, rfl, by simp⟩
      rw [Libpdk.splice, Nat.min_eq_right (by omega), List.drop_eq_nil_of_le (Nat.le_refl _),
        List.drop_eq_nil_of_le (by omega)]
      rfl
  | @cons k j k' places le holds least rest ih =>
    obtain ⟨done, hsplice, htail, hlen⟩ := ih
    have hle := holds.le
    have hstride := le_stride before
    have hk : min k s.length = k := by omega
    refine ⟨(s.drop k).take (j - k) ++ (after ++ ((s.drop (j + before.length)).take
      (min (j + stride before) s.length - (j + before.length)) ++ done)), ?_, ?_, ?_⟩
    · rw [hk, Libpdk.splice, splice_skip (by omega) rest.spaced, hsplice]
      simp only [List.append_assoc]
    · rw [replaceTail_blank le (by omega) least, replaceTail_here holds, htail]
      simp only [List.append_assoc]
    · rw [List.length_append, List.length_append, List.length_append, List.length_take,
        List.length_take, List.length_drop, List.length_drop, List.length_cons]
      push_cast
      rw [hlen, Int.add_mul]
      omega

/-- What a batch leaves: the elements in front of where the search goes on are done. -/
theorem moved (after : List α) (h : Greedy before s k places k') (hk : k ≤ s.length)
    (hk' : k' ≤ s.length + 1) :
    ∃ place : Nat, (k' : Int) + places.length * ((after.length : Int) - before.length) = place ∧
      (Libpdk.splice before.length after s 0 places).length + k' = s.length + place ∧
      s.take k ++ replaceTail before after s k =
        (Libpdk.splice before.length after s 0 places).take place ++
          replaceTail before after (Libpdk.splice before.length after s 0 places) place := by
  obtain ⟨done, hsplice, htail, hlen⟩ := h.splice after
  have hspaced := h.spaced
  rw [Nat.min_eq_left hk] at hsplice hspaced hlen
  have hall : Libpdk.splice before.length after s 0 places = s.take k ++ done ++ s.drop k' := by
    rw [splice_skip (Nat.zero_le k) hspaced, hsplice, List.drop_zero, Nat.sub_zero,
      List.append_assoc]
  have htake : (s.take k).length = k := List.length_take_of_le hk
  obtain ⟨room, hroom⟩ : ∃ room : Int,
      room = places.length * ((after.length : Int) - before.length) := ⟨_, rfl⟩
  rw [← hroom] at hlen
  obtain ⟨place, hplace⟩ : ∃ place : Nat, (k' : Int) + room = place :=
    Int.eq_ofNat_of_zero_le (by omega)
  refine ⟨place, by rw [← hroom, hplace], ?_, ?_⟩
  · rw [hall, List.length_append, List.length_append, htake, List.length_drop]
    omega
  · rw [htail, hall, ← List.append_assoc]
    by_cases hend : k' ≤ s.length
    · have hfront : (s.take k ++ done).length = place := by
        rw [List.length_append, htake]
        omega
      rw [List.take_left' hfront, replaceTail, replaceTail, if_pos hend,
        if_pos (by rw [List.length_append, hfront]; omega), List.drop_left' hfront]
    · -- an empty pattern was found at the end
      have hnil : s.drop k' = [] := List.drop_eq_nil_of_le (by omega)
      have hfront : (s.take k ++ done).length < place := by
        rw [List.length_append, htake]
        omega
      have hwhole : (s.take k ++ done).take place = s.take k ++ done :=
        List.take_of_length_le (by omega)
      rw [hnil, List.append_nil, hwhole, replaceTail, replaceTail, if_neg hend, if_neg (by omega)]

end Greedy

/-! ## Nothing changes -/

theorem replaceAll_self (p : List α) : ∀ s : List α, replaceAll p p s = s := by
  intro s
  induction hn : s.length using Nat.strongRecOn generalizing s with
  | ind n ih =>
    by_cases hp : p = []
    · subst hp
      cases s with
      | nil => rfl
      | cons c s =>
        rw [replaceAll_nil, if_pos (by simp), List.drop_one, List.tail_cons,
          ih s.length (by rw [← hn]; simp) s rfl]
        rfl
    · by_cases hprefix : p <+: s
      · have hpos := List.length_pos_of_ne_nil hp
        have hle := hprefix.length_le
        rw [replaceAll_of_isPrefix hp hprefix, ih (s.drop p.length).length
          (by rw [List.length_drop]; omega) _ rfl]
        obtain ⟨rest, rfl⟩ := hprefix
        rw [List.drop_left]
      · cases s with
        | nil => rw [replaceAll, replaceFrom, if_neg hp]
        | cons c s =>
          have hnot : ¬p.isPrefixOf (c :: s) := fun h => hprefix (List.isPrefixOf_iff_prefix.mp h)
          have hrest := ih s.length (by rw [← hn]; simp) s rfl
          rw [replaceAll] at hrest
          rw [replaceAll, replaceFrom, if_neg hnot, hrest]

/-! ## One element -/

theorem replaceAll_singleton (c : α) (after : List α) : ∀ s : List α,
    replaceAll [c] after s = s.flatMap fun x => if x = c then after else [x]
  | [] => rfl
  | x :: s => by
    have hrest := replaceAll_singleton c after s
    rw [replaceAll] at hrest
    rw [replaceAll, List.flatMap_cons, ← hrest, replaceFrom]
    by_cases hx : x = c
    · subst hx
      simp
    · have hx' : ¬c = x := fun h => hx h.symm
      simp [hx, hx']

theorem length_replaceAll_singleton (c : α) {after : List α} (hpos : 0 < after.length) :
    ∀ s : List α, (replaceAll [c] after s).length = s.length + s.count c * (after.length - 1)
  | [] => by simp [replaceAll_singleton]
  | x :: s => by
    have hrest := length_replaceAll_singleton c hpos s
    rw [replaceAll_singleton] at hrest
    rw [replaceAll_singleton, List.flatMap_cons, List.length_append, hrest, List.length_cons,
      List.count_cons]
    by_cases hx : x = c
    · rw [if_pos hx, if_pos (by simpa using hx), Nat.add_mul]
      omega
    · simp only [if_neg hx, List.length_singleton, beq_iff_eq, Nat.add_zero]
      omega

end

end Libpdk

import Mathlib
import Libpdk.Utils.VersionNumber

/-!
# The order of version numbers

`compare` depends on the segments, not on where they are stored (`compare_eq`). Its sign is a
lexicographic order in which the end of the segments lies between -1 and 0 (`deciding_neg_iff`), and
a difference or a negative that is no `int` is the one thing that goes wrong (`ordered_iff`).
-/
namespace Libpdk.Utils

open Io (Host)
open Time (int int_of int_none int_iff)

/-! ## Lists of segments -/

/-- What is returned, were it not an `int`. -/
@[grind =] def deciding : List Int → List Int → Int
  | [], [] => 0
  | a :: _, [] => if a ≠ 0 then a else 1
  | [], b :: _ => if b ≠ 0 then -b else -1
  | a :: l, b :: m => if a ≠ b then a - b else deciding l m

/-- How many segments at the front are the same. -/
def commonLength : List Int → List Int → Nat
  | a :: l, b :: m => if a = b then commonLength l m + 1 else 0
  | _, _ => 0

/-- Segments at the odd numbers, the end at zero. -/
def place (segment : Int) : Int := 2 * segment + 1

theorem place_ne (segment : Int) : place segment ≠ 0 := by
  rw [place]
  omega

theorem place_injective : Function.Injective place := fun a b h => by
  rw [place, place] at h
  omega

/-- The segments as they are ordered. -/
def ordered (l : List Int) : Lex (ℕ → Int) := padded place 0 l

theorem deciding_swap : ∀ l m : List Int, deciding m l = -deciding l m
  | [], [] => rfl
  | a :: l, [] => by
    rw [deciding, deciding]
    split <;> rfl
  | [], b :: m => by
    rw [deciding, deciding]
    split <;> omega
  | a :: l, b :: m => by
    rw [deciding, deciding]
    by_cases h : a = b
    · rw [if_neg (not_not.mpr h), if_neg (not_not.mpr h.symm)]
      exact deciding_swap l m
    · rw [if_pos h, if_pos fun h' => h h'.symm]
      omega

/-- The sign is the order. -/
theorem deciding_neg_iff : ∀ l m : List Int, deciding l m < 0 ↔ ordered l < ordered m
  | [], [] => ⟨fun h => absurd h (lt_irrefl 0), fun h => absurd h (lt_irrefl _)⟩
  | a :: l, [] => by
    rw [ordered, ordered, padded_cons_nil place_ne, deciding, place]
    split <;> omega
  | [], b :: m => by
    rw [ordered, ordered, padded_nil_cons place_ne, deciding, place]
    split <;> omega
  | a :: l, b :: m => by
    have ih := deciding_neg_iff l m
    rw [ordered, ordered] at ih
    rw [ordered, ordered, padded_cons_cons, ← ih, deciding, place, place]
    split <;> omega

theorem deciding_zero_iff (l m : List Int) : deciding l m = 0 ↔ l = m := by
  have hlt := deciding_neg_iff l m
  have hgt := deciding_neg_iff m l
  rw [deciding_swap l m] at hgt
  constructor
  · intro h
    have hl : ¬ordered l < ordered m := fun h' => by have := hlt.mpr h'; omega
    have hm : ¬ordered m < ordered l := fun h' => by have := hgt.mpr h'; omega
    exact padded_injective place_injective place_ne (le_antisymm (not_lt.mp hm) (not_lt.mp hl))
  · rintro rfl
    have hirr : ¬ordered l < ordered l := lt_irrefl _
    have h₁ := mt hlt.mp hirr
    have h₂ := mt hgt.mp hirr
    omega

theorem deciding_nonpos_iff (l m : List Int) : deciding l m ≤ 0 ↔ ordered l ≤ ordered m := by
  have h : ¬deciding m l < 0 ↔ ordered l ≤ ordered m :=
    (not_congr (deciding_neg_iff m l)).trans not_lt
  rw [deciding_swap l m] at h
  rw [← h]
  omega

/-- The first segment that differs, or the first one that only one of them has. -/
theorem deciding_eq : ∀ l m : List Int, deciding l m =
    if commonLength l m < min l.length m.length then
      l.getD (commonLength l m) 0 - m.getD (commonLength l m) 0
    else deciding (l.drop (min l.length m.length)) (m.drop (min l.length m.length))
  | [], [] => rfl
  | _ :: _, [] => rfl
  | [], _ :: _ => rfl
  | a :: l, b :: m => by
    rw [deciding, commonLength]
    by_cases h : a = b
    · subst h
      rw [if_neg (not_not.mpr rfl), if_pos rfl, deciding_eq l m]
      simp only [List.length_cons, Nat.succ_min_succ, Nat.succ_lt_succ_iff, List.getD_cons_succ,
        List.drop_succ_cons]
    · rw [if_pos h, if_neg h, if_pos (by simp only [List.length_cons]; omega)]
      rfl

/-- The loops find the first difference. -/
theorem firstDifferent_eq {f g : Nat → Int} : ∀ (l m : List Int) (i : Nat),
    (∀ j < min l.length m.length, f (i + j) = l.getD j 0 ∧ g (i + j) = m.getD j 0) →
      VersionNumber.firstDifferent f g (min l.length m.length) i = i + commonLength l m
  | [], m, i, _ => by rw [List.length_nil, Nat.zero_min]; rfl
  | a :: l, [], i, _ => rfl
  | a :: l, b :: m, i, h => by
    have hfirst := h 0 (by rw [List.length_cons, List.length_cons]; omega)
    rw [List.length_cons, List.length_cons, Nat.succ_min_succ, Nat.succ_eq_add_one,
      VersionNumber.firstDifferent, commonLength]
    rw [Nat.add_zero, List.getD_cons_zero, List.getD_cons_zero] at hfirst
    rw [hfirst.1, hfirst.2]
    by_cases hab : a = b
    · rw [if_neg (not_not.mpr hab), if_pos hab, firstDifferent_eq l m (i + 1), Nat.add_assoc,
        Nat.add_comm 1]
      intro j hj
      have hnext := h (j + 1) (by rw [List.length_cons, List.length_cons]; omega)
      rwa [List.getD_cons_succ, List.getD_cons_succ, Nat.add_comm j, ← Nat.add_assoc] at hnext
    · rw [if_pos hab, if_neg hab, Nat.add_zero]

theorem deciding_append (p l m : List Int) : deciding (p ++ l) (p ++ m) = deciding l m := by
  induction p with
  | nil => rfl
  | cons a p ih => rw [List.cons_append, List.cons_append, deciding, if_neg (not_not.mpr rfl), ih]

theorem deciding_of_difference {p l m : List Int} {a b : Int} (hl : p ++ [a] <+: l)
    (hm : p ++ [b] <+: m) (hne : a ≠ b) : deciding l m = a - b := by
  obtain ⟨l, rfl⟩ := hl
  obtain ⟨m, rfl⟩ := hm
  rw [List.append_assoc, List.append_assoc, deciding_append]
  exact if_pos hne

theorem deciding_begins {l m : List Int} {s : Int} (h : l ++ [s] <+: m) :
    deciding l m = if s ≠ 0 then -s else -1 := by
  obtain ⟨m, rfl⟩ := h
  have happend := deciding_append l [] ([s] ++ m)
  rw [List.append_nil, ← List.append_assoc] at happend
  rw [happend]
  rfl

/-- Two lists are the same, or differ at a place, or one is a prefix. -/
theorem lists_cases : ∀ l m : List Int, l = m ∨
    (∃ p a b, p ++ [a] <+: l ∧ p ++ [b] <+: m ∧ a ≠ b) ∨
      (∃ s, l ++ [s] <+: m) ∨ ∃ s, m ++ [s] <+: l
  | [], [] => .inl rfl
  | a :: l, [] => .inr (.inr (.inr ⟨a, List.prefix_append [a] l⟩))
  | [], b :: m => .inr (.inr (.inl ⟨b, List.prefix_append [b] m⟩))
  | a :: l, b :: m => by
    by_cases hab : a = b
    · subst hab
      rcases lists_cases l m with rfl | ⟨p, c, d, hl, hm, hne⟩ | ⟨s, h⟩ | ⟨s, h⟩
      · exact .inl rfl
      · exact .inr (.inl ⟨a :: p, c, d, (List.prefix_cons_inj a).mpr hl,
          (List.prefix_cons_inj a).mpr hm, hne⟩)
      · exact .inr (.inr (.inl ⟨s, (List.prefix_cons_inj a).mpr h⟩))
      · exact .inr (.inr (.inr ⟨s, (List.prefix_cons_inj a).mpr h⟩))
    · exact .inr (.inl ⟨[], a, b, List.prefix_append [a] l, List.prefix_append [b] m, hab⟩)

/-- The first segments that differ have a difference, and the first segment behind the end of the
other list has a negative, that are numbers. -/
structure Representable (l m : List Int) : Prop where
  difference : ∀ p a b, p ++ [a] <+: l → p ++ [b] <+: m →
    -2147483648 < a - b ∧ a - b < 2147483648
  tail : ∀ s, l ++ [s] <+: m ∨ m ++ [s] <+: l → s ≠ -2147483648

/-- The segments of a version number. -/
def Ints (l : List Int) : Prop := ∀ s ∈ l, -2147483648 ≤ s ∧ s < 2147483648

theorem representable_iff {l m : List Int} (hl : Ints l) (hm : Ints m) :
    Representable l m ↔ -2147483648 < deciding l m ∧ deciding l m < 2147483648 := by
  constructor
  · intro h
    rcases lists_cases l m with rfl | ⟨p, a, b, hpl, hpm, hne⟩ | ⟨s, hs⟩ | ⟨s, hs⟩
    · rw [(deciding_zero_iff l l).mpr rfl]
      decide
    · rw [deciding_of_difference hpl hpm hne]
      exact h.difference p a b hpl hpm
    · have hne := h.tail s (.inl hs)
      have hrange := hm s (hs.subset (List.mem_append_right l (List.mem_singleton_self s)))
      rw [deciding_begins hs]
      split <;> omega
    · have hne := h.tail s (.inr hs)
      have hrange := hl s (hs.subset (List.mem_append_right m (List.mem_singleton_self s)))
      rw [deciding_swap m l, deciding_begins hs]
      split <;> omega
  · rintro ⟨hlo, hhi⟩
    refine ⟨fun p a b hpl hpm => ?_, fun s hs => ?_⟩
    · by_cases hab : a = b
      · omega
      · rw [deciding_of_difference hpl hpm hab] at hlo hhi
        exact ⟨hlo, hhi⟩
    · rcases hs with hs | hs
      · rw [deciding_begins hs] at hlo hhi
        split at hhi <;> omega
      · rw [deciding_swap m l, deciding_begins hs] at hlo hhi
        split at hhi <;> omega

theorem commonLength_prefixes : ∀ {p l m : List Int}, p <+: l → p <+: m →
    p <+: l.take (commonLength l m)
  | [], _, _, _, _ => List.nil_prefix
  | a :: p, l, m, hl, hm => by
    obtain ⟨l, rfl⟩ := hl
    obtain ⟨m, rfl⟩ := hm
    rw [List.cons_append, List.cons_append, commonLength, if_pos rfl, List.take_succ_cons]
    exact (List.prefix_cons_inj a).mpr
      (commonLength_prefixes (List.prefix_append p l) (List.prefix_append p m))

theorem take_commonLength : ∀ l m : List Int,
    l.take (commonLength l m) = m.take (commonLength l m)
  | [], _ => by rw [commonLength, List.take_zero, List.take_zero]; nofun
  | _ :: _, [] => rfl
  | a :: l, b :: m => by
    rw [commonLength]
    split
    · next hab => rw [hab, List.take_succ_cons, List.take_succ_cons, take_commonLength l m]
    · rfl

namespace VersionNumber

variable [Host]

/-! ## What is read -/

theorem segmentAt_of_le (v : VersionNumber) {i : Nat} (h : v.segmentCount ≤ i) :
    v.segmentAt i = 0 := if_neg (by rw [segmentCount] at h; omega)

theorem segmentAt_of_lt (v : VersionNumber) {i : Nat} (h : i < v.segmentCount) :
    v.segmentAt i = v.segments.atIndex i := if_pos h

theorem length_getSegments (v : VersionNumber) : v.getSegments.length = v.segmentCount := by
  obtain ⟨s, hs⟩ := v
  cases s with
  | inlineSegments d => rw [getSegments, List.length_map, List.length_range]
  | pointerSegments l => rw [getSegments, List.length_map]; rfl

theorem atIndex_eq (v : VersionNumber) {i : Nat} (h : i < v.segmentCount) :
    v.segments.atIndex i = v.getSegments.getD i 0 := by
  have hlen : i < v.getSegments.length := by rwa [length_getSegments]
  rw [List.getD_eq_getElem _ _ hlen]
  obtain ⟨s, hs⟩ := v
  cases s with
  | inlineSegments d =>
    simp only [getSegments, List.getElem_map, List.getElem_range]
    exact (segmentAt_of_lt _ h).symm
  | pointerSegments l =>
    simp only [getSegments, List.getElem_map]
    show (l.getD i 0).toInt = _
    rw [List.getD_eq_getElem _ _ h]
    rfl

theorem segmentAt_eq (v : VersionNumber) (i : Nat) : v.segmentAt i = v.getSegments.getD i 0 := by
  by_cases h : i < v.segmentCount
  · rw [segmentAt_of_lt v h, atIndex_eq v h]
  · rw [segmentAt_of_le v (by omega), List.getD_eq_default _ _ (by rw [length_getSegments]; omega)]

/-- Every segment is an `int`. -/
theorem ints_getSegments (v : VersionNumber) : Ints v.getSegments := by
  intro s hs
  have hrange : -2147483648 ≤ s ∧ s < 2147483648 := by
    obtain ⟨k, hk, rfl⟩ := List.mem_iff_getElem.mp hs
    rw [length_getSegments] at hk
    have hat := atIndex_eq v hk
    rw [List.getD_eq_getElem _ _ (by rwa [length_getSegments])] at hat
    rw [← hat]
    obtain ⟨storage, -⟩ := v
    cases storage with
    | inlineSegments d =>
      show -2147483648 ≤ (SegmentStorage.byteAt d (SegmentStorage.segmentByte k)).toInt ∧
        (SegmentStorage.byteAt d (SegmentStorage.segmentByte k)).toInt < 2147483648
      have hlo := BitVec.le_toInt (SegmentStorage.byteAt d (SegmentStorage.segmentByte k))
      have hhi := BitVec.toInt_lt (x := SegmentStorage.byteAt d (SegmentStorage.segmentByte k))
      simp only [Nat.reduceSub] at hlo hhi
      omega
    | pointerSegments l =>
      have hlo := Int32.le_toInt (l.getD k 0)
      have hhi := Int32.toInt_lt (l.getD k 0)
      exact ⟨hlo, hhi⟩
  exact hrange

/-! ## Comparing -/

theorem compareTail_eq (v₁ v₂ : VersionNumber) :
    compareTail v₁ v₂ (min v₁.segmentCount v₂.segmentCount) =
      int (deciding (v₁.getSegments.drop (min v₁.segmentCount v₂.segmentCount))
        (v₂.getSegments.drop (min v₁.segmentCount v₂.segmentCount))) := by
  have h₁ := length_getSegments v₁
  have h₂ := length_getSegments v₂
  have hint := ints_getSegments v₁
  rw [compareTail, segmentAt_eq, segmentAt_eq, ← h₁, ← h₂]
  generalize v₁.getSegments = l at *
  generalize v₂.getSegments = m at *
  rcases Nat.lt_trichotomy l.length m.length with hlt | heq | hgt
  · rw [Nat.min_eq_left hlt.le, if_neg (lt_irrefl _), if_pos hlt, List.drop_length,
      List.drop_eq_getElem_cons hlt, deciding, List.getD_eq_getElem _ _ hlt]
    split
    · rfl
    · rfl
  · rw [Nat.min_eq_left heq.le, if_neg (lt_irrefl _), if_neg (by omega), List.drop_length, heq,
      List.drop_length]
    rfl
  · rw [Nat.min_eq_right hgt.le, if_pos hgt, List.drop_length, List.drop_eq_getElem_cons hgt,
      deciding, List.getD_eq_getElem _ _ hgt]
    split
    · exact (int_iff.mpr (hint _ (List.getElem_mem hgt))).symm
    · rfl

/-- The segments decide, wherever they are stored. -/
theorem compare_eq (v₁ v₂ : VersionNumber) :
    compare v₁ v₂ = int (deciding v₁.getSegments v₂.getSegments) := by
  have h₁ := length_getSegments v₁
  have h₂ := length_getSegments v₂
  have hbranch : ∀ f g : Nat → Int, (∀ j < min v₁.segmentCount v₂.segmentCount,
      f j = v₁.getSegments.getD j 0 ∧ g j = v₂.getSegments.getD j 0) →
      (if firstDifferent f g (min v₁.segmentCount v₂.segmentCount) 0 <
          min v₁.segmentCount v₂.segmentCount then
        int (f (firstDifferent f g (min v₁.segmentCount v₂.segmentCount) 0) -
          g (firstDifferent f g (min v₁.segmentCount v₂.segmentCount) 0))
      else compareTail v₁ v₂ (min v₁.segmentCount v₂.segmentCount)) =
        int (deciding v₁.getSegments v₂.getSegments) := by
    intro f g hread
    have hfirst := firstDifferent_eq v₁.getSegments v₂.getSegments 0 fun j hj => by
      rw [Nat.zero_add]
      exact hread j (by rwa [← h₁, ← h₂])
    rw [h₁, h₂, Nat.zero_add] at hfirst
    rw [hfirst, compareTail_eq, deciding_eq v₁.getSegments, h₁, h₂]
    split
    · next hlt => rw [(hread _ hlt).1, (hread _ hlt).2]
    · rfl
  rw [compare]
  split
  · exact hbranch _ _ fun j hj => ⟨atIndex_eq v₁ (by omega), atIndex_eq v₂ (by omega)⟩
  · exact hbranch _ _ fun j _ => ⟨segmentAt_eq v₁ j, segmentAt_eq v₂ j⟩

/-! ## Prefixes -/

theorem isPrefixOf_iff (v other : VersionNumber) :
    v.isPrefixOf other = true ↔ v.getSegments <+: other.getSegments := by
  have h := length_getSegments v
  have h' := length_getSegments other
  rw [isPrefixOf, Bool.and_eq_true, List.all_eq_true, Bool.not_eq_true', decide_eq_false_iff_not,
    List.prefix_iff_getElem?]
  constructor
  · rintro ⟨hle, hall⟩ i hi
    have hsame := eq_of_beq (hall i (List.mem_range.mpr (by omega)))
    rw [segmentAt_eq, segmentAt_eq, List.getD_eq_getElem _ _ hi,
      List.getD_eq_getElem _ _ (by omega)] at hsame
    rw [hsame, List.getElem?_eq_getElem (by omega)]
  · intro hpre
    have hle : v.segmentCount ≤ other.segmentCount := by
      by_contra hlt
      have hlast := hpre other.segmentCount (by omega)
      rw [List.getElem?_eq_none (by omega)] at hlast
      cases hlast
    refine ⟨by omega, fun i hi => beq_iff_eq.mpr ?_⟩
    have hi' : i < v.getSegments.length := by rw [h]; exact List.mem_range.mp hi
    rw [segmentAt_eq, segmentAt_eq, List.getD_eq_getElem _ _ hi', List.getD_eq_getElem?_getD,
      hpre i hi']
    rfl

/-! ## Cutting -/

omit [Host] in
theorem size_resize {s : SegmentStorage} (h : s.Inv) {len : Nat} (hlen : len ≤ s.size) :
    (s.resize len).size = len := by
  cases s with
  | inlineSegments d =>
    obtain ⟨n, hle, hzero⟩ := h
    rw [SegmentStorage.size, hzero, SegmentStorage.toInt_size hle] at hlen
    rw [SegmentStorage.resize, SegmentStorage.size, SegmentStorage.byteAt_setInlineSize, if_pos rfl,
      SegmentStorage.toInt_size (by omega)]
  | pointerSegments l =>
    rw [SegmentStorage.size] at hlen
    show (l.take len ++ List.replicate (len - l.length) 0).length = len
    rw [List.length_append, List.length_take, List.length_replicate]
    omega

theorem atIndex_resize {s : SegmentStorage} (h : s.Inv) {len k : Nat} (hlen : len ≤ s.size)
    (hk : k < len) : (s.resize len).atIndex k = s.atIndex k := by
  cases s with
  | inlineSegments d =>
    obtain ⟨n, hle, hzero⟩ := h
    rw [SegmentStorage.size, hzero, SegmentStorage.toInt_size hle] at hlen
    show (SegmentStorage.byteAt _ _).toInt = (SegmentStorage.byteAt _ _).toInt
    rw [SegmentStorage.byteAt_setInlineSize,
      if_neg (SegmentStorage.segmentByte_pos (show k < 7 by omega)).1]
  | pointerSegments l =>
    rw [SegmentStorage.size] at hlen
    show ((l.take len ++ List.replicate (len - l.length) 0).getD k 0).toInt = (l.getD k 0).toInt
    rw [List.getD_append _ _ _ _ (by rw [List.length_take]; omega), List.getD_eq_getElem?_getD,
      List.getElem?_take, if_pos hk, ← List.getD_eq_getElem?_getD]

/-- The first segments are left. -/
theorem getSegments_resize (v : VersionNumber) {len : Nat} (hlen : len ≤ v.segments.size) :
    getSegments ⟨v.segments.resize len, v.inv.resize hlen⟩ = v.getSegments.take len := by
  have hv := length_getSegments v
  have hw := length_getSegments ⟨v.segments.resize len, v.inv.resize hlen⟩
  have hcount : segmentCount ⟨v.segments.resize len, v.inv.resize hlen⟩ = len :=
    size_resize v.inv hlen
  have hsize : v.segmentCount = v.segments.size := rfl
  apply List.ext_getElem
  · rw [List.length_take, hw, hcount]
    omega
  · intro k hk hk'
    rw [hw, hcount] at hk
    rw [List.getElem_take, ← List.getD_eq_getElem _ 0, ← List.getD_eq_getElem _ 0,
      ← atIndex_eq _ (by omega), ← atIndex_eq v (by omega)]
    exact atIndex_resize v.inv hlen hk

theorem getSegments_null : null.getSegments = [] := rfl

theorem commonSize_eq (v₁ v₂ : VersionNumber) :
    commonSize v₁ v₂ = commonLength v₁.getSegments v₂.getSegments := by
  have h := firstDifferent_eq (f := v₁.segmentAt) (g := v₂.segmentAt) v₁.getSegments v₂.getSegments 0
    fun j _ => by rw [Nat.zero_add]; exact ⟨segmentAt_eq v₁ j, segmentAt_eq v₂ j⟩
  rwa [length_getSegments, length_getSegments, Nat.zero_add] at h

/-- The segments that both have. -/
theorem getSegments_commonPrefix (v₁ v₂ : VersionNumber) : (commonPrefix v₁ v₂).getSegments =
    v₁.getSegments.take (commonLength v₁.getSegments v₂.getSegments) := by
  rw [commonPrefix, ← commonSize_eq]
  split
  · next hzero => rw [hzero, List.take_zero, getSegments_null]
  · rw [getSegments_resize _ (commonSize_le v₁ v₂), commonSource]
    split
    · rfl
    · rw [commonSize_eq, take_commonLength]

/-- What a vector holds is kept, in the pointer or outside of it. -/
theorem getSegments_ofVector {seg : List Int32} (h : seg.length < 2 ^ 31) :
    (ofVector seg h).getSegments = seg.map Int32.toInt := by
  by_cases hfits : SegmentStorage.dataFitsInline seg = true
  · have hboth := hfits
    rw [SegmentStorage.dataFitsInline, Bool.and_eq_true, decide_eq_true_eq,
      List.all_eq_true] at hboth
    obtain ⟨hlen, hall⟩ := hboth
    obtain ⟨hzero, hbyte⟩ := SegmentStorage.byteAt_setInlineData hlen
    have hsegments : (ofVector seg h).segments =
        .inlineSegments (SegmentStorage.setInlineData seg) := if_pos hfits
    have hcount : (ofVector seg h).segmentCount = seg.length := by
      rw [segmentCount, hsegments, SegmentStorage.size, hzero, SegmentStorage.toInt_size hlen]
    apply List.ext_getElem
    · rw [length_getSegments, hcount, List.length_map]
    · intro k hk hk'
      rw [length_getSegments, hcount] at hk
      rw [← List.getD_eq_getElem _ 0, ← atIndex_eq _ (by omega), hsegments,
        SegmentStorage.atIndex, hbyte k (by omega), SegmentStorage.stored,
        List.getElem?_eq_getElem hk, List.getElem_map]
      exact SegmentStorage.toInt_fitsByte (hall _ (List.getElem_mem hk))
  · have hsegments : (ofVector seg h).segments = .pointerSegments seg := if_neg hfits
    rw [getSegments, hsegments]

/-! ## The order -/

/-- What is asked of `compare` at two version numbers. -/
structure Ordered (v₁ v₂ : VersionNumber) : Prop where
  antisymmetric : ∃ x y, compare v₁ v₂ = some x ∧ compare v₂ v₁ = some y ∧ y.sign = -x.sign
  zero : compare v₁ v₂ = some 0 ↔ v₁.getSegments = v₂.getSegments
  transitive : ∀ v₃ x y z, compare v₁ v₂ = some x → compare v₂ v₃ = some y →
    compare v₁ v₃ = some z → x ≤ 0 → y ≤ 0 → z ≤ 0 ∧ (z = 0 → x = 0 ∧ y = 0)
  storage : ∀ w₁ w₂ : VersionNumber, w₁.getSegments = v₁.getSegments →
    w₂.getSegments = v₂.getSegments →
      ∃ x y, compare v₁ v₂ = some x ∧ compare w₁ w₂ = some y ∧ y.sign = x.sign
  isPrefixOf : v₁.isPrefixOf v₂ = true → ∀ s, v₁.getSegments ++ [s] <+: v₂.getSegments →
    ∃ x, compare v₁ v₂ = some x ∧ (x < 0 ↔ 0 ≤ s)
  commonPrefix : (commonPrefix v₁ v₂).isPrefixOf v₁ = true ∧
    (commonPrefix v₁ v₂).isPrefixOf v₂ = true ∧
    (∀ p : VersionNumber, p.isPrefixOf v₁ = true → p.isPrefixOf v₂ = true →
      p.isPrefixOf (commonPrefix v₁ v₂) = true) ∧
    ∀ s ≥ 0, (commonPrefix v₁ v₂).getSegments ++ [s] <+: v₁.getSegments →
      ∃ x < 0, compare (commonPrefix v₁ v₂) v₁ = some x

omit [Host] in
theorem int_some {x y : Int} (h : int x = some y) :
    y = x ∧ -2147483648 ≤ x ∧ x < 2147483648 := by
  rw [int] at h
  split at h
  · next hrange => exact ⟨(Option.some.inj h).symm, hrange⟩
  · cases h

theorem compare_transitive {v₁ v₂ v₃ : VersionNumber} {x y z : Int} (h₁₂ : compare v₁ v₂ = some x)
    (h₂₃ : compare v₂ v₃ = some y) (h₁₃ : compare v₁ v₃ = some z) (hx : x ≤ 0) (hy : y ≤ 0) :
    z ≤ 0 ∧ (z = 0 → x = 0 ∧ y = 0) := by
  rw [compare_eq] at h₁₂ h₂₃ h₁₃
  obtain ⟨rfl, -⟩ := int_some h₁₂
  obtain ⟨rfl, -⟩ := int_some h₂₃
  obtain ⟨rfl, -⟩ := int_some h₁₃
  rw [deciding_nonpos_iff] at hx hy
  refine ⟨(deciding_nonpos_iff _ _).mpr (hx.trans hy), fun hz => ?_⟩
  rw [deciding_zero_iff] at hz
  rw [← hz] at hy
  have hsame : v₁.getSegments = v₂.getSegments :=
    padded_injective place_injective place_ne (le_antisymm hx hy)
  rw [deciding_zero_iff, deciding_zero_iff]
  exact ⟨hsame, hsame.symm.trans hz⟩

theorem commonPrefix_spec (v₁ v₂ : VersionNumber) : (commonPrefix v₁ v₂).isPrefixOf v₁ = true ∧
    (commonPrefix v₁ v₂).isPrefixOf v₂ = true ∧
    (∀ p : VersionNumber, p.isPrefixOf v₁ = true → p.isPrefixOf v₂ = true →
      p.isPrefixOf (commonPrefix v₁ v₂) = true) ∧
    ∀ s ≥ 0, (commonPrefix v₁ v₂).getSegments ++ [s] <+: v₁.getSegments →
      ∃ x < 0, compare (commonPrefix v₁ v₂) v₁ = some x := by
  simp only [isPrefixOf_iff]
  refine ⟨?_, ?_, fun p h₁ h₂ => ?_, fun s hs hpre => ?_⟩
  · rw [getSegments_commonPrefix]
    exact List.take_prefix _ _
  · rw [getSegments_commonPrefix, take_commonLength]
    exact List.take_prefix _ _
  · rw [getSegments_commonPrefix]
    exact commonLength_prefixes h₁ h₂
  · have hrange := ints_getSegments v₁ s (hpre.subset (List.mem_append_right _ (List.mem_singleton_self s)))
    rw [compare_eq, deciding_begins hpre]
    by_cases hzero : s = 0
    · rw [if_neg (not_not.mpr hzero)]
      exact ⟨-1, by decide, rfl⟩
    · rw [if_pos hzero]
      exact ⟨-s, by omega, int_of (by omega) (by omega)⟩

/-- Version numbers are ordered exactly where the first difference and the first extra segment can
be subtracted and negated. -/
theorem ordered_iff (v₁ v₂ : VersionNumber) :
    Ordered v₁ v₂ ↔ Representable v₁.getSegments v₂.getSegments := by
  rw [representable_iff (ints_getSegments v₁) (ints_getSegments v₂)]
  constructor
  · intro h
    obtain ⟨x, y, hx, hy, -⟩ := h.antisymmetric
    rw [compare_eq] at hx hy
    rw [deciding_swap] at hy
    have hx := (int_some hx).2
    have hy := (int_some hy).2
    omega
  · rintro ⟨hlo, hhi⟩
    have hleft : compare v₁ v₂ = some (deciding v₁.getSegments v₂.getSegments) := by
      rw [compare_eq]
      exact int_of (by omega) hhi
    refine ⟨⟨_, -deciding v₁.getSegments v₂.getSegments, hleft, ?_, Int.sign_neg _⟩, ?_,
      fun v₃ x y z => compare_transitive, fun w₁ w₂ h₁ h₂ => ⟨_, _, hleft, ?_, rfl⟩,
      fun _ s hs => ⟨_, hleft, ?_⟩, commonPrefix_spec v₁ v₂⟩
    · rw [compare_eq, deciding_swap]
      exact int_of (by omega) (by omega)
    · rw [hleft, Option.some.injEq, deciding_zero_iff]
    · rw [compare_eq, h₁, h₂, ← compare_eq, hleft]
    · rw [deciding_begins hs]
      split <;> omega

end VersionNumber

open VersionNumber in
/-- The difference of the largest number and -1, and the negative of the smallest number. -/
theorem compare_overflow : ∃ (_ : Host) (v₁ v₂ v₃ : VersionNumber),
    v₁.getSegments = [2147483647] ∧ v₂.getSegments = [-1] ∧ v₃.getSegments = [-2147483648] ∧
      v₁.compare v₂ = none ∧ null.compare v₃ = none ∧ ¬Ordered v₁ v₂ := by
  let host : Host := ⟨.littleEndian⟩
  have h₁ := getSegments_ofVector (show [2147483647].length < 2 ^ 31 by decide)
  have h₂ := getSegments_ofVector (show [-1].length < 2 ^ 31 by decide)
  have h₃ := getSegments_ofVector (show [-2147483648].length < 2 ^ 31 by decide)
  refine ⟨host, _, _, _, h₁, h₂, h₃, ?_, ?_, fun h => ?_⟩
  · rw [compare_eq, h₁, h₂]
    rfl
  · rw [compare_eq, h₃]
    rfl
  · obtain ⟨x, y, hx, -⟩ := h.antisymmetric
    rw [compare_eq, h₁, h₂] at hx
    cases hx

end Libpdk.Utils

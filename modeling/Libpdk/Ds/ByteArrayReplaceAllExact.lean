import Libpdk.Ds.ByteArrayReplaceAll

/-!
# When replacing replaces every occurrence

Replacements that are not shorter are put in as they should be. Where they are shorter each one is
overwritten by the text behind it: what is left is the text without the replacements, and some bytes
at the end (`shrink_exact`).
-/
namespace Libpdk.Ds.ByteArrayReplaceAll

open Libpdk.Ds.ByteArray (bmInitSkiptable)
open Libpdk.Ds.ByteArraySearch (bmFind bmFind_first)

/-! ## The condition -/

/-- Where the last piece begins. -/
def behind (size : Nat) : Nat → List Nat → Nat
  | i, [] => i
  | _, place :: places => behind size (place + size) places

section

variable {outside fresh : Nat → UInt8}

/-! ## Pointers -/

/-- The bytes of an argument. -/
def Argument.text {s : Bytes} (outside : Nat → UInt8) (a : Argument s) : Bytes :=
  match a.pointer with
  | .own offset => (s.drop offset).take a.length
  | .outside address => (List.range a.length).map fun i => outside (address + i)
  | .buffer bytes => bytes.take a.length

/-- An argument that does not point to bytes of the array. -/
def Argument.Apart {s : Bytes} (a : Argument s) : Prop :=
  a.length = 0 ∨ ∀ offset, a.pointer ≠ .own offset

/-- A pointer that is not affected by what happens to the array. -/
def Lasting (outside : Nat → UInt8) (p : Pointer) (text : Bytes) : Prop :=
  ∀ t, readPointer outside t text.length p = some text

theorem Argument.length_text {s : Bytes} (a : Argument s) : (a.text outside).length = a.length := by
  have hvalid := a.valid
  rw [text]
  split
  · next offset hp =>
    rw [hp] at hvalid
    simp only at hvalid
    rw [List.length_take, List.length_drop]
    omega
  · rw [List.length_map, List.length_range]
  · next bytes hp =>
    rw [hp] at hvalid
    simp only at hvalid
    rw [List.length_take]
    omega

/-- An argument is read as long as nothing was written. -/
theorem Argument.reads {s : Bytes} (a : Argument s) :
    readPointer outside ⟨s, false⟩ a.length a.pointer = some (a.text outside) := by
  have hvalid := a.valid
  cases hp : a.pointer with
  | own offset =>
    rw [hp] at hvalid
    simp only at hvalid
    rw [readPointer, text, hp]
    by_cases hzero : a.length = 0
    · rw [if_pos hzero, hzero]
      rfl
    · rw [if_neg hzero]
      exact Block.read_eq hvalid
  | outside address => rw [readPointer, text, hp]
  | buffer bytes =>
    rw [hp] at hvalid
    simp only at hvalid
    rw [readPointer, text, hp, Block.read_eq (by omega), List.drop_zero]

theorem Argument.Apart.lasting {s : Bytes} {a : Argument s} (h : a.Apart) :
    Lasting outside a.pointer (a.text outside) := by
  intro t
  have hreads : readPointer outside ⟨s, false⟩ a.length a.pointer = _ := a.reads
  rw [a.length_text]
  cases hp : a.pointer with
  | own offset =>
    rw [hp, readPointer] at hreads
    have hzero := h.resolve_right fun hne => hne offset hp
    rw [if_pos hzero] at hreads
    rw [readPointer, if_pos hzero, hreads]
  | outside address =>
    rw [hp] at hreads
    exact hreads
  | buffer bytes =>
    rw [hp] at hreads
    exact hreads

theorem moveBytes_spec (t : Rewriting) (dst src n : Nat) (hsrc : src + n ≤ t.bytes.length)
    (hdst : dst + n ≤ t.bytes.length) :
    ∃ u, moveBytes t dst src n = some { t with bytes := u } ∧
      Block.Written t.bytes u dst ((t.bytes.drop src).take n) := by
  obtain ⟨u, hu, hw⟩ := Block.move_spec t.bytes dst src n hsrc hdst
  exact ⟨u, by rw [moveBytes, hu]; rfl, hw⟩

/-! ## Searching -/

/-- The search from `index` finds what it should. -/
def Finds (outside : Nat → UInt8) (matcher : Matcher) (before : Bytes) (t : Rewriting)
    (index : Nat) : Prop :=
  ∃ r, indexIn outside matcher t index = some r ∧ FirstFrom (OccursAt before t.bytes) index r

/-- A matcher whose pattern is not affected by what happens to the array. -/
structure Matching (outside : Nat → UInt8) (matcher : Matcher) (before : Bytes) : Prop where
  lasting : Lasting outside matcher.pattern before
  length : matcher.length = before.length
  skiptable : matcher.skiptable = bmInitSkiptable before

/-- Between two rounds: the text so far without the replacements, the last one of these, and what
was there before. -/
structure Moved (s before after : Bytes) (l : Shrinking) (front : Bytes) : Prop where
  bytes : l.t = ⟨front ++ after ++ s.drop (l.moveto + after.length), false⟩
  index : l.movestart = l.index
  num : 0 < l.num
  room : l.moveto + l.num * before.length = l.index
  le : l.index ≤ s.length
  front : front.length = l.moveto

section

variable {s before after front : Bytes} {l : Shrinking} {matcher : Matcher} {p : Pointer}

theorem Moved.moveto_le (h : Moved s before after l front) (hshort : after.length < before.length) :
    l.moveto + after.length ≤ l.index := by
  have hone := Nat.le_mul_of_pos_left before.length h.num
  have hroom := h.room
  omega

theorem Moved.length (h : Moved s before after l front) (hshort : after.length < before.length) :
    l.t.bytes.length = s.length := by
  have hmoveto := h.moveto_le hshort
  have hle := h.le
  rw [h.bytes]
  simp only [List.length_append, List.length_drop, h.front]
  omega

theorem Moved.drop (h : Moved s before after l front) {i : Nat}
    (hi : l.moveto + after.length ≤ i) : l.t.bytes.drop i = s.drop i := by
  obtain ⟨d, rfl⟩ := Nat.exists_eq_add_of_le hi
  have hlen : (front ++ after).length = l.moveto + after.length := by
    rw [List.length_append, h.front]
  rw [h.bytes, ← List.drop_drop, List.drop_left' hlen, List.drop_drop]

/-- The text behind the last occurrence is moved, and the array is cut. -/
theorem Moved.finish (h : Moved s before after l front) (hshort : after.length < before.length) :
    ∃ t, moveRest l s.length = some t ∧
      t.bytes.take (s.length - l.num * (before.length - after.length)) =
        front ++ s.drop l.index ++
          ((after ++ s.drop (l.moveto + after.length)).drop (s.length - l.index)).take
            (l.num * after.length) := by
  have hlen := h.length hshort
  have hle := h.le
  have hmoveto := h.moveto_le hshort
  have hroom := h.room
  have hsize : (s.drop l.index).length = s.length - l.index := List.length_drop
  obtain ⟨t, ht, hfront, hback⟩ : ∃ t, moveRest l s.length = some t ∧
      t.bytes.take (l.moveto + (s.length - l.index)) = front ++ s.drop l.index ∧
      t.bytes.drop (l.moveto + (s.length - l.index)) =
        l.t.bytes.drop (l.moveto + (s.length - l.index)) := by
    have htake : l.t.bytes.take l.moveto = front := by
      rw [h.bytes, List.append_assoc]
      exact List.take_left' h.front
    rw [moveRest, h.index]
    by_cases hlt : l.index < s.length
    · obtain ⟨u, hmove, hw⟩ := moveBytes_spec l.t l.moveto l.index
        (s.length - l.index) (by omega) (by omega)
      rw [h.drop hmoveto, ← hsize, List.take_length] at hw
      refine ⟨_, by rw [if_pos hlt]; exact hmove, ?_, ?_⟩
      · rw [← hsize, ← htake]
        exact hw.front
      · rw [← hsize]
        exact hw.back
    · have hzero : s.length - l.index = 0 := by omega
      refine ⟨l.t, if_neg hlt, ?_, rfl⟩
      rw [hzero, Nat.add_zero, htake, List.drop_eq_nil_of_le (by omega), List.append_nil]
  refine ⟨t, ht, ?_⟩
  have hlong : before.length = after.length + (before.length - after.length) := by omega
  have hcut : s.length - l.num * (before.length - after.length) =
      l.moveto + (s.length - l.index) + l.num * after.length := by
    have hmul := congrArg (l.num * ·) hlong
    simp only [Nat.mul_add] at hmul
    omega
  have hdrop : l.t.bytes.drop (l.moveto + (s.length - l.index)) =
      (after ++ s.drop (l.moveto + after.length)).drop (s.length - l.index) := by
    rw [h.bytes, ← List.drop_drop, List.append_assoc, List.drop_left' h.front]
  rw [hcut, List.take_add, hfront, hback, hdrop]

end

end

end Libpdk.Ds.ByteArrayReplaceAll

import Libpdk.Codecs.Utf8EncodeChunks
import Mathlib.Algebra.Order.BigOperators.Group.List
import Mathlib.Algebra.Order.Ring.Nat

/-!
# Writing strings

`escaped_string` of the JSON writer. The array and the raw cursor into it are explicit:
a write at a place that the array does not have is `none`. An `int` wraps around. The
array has at first one byte for each unit, and is made twice as large where fewer than
seven bytes are left; `escapedString_isSome` says for which strings that is enough.
-/
namespace Libpdk.Json.Writer

open Codecs.Character Codecs.Utf8

/-! ## The array -/

/-- `ba` and the distance of `cursor` from its first byte. -/
structure Output where
  ba : Bytes
  cursor : Nat

/-- A `ByteArray` of this size; `uninitialized` is what is found in new memory. -/
def alloc (uninitialized : Nat → UInt8) (size : Nat) : Bytes :=
  (List.range size).map uninitialized

/-- mirrors ds/ByteArray.cpp:551-590 -/
def resize (uninitialized : Nat → UInt8) (ba : Bytes) (size : Int) : Bytes :=
  ba.take size.toNat ++ (alloc uninitialized size.toNat).drop ba.length

/-- An `int` multiplied by two. -/
def twice (size : Nat) : Int :=
  if 2 * size < 2147483648 then 2 * size else 2 * (size : Int) - 4294967296

/-- "ensure we have enough space"
mirrors utils/json/JsonWriter.cpp:50-56 -/
def ensure (uninitialized : Nat → UInt8) (o : Output) : Output :=
  if (o.cursor : Int) ≥ (o.ba.length : Int) - 6 then
    { o with ba := resize uninitialized o.ba (twice o.ba.length) }
  else o

/-- `*cursor++ = b` -/
def put (o : Output) (b : UInt8) : Option Output :=
  if o.cursor < o.ba.length then some ⟨o.ba.set o.cursor b, o.cursor + 1⟩ else none

@[grind =] def putAll (o : Output) : Bytes → Option Output
  | [] => some o
  | b :: bytes => do
    let o ← put o b
    putAll o bytes

/-! ## One character -/

def replacement : UInt8 := byte '?'

/-- mirrors utils/json/JsonWriter.cpp:36-39 -/
def hexdig (u : Nat) : UInt8 :=
  if u < 0xa then UInt8.ofNat (0x30 + u) else UInt8.ofNat (0x61 + u - 0xa)

/-- mirrors utils/json/JsonWriter.cpp:60-88 -/
def escape (u : Nat) : Bytes :=
  byte '\\' ::
    if u = 0x22 then [byte '"']
    else if u = 0x5c then [byte '\\']
    else if u = 0x8 then [byte 'b']
    else if u = 0xc then [byte 'f']
    else if u = 0xa then [byte 'n']
    else if u = 0xd then [byte 'r']
    else if u = 0x9 then [byte 't']
    else [byte 'u', byte '0', byte '0', hexdig (u / 16), hexdig (u % 16)]

/-- What is written for the character at `u`, and where the source goes on.
mirrors utils/json/JsonWriter.cpp:57-96 -/
def character (u : UInt16) (src : Str) : Bytes × Str :=
  if u.toNat < 0x80 then
    if u.toNat < 0x20 ∨ u.toNat = 0x22 ∨ u.toNat = 0x5c then (escape u.toNat, src)
    else ([UInt8.ofNat u.toNat], src)
  else match toUtf8 u src with
    | .done bytes src => (bytes, src)
    | .error => ([replacement], src)
    | .endOfString => ([replacement], src)

/-! ## The string -/

/-- The loop; a round takes one unit of the source at least. -/
def writeLoop (uninitialized : Nat → UInt8) : Nat → Output → Str → Option Output
  | _, o, [] => some o
  | 0, o, _ => some o
  | rounds + 1, o, u :: src => do
    let o ← putAll (ensure uninitialized o) (character u src).1
    writeLoop uninitialized rounds o (character u src).2

/-- `none`: a byte is written that the array does not have at that moment.
mirrors utils/json/JsonWriter.cpp:41-101 -/
def escapedString (uninitialized : Nat → UInt8) (s : Str) : Option Bytes := do
  let o ← writeLoop uninitialized s.length ⟨alloc uninitialized s.length, 0⟩ s
  some (resize uninitialized o.ba o.cursor)

/-! ## What a character needs -/

/-- The bytes that a unit needs that is no half of a pair. -/
def width (u : UInt16) : Nat :=
  if u.toNat = 0x22 ∨ u.toNat = 0x5c then 2
  else if u.toNat ∈ [0x8, 0x9, 0xa, 0xc, 0xd] then 2
  else if u.toNat < 0x20 then 6
  else if u.toNat < 0x80 then 1
  else if u.toNat < 0x800 then 2
  else if isSurrogate u.toNat then 1
  else 3

/-- The bytes that each character of a string needs: four for a surrogate pair. -/
def widths : Str → List Nat
  | [] => []
  | [u] => [width u]
  | u :: low :: src =>
    if isPair u low then 4 :: widths src else width u :: widths (low :: src)

theorem length_escape (u : UInt16)
    (h : u.toNat < 0x20 ∨ u.toNat = 0x22 ∨ u.toNat = 0x5c) :
    (escape u.toNat).length = width u := by
  by_cases hq : u.toNat = 0x22
  · simp [escape, width, hq]
  by_cases hb : u.toNat = 0x5c
  · simp [escape, width, hb]
  by_cases hn : u.toNat ∈ [0x8, 0x9, 0xa, 0xc, 0xd]
  · simp only [List.mem_cons, List.not_mem_nil, or_false] at hn
    rcases hn with h | h | h | h | h <;> simp [escape, width, h]
  · rw [width, if_neg (by omega), if_neg hn, if_pos (by omega)]
    simp only [List.mem_cons, List.not_mem_nil, or_false, not_or] at hn
    simp [escape, hq, hb, hn]

theorem length_toUtf8 {u : UInt16} (h80 : ¬u.toNat < 0x80) (hs : isSurrogate u.toNat = false) :
    ∃ bytes, (∀ src, toUtf8 u src = .done bytes src) ∧ bytes.length = width u := by
  have hwidth : width u = if u.toNat < 0x800 then 2 else 3 := by
    rw [width, if_neg (by omega), if_neg (by simp; omega), if_neg (by omega), if_neg h80, hs]
    rfl
  rw [hwidth]
  by_cases h800 : u.toNat < 0x800
  · exact ⟨[_, _], fun src => by rw [toUtf8, if_neg h80, if_pos h800], by rw [if_pos h800]; rfl⟩
  · exact ⟨[_, _, _], fun src => by rw [toUtf8, if_neg h80, if_neg h800, hs]; rfl,
      by rw [if_neg h800]; rfl⟩

theorem width_surrogate {u : UInt16} (hs : isSurrogate u.toNat = true) : width u = 1 := by
  have hu := (isSurrogate_iff (by have := u.toNat_lt; omega)).mp hs
  rw [width, if_neg (by omega), if_neg (by simp; omega), if_neg (by omega), if_neg (by omega),
    if_neg (by omega), if_pos hs]

/-- A character that is one unit. -/
theorem character_unit (u : UInt16) (src : Str)
    (h : ∀ low rest, src = low :: rest → isPair u low = false) :
    ∃ bytes, character u src = (bytes, src) ∧ bytes.length = width u := by
  by_cases h80 : u.toNat < 0x80
  · by_cases hesc : u.toNat < 0x20 ∨ u.toNat = 0x22 ∨ u.toNat = 0x5c
    · exact ⟨_, by rw [character, if_pos h80, if_pos hesc], length_escape u hesc⟩
    · refine ⟨_, by rw [character, if_pos h80, if_neg hesc], ?_⟩
      rw [width, if_neg (by omega), if_neg (by simp; omega), if_neg (by omega), if_pos h80]
      rfl
  cases hs : isSurrogate u.toNat with
  | false =>
    obtain ⟨bytes, hdone, hlen⟩ := length_toUtf8 h80 hs
    exact ⟨bytes, by rw [character, if_neg h80, hdone], hlen⟩
  | true =>
    refine ⟨[replacement], ?_, (width_surrogate hs).symm⟩
    rw [character, if_neg h80]
    cases src with
    | nil => rw [toUtf8_not_pair hs (by simp), if_pos rfl]
    | cons low rest => rw [toUtf8_broken hs (h low rest rfl)]

/-- A character that is a surrogate pair. -/
theorem character_pair {u low : UInt16} (h : isPair u low = true) (src : Str) :
    ∃ bytes, character u (low :: src) = (bytes, src) ∧ bytes.length = 4 := by
  obtain ⟨bytes, hdone, hlen⟩ := toUtf8_pair h
  have hs := isSurrogate_of_high (Bool.and_eq_true _ _ ▸ h).1
  have hu := (isSurrogate_iff (by have := u.toNat_lt; omega)).mp hs
  exact ⟨bytes, by rw [character, if_neg (by omega), hdone], hlen⟩

/-- One round: the bytes of the first width, and a shorter source with the others. -/
theorem character_spec (u : UInt16) (src : Str) :
    widths (u :: src) = (character u src).1.length :: widths (character u src).2 ∧
      (character u src).2.length ≤ src.length := by
  cases src with
  | nil =>
    obtain ⟨bytes, hc, hlen⟩ := character_unit u [] (by simp)
    rw [hc, hlen]
    exact ⟨rfl, Nat.le_refl _⟩
  | cons low src =>
    cases hp : isPair u low with
    | true =>
      obtain ⟨bytes, hc, hlen⟩ := character_pair hp src
      rw [hc, hlen, widths, if_pos hp]
      exact ⟨rfl, Nat.le_succ _⟩
    | false =>
      obtain ⟨bytes, hc, hlen⟩ := character_unit u (low :: src) (by
        intro low' rest he
        rwa [← (List.cons.inj he).1])
      rw [hc, hlen, widths, hp]
      exact ⟨rfl, Nat.le_refl _⟩

theorem width_bounds (u : UInt16) : 1 ≤ width u ∧ width u ≤ 6 := by
  unfold width
  split_ifs <;> omega

theorem widths_bounds : ∀ (s : Str), ∀ w ∈ widths s, 1 ≤ w ∧ w ≤ 6
  | [] => by simp [widths]
  | [u] => by
    simp only [widths, List.mem_singleton, forall_eq]
    exact width_bounds u
  | u :: low :: src => by
    rw [widths]
    split
    · refine List.forall_mem_cons.mpr ⟨by omega, widths_bounds src⟩
    · exact List.forall_mem_cons.mpr ⟨width_bounds u, widths_bounds (low :: src)⟩

/-! ## The room there is -/

/-- The size of the array for the next character. -/
def ensured (size cursor : Nat) : Nat := if size ≤ cursor + 6 then (twice size).toNat else size

/-- Every character finds the room it needs. -/
def Room : Nat → Nat → List Nat → Prop
  | _, _, [] => True
  | size, cursor, w :: ws =>
    cursor + w ≤ ensured size cursor ∧ Room (ensured size cursor) (cursor + w) ws

variable (uninitialized : Nat → UInt8)

theorem length_resize (ba : Bytes) (size : Int) :
    (resize uninitialized ba size).length = size.toNat := by
  rw [resize, alloc, List.length_append, List.length_take, List.length_drop, List.length_map,
    List.length_range]
  omega

theorem ensure_spec (o : Output) : (ensure uninitialized o).cursor = o.cursor ∧
    (ensure uninitialized o).ba.length = ensured o.ba.length o.cursor := by
  rw [ensure, ensured]
  by_cases h : o.ba.length ≤ o.cursor + 6
  · rw [if_pos h, if_pos (by omega)]
    exact ⟨rfl, length_resize uninitialized _ _⟩
  · rw [if_neg h, if_neg (by omega)]
    exact ⟨rfl, rfl⟩

/-- Bytes are written one after the other, or one of them has no place. -/
theorem putAll_spec : ∀ (bytes : Bytes) (o : Output), o.cursor ≤ o.ba.length →
    (o.cursor + bytes.length ≤ o.ba.length ∧ ∃ o', putAll o bytes = some o' ∧
      o'.cursor = o.cursor + bytes.length ∧ o'.ba.length = o.ba.length) ∨
    (o.ba.length < o.cursor + bytes.length ∧ putAll o bytes = none)
  | [], o, h => .inl ⟨h, o, rfl, rfl, rfl⟩
  | b :: bytes, o, h => by
    rw [putAll, put, List.length_cons]
    by_cases hlt : o.cursor < o.ba.length
    · rw [if_pos hlt]
      have hset : (o.ba.set o.cursor b).length = o.ba.length := List.length_set
      obtain ⟨hle, o', heq, hc, hl⟩ | ⟨hgt, heq⟩ :=
        putAll_spec bytes ⟨o.ba.set o.cursor b, o.cursor + 1⟩ (by rw [hset]; exact hlt)
      · simp only [hset] at hl hle hc
        exact .inl ⟨by omega, o', heq, by omega, hl⟩
      · simp only [hset] at hgt
        exact .inr ⟨by omega, heq⟩
    · rw [if_neg hlt]
      exact .inr ⟨by omega, rfl⟩

/-- Without the room for one byte more, that byte is not written. -/
theorem putAll_outside {o : Output} (h : o.ba.length < o.cursor) :
    ∀ {bytes : Bytes}, bytes ≠ [] → putAll o bytes = none
  | [], hne => absurd rfl hne
  | b :: bytes, _ => by
    rw [putAll, put, if_neg (by omega)]
    rfl

/-- The loop writes inside the array where every character finds room. -/
theorem writeLoop_isSome : ∀ (rounds : Nat) (o : Output) (s : Str), s.length ≤ rounds →
    ((writeLoop uninitialized rounds o s).isSome ↔ Room o.ba.length o.cursor (widths s))
  | _, o, [], _ => by simp [writeLoop, widths, Room]
  | 0, _, u :: src, h => absurd h (by simp)
  | rounds + 1, o, u :: src, h => by
    obtain ⟨hw, hlen⟩ := character_spec u src
    obtain ⟨hc, hl⟩ := ensure_spec uninitialized o
    have hpos := (widths_bounds (u :: src) (character u src).1.length (by rw [hw]; simp)).1
    rw [writeLoop, hw, Room, ← hl]
    have hrest (o' : Output) := writeLoop_isSome rounds o' (character u src).2
      (by rw [List.length_cons] at h; omega)
    by_cases hin : (ensure uninitialized o).cursor ≤ (ensure uninitialized o).ba.length
    · obtain ⟨hle, o', heq, hc', hl'⟩ | ⟨hgt, heq⟩ :=
        putAll_spec (character u src).1 (ensure uninitialized o) hin
      · rw [hc] at hle hc'
        have := hrest o'
        rw [hc', hl'] at this
        rw [heq]
        exact this.trans (and_iff_right hle).symm
      · rw [hc] at hgt
        rw [heq]
        exact iff_of_false (by simp) (by omega)
    · have hne : (character u src).1 ≠ [] := List.ne_nil_of_length_pos hpos
      rw [putAll_outside (by omega) hne]
      exact iff_of_false (by simp) (by omega)

theorem escapedString_isSome_iff (s : Str) :
    (escapedString uninitialized s).isSome ↔ Room s.length 0 (widths s) := by
  have h := writeLoop_isSome uninitialized s.length ⟨alloc uninitialized s.length, 0⟩ s
    (Nat.le_refl _)
  rw [show (alloc uninitialized s.length).length = s.length by simp [alloc]] at h
  rw [← h, escapedString]
  cases writeLoop uninitialized s.length ⟨alloc uninitialized s.length, 0⟩ s <;> rfl

/-! ## When there is room -/

theorem twice_toNat {size : Nat} (h : size < 2 ^ 31) :
    (twice size).toNat = if size < 2 ^ 30 then 2 * size else 0 := by
  rw [twice]
  by_cases h30 : size < 2 ^ 30
  · rw [if_pos h30, if_pos (by omega)]
    omega
  · rw [if_neg h30, if_neg (by omega)]
    omega

/-- The size of the array that cannot be doubled any more. -/
def Largest (size m : Nat) : Prop := (∃ k, m = size * 2 ^ k) ∧ 2 ^ 30 ≤ m ∧ m < 2 ^ 31

theorem double_pow (size k : Nat) : 2 * size * 2 ^ k = size * 2 ^ (k + 1) := by
  rw [Nat.mul_comm 2 size, Nat.mul_assoc, Nat.pow_succ, Nat.mul_comm 2]

theorem Largest.cases {size m : Nat} (h : Largest size m) : m = size ∨ 2 * size ≤ m := by
  obtain ⟨⟨k, rfl⟩, -, -⟩ := h
  cases k with
  | zero => exact .inl (Nat.mul_one size)
  | succ k =>
    refine .inr ?_
    calc 2 * size = 2 * size * 1 := (Nat.mul_one _).symm
      _ ≤ 2 * size * 2 ^ k := Nat.mul_le_mul_left _ Nat.one_le_two_pow
      _ = size * 2 ^ (k + 1) := double_pow size k

theorem largest_double {size : Nat} (h : size < 2 ^ 30) (m : Nat) :
    Largest (2 * size) m ↔ Largest size m := by
  constructor
  · rintro ⟨⟨k, rfl⟩, hm⟩
    exact ⟨⟨k + 1, double_pow size k⟩, hm⟩
  · rintro ⟨⟨k, rfl⟩, hm, hm'⟩
    cases k with
    | zero => omega
    | succ k => exact ⟨⟨k, (double_pow size k).symm⟩, hm, hm'⟩

theorem largest_self {size : Nat} (h : 2 ^ 30 ≤ size) (h' : size < 2 ^ 31) : Largest size size :=
  ⟨⟨0, (Nat.mul_one size).symm⟩, h, h'⟩

/-- Twice the size is enough for one character more, so that room is found until the size
cannot be doubled any more. -/
theorem room_iff : ∀ (ws : List Nat) (size : Nat) {cursor : Nat}, (∀ w ∈ ws, 1 ≤ w ∧ w ≤ 6) →
    cursor ≤ size → size < 2 ^ 31 → 6 ≤ size ∨ (cursor = 0 ∧ 3 ≤ size) →
    (Room size cursor ws ↔
      (ws ≠ [] → ∀ m, Largest size m → cursor + ws.dropLast.sum + 6 < m))
  | [], _, _, _, _, _, _ => by simp [Room]
  | w :: ws, size, cursor, hws, hcs, hlt, hsize => by
    obtain ⟨hw, hws⟩ := List.forall_mem_cons.mp hws
    have hlast : (w :: ws).dropLast.sum = if ws = [] then 0 else w + ws.dropLast.sum := by
      cases ws with
      | nil => rfl
      | cons w' ws => rw [List.dropLast_cons_cons, List.sum_cons, if_neg (by simp)]
    -- what is said of the others is said of all where it holds of this one
    have hall (m : Nat) (hm : cursor + 6 < m) :
        cursor + (w :: ws).dropLast.sum + 6 < m ↔
          (ws ≠ [] → cursor + w + ws.dropLast.sum + 6 < m) := by
      rw [hlast]
      by_cases hnil : ws = []
      · simp [hnil, hm]
      · rw [if_neg hnil, ← Nat.add_assoc]
        exact ⟨fun h _ => h, fun h => h hnil⟩
    rw [Room, ensured]
    by_cases hroom : size ≤ cursor + 6
    · rw [if_pos hroom, twice_toNat hlt]
      by_cases h30 : size < 2 ^ 30
      · rw [if_pos h30, and_iff_right (by omega),
          room_iff ws (2 * size) hws (by omega) (by omega) (by omega)]
        simp only [largest_double h30]
        have hm (m : Nat) (h : Largest size m) : cursor + 6 < m := by
          have := h.cases
          obtain ⟨-, h, -⟩ := h
          omega
        constructor
        · exact fun h _ m hl => (hall m (hm m hl)).mpr fun hne => h hne m hl
        · exact fun h hne m hl => (hall m (hm m hl)).mp (h (by simp) m hl) hne
      · rw [if_neg h30]
        refine iff_of_false (by omega) fun h => ?_
        have := h (by simp) size (largest_self (by omega) hlt)
        omega
    · rw [if_neg hroom, and_iff_right (by omega), room_iff ws size hws (by omega) hlt (by omega)]
      have hm (m : Nat) (h : Largest size m) : cursor + 6 < m := by
        have := h.cases
        omega
      constructor
      · exact fun h _ m hl => (hall m (hm m hl)).mpr fun hne => h hne m hl
      · exact fun h hne m hl => (hall m (hm m hl)).mp (h (by simp) m hl) hne

/-- The strings whose characters find room. An array of one byte grows to two bytes and one of
two bytes to four; and the output before the last character ends seven bytes before the end of
the largest array. -/
structure Fits (s : Str) : Prop where
  one : s.length = 1 → (widths s).sum ≤ 2
  two : s.length = 2 → (widths s).headD 0 ≤ 4 ∧ (widths s).sum ≤ 8
  largest : ∀ m, Largest s.length m → (widths s).dropLast.sum + 6 < m

theorem widths_ne_nil (u : UInt16) (src : Str) : widths (u :: src) ≠ [] := by
  rw [(character_spec u src).1]
  exact List.cons_ne_nil _ _

/-- The array of a string of up to two units grows by the characters one by one. -/
theorem room_short : ∀ (s : Str), s.length ≤ 2 → (Room s.length 0 (widths s) ↔
    (s.length = 1 → (widths s).sum ≤ 2) ∧
      (s.length = 2 → (widths s).headD 0 ≤ 4 ∧ (widths s).sum ≤ 8))
  | [], _ => by simp [widths, Room]
  | [u], _ => by
    have htwice : (twice 1).toNat = 2 := rfl
    simp [widths, Room, ensured, htwice]
  | [u, low], _ => by
    have htwice : (twice 2).toNat = 4 := rfl
    have htwice' : (twice 4).toNat = 8 := rfl
    have hu := width_bounds u
    cases hp : isPair u low with
    | true => simp [widths, hp, Room, ensured, htwice]
    | false => simp [widths, hp, Room, ensured, htwice, htwice']
  | _ :: _ :: _ :: _, h => absurd h (by simp)

theorem dropLast_short : ∀ (s : Str), s.length ≤ 2 → (widths s).dropLast.sum ≤ 6
  | [], _ => by simp [widths]
  | [u], _ => by simp [widths]
  | [u, low], _ => by
    have hu := width_bounds u
    cases hp : isPair u low <;> simp [widths, hp, hu]
  | _ :: _ :: _ :: _, h => absurd h (by simp)

/-- Every byte of a string is written inside the array if and only if the string fits. -/
theorem escapedString_isSome (s : { s : Str // s.length < 2 ^ 31 }) :
    (escapedString uninitialized s.1).isSome ↔ Fits s.1 := by
  obtain ⟨s, hs⟩ := s
  rw [escapedString_isSome_iff]
  by_cases h2 : s.length ≤ 2
  · rw [room_short s h2]
    have hlargest (m : Nat) (h : Largest s.length m) : (widths s).dropLast.sum + 6 < m := by
      have := dropLast_short s h2
      obtain ⟨-, hm, -⟩ := h
      omega
    exact ⟨fun h => ⟨h.1, h.2, hlargest⟩, fun h => ⟨h.one, h.two⟩⟩
  · rw [room_iff _ _ (widths_bounds s) (Nat.zero_le _) hs (by omega)]
    obtain ⟨u, src, rfl⟩ : ∃ u src, s = u :: src := by
      cases s with
      | nil => simp at h2
      | cons u src => exact ⟨u, src, rfl⟩
    simp only [ne_eq, widths_ne_nil, not_false_eq_true, forall_const, Nat.zero_add]
    exact ⟨fun h => ⟨fun h' => by omega, fun h' => by omega, h⟩, fun h => h.largest⟩

/-- A control character alone: six bytes go to an array of two. -/
theorem escapedString_control : escapedString (fun _ => 0) [1] = none := by decide

end Libpdk.Json.Writer

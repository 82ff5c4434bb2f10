import Libpdk.Codecs.Utf8Exact

/-!
# Encoding UTF-8 in chunks

The units of a string in chunks through one state that ignores the header. A unit that
is or is taken for a surrogate is held at the end of a chunk and goes in front of the
next one, so what is encoded does not depend on the chunks (`encodeSteps_append`). The
array of a call has three bytes for each unit of its chunk: `chunks_iff` says when what
is written, which has the held unit too, exceeds it.
-/
namespace Libpdk.Codecs.Utf8

open Character Unicode

/-- What is made of units one at a time: bytes, errors, and the unit that is held. -/
@[grind =] def encodeSteps (replacement : UInt8) : Str → Bytes × Nat × Option UInt16
  | [] => ([], 0, none)
  | u :: src =>
    match _h : toUtf8 u src with
    | .endOfString => ([], 0, some u)
    | .error =>
      let (bytes, invalid, held) := encodeSteps replacement src
      (replacement :: bytes, invalid + 1, held)
    | .done bytes src' =>
      let (bytes', invalid, held) := encodeSteps replacement src'
      (bytes ++ bytes', invalid, held)
termination_by src => src.length
decreasing_by
  · simp
  · rcases toUtf8_done _h with h' | ⟨low, h'⟩ <;> rw [h'] <;> simp only [List.length_cons] <;> omega

variable (r : UInt8)

@[simp] theorem encodeSteps_nil : encodeSteps r [] = ([], 0, none) := by rw [encodeSteps]

theorem encodeSteps_done {u : UInt16} {src src' : Str} {bytes : Bytes}
    (h : toUtf8 u src = .done bytes src') :
    encodeSteps r (u :: src) =
      (bytes ++ (encodeSteps r src').1, (encodeSteps r src').2) := by
  rw [encodeSteps]
  split <;> rename_i h' <;> rw [h] at h' <;> cases h'
  rfl

theorem encodeSteps_error {u : UInt16} {src : Str} (h : toUtf8 u src = .error) :
    encodeSteps r (u :: src) =
      (r :: (encodeSteps r src).1, (encodeSteps r src).2.1 + 1, (encodeSteps r src).2.2) := by
  rw [encodeSteps]
  split <;> rename_i h' <;> rw [h] at h' <;> cases h'

theorem encodeSteps_end {u : UInt16} {src : Str} (h : toUtf8 u src = .endOfString) :
    encodeSteps r (u :: src) = ([], 0, some u) := by
  rw [encodeSteps]
  split <;> rename_i h' <;> rw [h] at h' <;> cases h'

theorem encodeSteps_held {u : UInt16} (h : isSurrogate u.toNat = true) :
    encodeSteps r [u] = ([], 0, some u) := by
  refine encodeSteps_end r ?_
  rw [toUtf8_not_pair h (by simp), if_pos rfl]

/-! ## What one unit does -/

def isPair (u low : UInt16) : Bool := isHighSurrogate u.toNat && isLowSurrogate low.toNat

/-- A unit that is no surrogate to the code does not look at the next one. -/
theorem toUtf8_single {u : UInt16} (h : isSurrogate u.toNat = false) :
    ∃ bytes, (∀ src, toUtf8 u src = .done bytes src) ∧ bytes.length ≤ 3 ∧
      (bytes.length = 3 ↔ 0x800 ≤ u.toNat) := by
  by_cases h80 : u.toNat < 0x80
  · refine ⟨[_], fun src => by rw [toUtf8, if_pos h80], by simp, ?_⟩
    exact iff_of_false (by simp) (by omega)
  by_cases h800 : u.toNat < 0x800
  · refine ⟨[_, _], fun src => by rw [toUtf8, if_neg h80, if_pos h800], by simp, ?_⟩
    exact iff_of_false (by simp) (by omega)
  · refine ⟨[_, _, _], fun src => by rw [toUtf8, if_neg h80, if_neg h800, h]; rfl, by simp, ?_⟩
    exact iff_of_true rfl (by omega)

theorem isSurrogate_of_high {u : UInt16} (h : isHighSurrogate u.toNat = true) :
    isSurrogate u.toNat = true := by
  have hlt := u.toNat_lt
  rw [isHighSurrogate_iff (by omega)] at h
  rw [isSurrogate_iff (by omega)]
  omega

theorem toUtf8_pair {u low : UInt16} (h : isPair u low = true) :
    ∃ bytes, (∀ src, toUtf8 u (low :: src) = .done bytes src) ∧ bytes.length = 4 := by
  rw [isPair, Bool.and_eq_true] at h
  have hs := isSurrogate_of_high h.1
  have hu := (isSurrogate_iff (by have := u.toNat_lt; omega)).mp hs
  have hpair (src : Str) : toUtf8 u (low :: src) = toUtf8Pair u (low :: src) := by
    rw [toUtf8, if_neg (by omega), if_neg (by omega), hs]
    rfl
  simp only [hpair, toUtf8Pair, h.1, h.2, Bool.not_true, Bool.false_eq_true, if_false]
  exact ⟨_, fun _ => rfl, rfl⟩

theorem toUtf8_broken {u low : UInt16} (hs : isSurrogate u.toNat = true)
    (h : isPair u low = false) (src : Str) : toUtf8 u (low :: src) = .error := by
  rw [toUtf8_not_pair hs, if_neg (by simp)]
  intro low' src' he hp
  rw [List.cons.injEq] at he
  rw [isPair, he.1, hp.1, hp.2] at h
  exact absurd h (by simp)

/-- What is encoded does not depend on where the units are cut. -/
theorem encodeSteps_append : ∀ (a b : Str), encodeSteps r (a ++ b) =
    let first := encodeSteps r a
    let second := encodeSteps r (first.2.2.toList ++ b)
    (first.1 ++ second.1, first.2.1 + second.2.1, second.2.2)
  | [], b => by simp
  | [u], b => by
    cases hs : isSurrogate u.toNat with
    | true => simp [encodeSteps_held r hs]
    | false =>
      obtain ⟨bytes, hdone, -⟩ := toUtf8_single hs
      rw [List.singleton_append, encodeSteps_done r (hdone b), encodeSteps_done r (hdone [])]
      simp
  | u :: low :: a, b => by
    rw [List.cons_append, List.cons_append]
    cases hs : isSurrogate u.toNat with
    | false =>
      obtain ⟨bytes, hdone, -⟩ := toUtf8_single hs
      rw [encodeSteps_done r (hdone _), encodeSteps_done r (hdone _), ← List.cons_append,
        encodeSteps_append (low :: a) b]
      simp
    | true =>
      cases hp : isPair u low with
      | true =>
        obtain ⟨bytes, hdone, -⟩ := toUtf8_pair hp
        rw [encodeSteps_done r (hdone _), encodeSteps_done r (hdone _), encodeSteps_append a b]
        simp
      | false =>
        rw [encodeSteps_error r (toUtf8_broken hs hp _), encodeSteps_error r (toUtf8_broken hs hp _),
          ← List.cons_append, encodeSteps_append (low :: a) b]
        simp [Nat.add_right_comm]

/-! ## The unit that is held -/

/-- A unit at the end that is or is taken for a surrogate and completes no pair. -/
def held : Str → Option UInt16
  | [] => none
  | [u] => if isSurrogate u.toNat then some u else none
  | u :: low :: s => if isPair u low then held s else held (low :: s)

theorem encodeSteps_snd : ∀ s : Str, (encodeSteps r s).2.2 = held s
  | [] => by simp [held]
  | [u] => by
    rw [held]
    cases hs : isSurrogate u.toNat with
    | true => simp [encodeSteps_held r hs]
    | false =>
      obtain ⟨bytes, hdone, -⟩ := toUtf8_single hs
      rw [encodeSteps_done r (hdone [])]
      simp
  | u :: low :: s => by
    rw [held]
    cases hp : isPair u low with
    | true =>
      obtain ⟨bytes, hdone, -⟩ := toUtf8_pair hp
      rw [encodeSteps_done r (hdone _), encodeSteps_snd s]
      simp
    | false =>
      cases hs : isSurrogate u.toNat with
      | true =>
        rw [encodeSteps_error r (toUtf8_broken hs hp _), encodeSteps_snd (low :: s)]
        simp
      | false =>
        obtain ⟨bytes, hdone, -⟩ := toUtf8_single hs
        rw [encodeSteps_done r (hdone _), encodeSteps_snd (low :: s)]
        simp

theorem held_surrogate {s : Str} {p : UInt16} (h : held s = some p) :
    isSurrogate p.toNat = true := by
  fun_induction held s with
  | case1 => exact absurd h (by simp)
  | case2 u hs =>
    rw [← Option.some_inj.mp h]
    exact hs
  | case3 u hs => exact absurd h (by simp)
  | case4 u low s hp ih => exact ih h
  | case5 u low s hp ih => exact ih h

/-- Encoding goes on with the unit that is held. -/
theorem encodeSteps_split (s x : Str) : encodeSteps r (s ++ x) =
    ((encodeSteps r s).1 ++ (encodeSteps r ((held s).toList ++ x)).1,
      (encodeSteps r s).2.1 + (encodeSteps r ((held s).toList ++ x)).2.1,
      (encodeSteps r ((held s).toList ++ x)).2.2) := by
  rw [encodeSteps_append, ← encodeSteps_snd r s]

/-! ## How much is written -/

/-- A unit of three bytes. -/
def wide (u : UInt16) : Bool := decide (0x800 ≤ u.toNat) && !isSurrogate u.toNat

theorem wide_of_surrogate {u : UInt16} (h : isSurrogate u.toNat = true) : wide u = false := by
  rw [wide, h, Bool.not_true, Bool.and_false]

/-- At most three bytes for each unit, and fewer unless each has three. -/
theorem encodeSteps_length : ∀ s : Str, (encodeSteps r s).1.length ≤ 3 * s.length ∧
    ((encodeSteps r s).1.length = 3 * s.length ↔ ∀ u ∈ s, wide u = true)
  | [] => by simp
  | u :: s => by
    rw [List.length_cons, List.forall_mem_cons]
    cases hs : isSurrogate u.toNat with
    | false =>
      obtain ⟨bytes, hdone, hle, h3⟩ := toUtf8_single hs
      obtain ⟨ih, ihw⟩ := encodeSteps_length s
      have hw : wide u = true ↔ bytes.length = 3 := by
        rw [wide, hs, h3]
        simp
      rw [encodeSteps_done r (hdone s), List.length_append, hw, ← ihw]
      omega
    | true =>
      rw [wide_of_surrogate hs]
      cases s with
      | nil =>
        rw [encodeSteps_held r hs]
        simp
      | cons low s =>
        rw [List.length_cons]
        cases hp : isPair u low with
        | true =>
          obtain ⟨bytes, hdone, h4⟩ := toUtf8_pair hp
          have ih := (encodeSteps_length s).1
          rw [encodeSteps_done r (hdone s), List.length_append, h4]
          refine ⟨by omega, fun h => by omega, fun h => absurd h.1 (by simp)⟩
        | false =>
          have ih := (encodeSteps_length (low :: s)).1
          rw [List.length_cons] at ih
          rw [encodeSteps_error r (toUtf8_broken hs hp s), List.length_cons]
          refine ⟨by omega, fun h => by omega, fun h => absurd h.1 (by simp)⟩

/-- The units of a chunk behind the one that completes the unit held before it. -/
def behind (p : UInt16) : Str → Str
  | [] => []
  | low :: x => if isPair p low then x else low :: x

/-- What is written for a held unit and a chunk is more than three bytes for each unit of the
chunk where each unit behind the pair has three. -/
theorem encodeSteps_exceeds {p : UInt16} (hp : isSurrogate p.toNat = true) {x : Str} (hx : x ≠ []) :
    3 * x.length < (encodeSteps r (p :: x)).1.length ↔ ∀ u ∈ behind p x, wide u = true := by
  obtain ⟨low, x, rfl⟩ := List.exists_cons_of_ne_nil hx
  rw [behind, List.length_cons]
  cases hpair : isPair p low with
  | true =>
    obtain ⟨bytes, hdone, h4⟩ := toUtf8_pair hpair
    obtain ⟨hle, hw⟩ := encodeSteps_length r x
    rw [encodeSteps_done r (hdone x), List.length_append, h4, if_pos rfl, ← hw]
    omega
  | false =>
    obtain ⟨hle, hw⟩ := encodeSteps_length r (low :: x)
    rw [encodeSteps_error r (toUtf8_broken hp hpair x), List.length_cons, if_neg (by simp), ← hw]
    rw [List.length_cons] at hle ⊢
    omega

/-- What is written exceeds the array: a unit is held, and each unit behind the pair that it may
complete has three bytes. -/
def Exceeds (before x : Str) : Prop :=
  x ≠ [] ∧ ∃ p, held before = some p ∧ ∀ u ∈ behind p x, wide u = true

theorem call_exceeds (before x : Str) :
    3 * x.length < (encodeSteps r ((held before).toList ++ x)).1.length ↔ Exceeds before x := by
  rw [Exceeds]
  cases hp : held before with
  | none =>
    have hle := (encodeSteps_length r x).1
    simp only [Option.toList_none, List.nil_append, reduceCtorEq, false_and, exists_false, and_false,
      iff_false, not_lt]
    exact hle
  | some p =>
    have hs := held_surrogate hp
    by_cases hx : x = []
    · subst hx
      simp [encodeSteps_held r hs]
    · simp only [Option.toList_some, List.singleton_append, Option.some_inj, exists_eq_left', hx,
        ne_eq, not_false_eq_true, true_and]
      exact encodeSteps_exceeds r hs hx

/-- Every element of a list with what is before it: the first one, and those behind it. -/
theorem forall_cons_split {α : Type} {a : α} {l : List α} {P : List α → α → Prop} :
    (∀ pre x post, a :: l = pre ++ x :: post → P pre x) ↔
      P [] a ∧ ∀ pre x post, l = pre ++ x :: post → P (a :: pre) x := by
  constructor
  · intro h
    exact ⟨h [] a l rfl, fun pre x post he => h (a :: pre) x post (by rw [he]; rfl)⟩
  · rintro ⟨h₁, h₂⟩ pre x post he
    cases pre with
    | nil =>
      rw [List.nil_append, List.cons.injEq] at he
      exact he.1 ▸ h₁
    | cons b pre =>
      rw [List.cons_append, List.cons.injEq] at he
      exact he.1 ▸ h₂ pre x post he.2

/-! ## The loop -/

theorem encodeSteps_ascii : ∀ {front : Str}, (∀ u ∈ front, asciiUnit u = true) → ∀ src : Str,
    encodeSteps r (front ++ src) =
      (front.map UInt16.toUInt8 ++ (encodeSteps r src).1, (encodeSteps r src).2)
  | [], _, _ => rfl
  | u :: front, h, src => by
    have hu : u.toNat < 0x80 := by
      have := h u (by simp)
      rw [asciiUnit, decide_eq_true_eq] at this
      exact this.2
    have ih : encodeSteps r (front ++ src) = _ :=
      encodeSteps_ascii (fun x hx => h x (by simp [hx])) src
    have hdone : toUtf8 u (front ++ src) = .done [u.toUInt8] (front ++ src) := by
      rw [toUtf8, if_pos hu]
      rfl
    rw [List.cons_append, encodeSteps_done r hdone, ih]
    rfl

section Build

variable [Build]

/-- What the loop does from `e`. -/
structure Encodes (e e' : Encoding) : Prop where
  out : e'.out = e.out ++ (encodeSteps r (e.surrogateHigh.toList ++ e.src)).1
  invalid : e'.invalid = e.invalid + (encodeSteps r (e.surrogateHigh.toList ++ e.src)).2.1
  held : e'.surrogateHigh = (encodeSteps r (e.surrogateHigh.toList ++ e.src)).2.2

/-- The next unit is the first one of what is to be encoded, after ASCII that is copied. -/
theorem nextUnit_spec (e : Encoding) : ∃ front next e', nextUnit e = (next, e') ∧
    e'.surrogateHigh = none ∧ e'.invalid = e.invalid ∧ (∀ u ∈ front, asciiUnit u = true) ∧
    e'.out = e.out ++ front.map UInt16.toUInt8 ∧
    e.surrogateHigh.toList ++ e.src = front ++ (next.toList ++ e'.src) ∧
    (next = none → e'.src = []) := by
  rw [nextUnit]
  split
  · rename_i uc hs
    exact ⟨[], some uc, _, rfl, rfl, rfl, by simp, by simp, by rw [hs]; rfl, by simp⟩
  · rename_i hs
    have hcopied : ∃ front, Copied asciiUnit UInt16.toUInt8 e.src front
        (if e.src.length ≤ e.nextAscii then simdEncodeAscii e.nextAscii e.src
          else ⟨[], e.src, e.nextAscii, false⟩) := by
      split
      · exact simdEncodeAscii_copied e.nextAscii e.src
      · exact ⟨[], rfl, by simp, rfl, by simp⟩
    obtain ⟨front, hc⟩ := hcopied
    generalize (if e.src.length ≤ e.nextAscii then simdEncodeAscii e.nextAscii e.src
      else ⟨[], e.src, e.nextAscii, false⟩) = scan at hc
    simp only
    split
    · rename_i hd
      refine ⟨front, _, _, rfl, hs, rfl, hc.plain, by rw [hc.out], ?_, fun _ => hc.done hd⟩
      rw [hs]
      exact hc.src
    · refine ⟨front, _, _, rfl, hs, rfl, hc.plain, by rw [hc.out], ?_, fun hnone => ?_⟩
      · rw [hs]
        simp only [Option.toList_none, List.nil_append]
        conv_lhs => rw [hc.src]
        cases scan.src <;> rfl
      · rw [List.head?_eq_none_iff] at hnone
        simp [hnone]

theorem encodeLoop_encodes : ∀ (rounds : Nat) {e : Encoding},
    (∀ p, e.surrogateHigh = some p → isSurrogate p.toNat = true) →
    e.src.length + e.surrogateHigh.toList.length ≤ rounds →
    Encodes r e (encodeLoop r rounds e)
  | 0, e, _, hr => by
    have hsrc : e.src = [] := List.length_eq_zero_iff.mp (by omega)
    have hnone : e.surrogateHigh.toList = [] := List.length_eq_zero_iff.mp (by omega)
    rw [encodeLoop]
    refine ⟨?_, ?_, ?_⟩ <;> rw [hsrc, hnone]
    · simp
    · simp
    · simpa using hnone
  | rounds + 1, e, hp, hr => by
    rw [encodeLoop]
    split
    · rename_i hsrc
      cases hs : e.surrogateHigh with
      | none => refine ⟨?_, ?_, ?_⟩ <;> rw [hsrc, hs] <;> simp
      | some p =>
        have hheld := encodeSteps_held r (hp p hs)
        refine ⟨?_, ?_, ?_⟩ <;> rw [hsrc, hs, Option.toList_some, List.append_nil, hheld] <;> simp
    rename_i hne
    obtain ⟨front, next, e₁, he, hs', hinv, hascii, hout, hsplit, hnone⟩ := nextUnit_spec e
    have hlen := congrArg List.length hsplit
    simp only [List.length_append] at hlen
    have hsteps := encodeSteps_ascii r hascii (next.toList ++ e₁.src)
    rw [← hsplit] at hsteps
    rw [he]
    obtain ⟨surrogateHigh, src₁, nextAscii₁, out₁, invalid₁⟩ := e₁
    obtain rfl : surrogateHigh = none := hs'
    simp only at hinv hout hlen hsteps
    cases next with
    | none =>
      have hsrc : src₁ = [] := hnone rfl
      rw [hsrc] at hsteps
      simp only [Option.toList_none, List.append_nil, encodeSteps_nil] at hsteps
      refine ⟨?_, ?_, ?_⟩ <;> rw [hsteps]
      · exact hout
      · exact hinv
    | some uc =>
      simp only [Option.toList_some, List.singleton_append, List.length_cons, List.length_nil]
        at hsteps hlen
      simp only
      split
      · rename_i bytes src hdone
        have hle : src.length ≤ src₁.length := by
          rcases toUtf8_done hdone with h | ⟨low, h⟩
          · rw [h]
          · simp [h]
        obtain ⟨ho, hi, hh⟩ := encodeLoop_encodes rounds
          (e := ⟨none, src, nextAscii₁, out₁ ++ bytes, invalid₁⟩) (by simp)
          (by simp only [Option.toList_none, List.length_nil]; omega)
        simp only [Option.toList_none, List.nil_append] at ho hi hh
        rw [encodeSteps_done r hdone] at hsteps
        refine ⟨?_, ?_, ?_⟩ <;> rw [hsteps]
        · rw [ho, hout]
          simp
        · rw [hi, hinv]
        · rw [hh]
      · rename_i herror
        obtain ⟨ho, hi, hh⟩ := encodeLoop_encodes rounds
          (e := ⟨none, src₁, nextAscii₁, out₁ ++ [r], invalid₁ + 1⟩) (by simp)
          (by simp only [Option.toList_none, List.length_nil]; omega)
        simp only [Option.toList_none, List.nil_append] at ho hi hh
        rw [encodeSteps_error r herror] at hsteps
        refine ⟨?_, ?_, ?_⟩ <;> rw [hsteps]
        · rw [ho, hout]
          simp
        · rw [hi, hinv]
          exact Nat.succ_add_eq_add_succ _ _
        · rw [hh]
      · rename_i hend
        rw [encodeSteps_end r hend] at hsteps
        refine ⟨?_, ?_, ?_⟩ <;> rw [hsteps]
        · rw [List.append_nil]
          exact hout
        · exact hinv

/-! ## Runs -/

/-- The unit that a state holds. -/
def heldUnit (st : ConverterState UInt16) : Option UInt16 :=
  if st.remainingChars ≠ 0 then some st.stateData else none

/-- The chunks one after another with one state: of each call what it wrote and the size of its
array. -/
@[grind =] def encodeChunks : List Str → ConverterState UInt16 → List (Bytes × Nat) × ConverterState UInt16
  | [], st => ([], st)
  | x :: chunks, st =>
    let (bytes, rlen, st) := convertFromUnicodeState x st
    let (calls, st) := encodeChunks chunks st
    ((bytes, rlen) :: calls, st)

/-- A state that ignores the header. -/
def ignoringHeader (convertInvalidToNull : Bool) : ConverterState UInt16 :=
  ⟨true, convertInvalidToNull, 0, 0, 0⟩

/-- What is written for an invalid unit. -/
def invalidByte (convertInvalidToNull : Bool) : UInt8 :=
  if convertInvalidToNull then 0 else byte '?'

/-- A state after some units. -/
structure After (null : Bool) (s : Str) (st : ConverterState UInt16) : Prop where
  ignoreHeader : st.ignoreHeader = true
  toNull : st.convertInvalidToNull = null
  held : heldUnit st = held s
  invalid : st.invalidChars = (encodeSteps (invalidByte null) s).2.1

theorem convertFromUnicodeState_after {null : Bool} {s : Str} {st : ConverterState UInt16}
    (h : After null s st) (x : Str) :
    (convertFromUnicodeState x st).1 =
        (encodeSteps (invalidByte null) ((held s).toList ++ x)).1 ∧
      (convertFromUnicodeState x st).2.1 = 3 * x.length ∧
      After null (s ++ x) (convertFromUnicodeState x st).2.2 := by
  have hstart : (if st.remainingChars ≠ 0 then some st.stateData else none) = held s := h.held
  obtain ⟨ho, hi, hh⟩ := encodeLoop_encodes (invalidByte null) (x.length + 1)
    (e := ⟨held s, x, x.length, [], 0⟩) (fun p hp => held_surrogate hp)
    (by cases held s <;> simp)
  simp only [List.nil_append, Nat.zero_add] at ho hi hh
  have hsplit := encodeSteps_split (invalidByte null) s x
  rw [convertFromUnicodeState]
  simp only [h.ignoreHeader, h.toNull, hstart, Bool.not_true, Bool.false_eq_true, if_false,
    Nat.add_zero]
  rw [show (if null = true then (0 : UInt8) else byte '?') = invalidByte null from rfl]
  generalize encodeLoop (invalidByte null) (x.length + 1) ⟨held s, x, x.length, [], 0⟩ = e at ho hi hh
  refine ⟨ho, trivial, rfl, rfl, ?_, ?_⟩
  · have hheld : e.surrogateHigh = held (s ++ x) := by
      rw [hh, ← encodeSteps_snd (invalidByte null) (s ++ x), hsplit]
    rw [heldUnit, ← hheld]
    cases e.surrogateHigh <;> simp
  · simp only [h.invalid, hi, hsplit]

/-- A run encodes what all of its units encode to; its calls are those of its chunks. -/
theorem encodeChunks_after {null : Bool} : ∀ (chunks : List Str) {s : Str}
    {st : ConverterState UInt16}, After null s st →
    After null (s ++ chunks.flatten) (encodeChunks chunks st).2 ∧
      (encodeSteps (invalidByte null) s).1 ++ ((encodeChunks chunks st).1.map Prod.fst).flatten =
        (encodeSteps (invalidByte null) (s ++ chunks.flatten)).1 ∧
      ((∀ call ∈ (encodeChunks chunks st).1, call.1.length ≤ call.2) ↔
        ∀ pre x post, chunks = pre ++ x :: post → ¬ Exceeds (s ++ pre.flatten) x)
  | [], s, st, h => by simpa [encodeChunks] using h
  | x :: chunks, s, st, h => by
    obtain ⟨hbytes, hrlen, hafter⟩ := convertFromUnicodeState_after h x
    obtain ⟨ih, ihbytes, ihcalls⟩ := encodeChunks_after chunks hafter
    have hsplit := encodeSteps_split (invalidByte null) s x
    have hexceeds := call_exceeds (invalidByte null) s x
    rw [← hbytes, ← hrlen] at hexceeds
    rw [encodeChunks]
    generalize convertFromUnicodeState x st = call at *
    obtain ⟨bytes, rlen, st'⟩ := call
    simp only at *
    rw [List.flatten_cons, ← List.append_assoc]
    refine ⟨ih, ?_, ?_⟩
    · rw [← ihbytes, hsplit, ← hbytes]
      simp
    · rw [List.forall_mem_cons, ihcalls, forall_cons_split, List.flatten_nil, List.append_nil,
        ← hexceeds, not_lt]
      simp only [List.flatten_cons, List.append_assoc]

/-- A run of the chunks is one call on the whole, and what is written stays within its array,
exactly where no chunk exceeds it. -/
theorem encode_chunks_iff (convertInvalidToNull : Bool) (chunks : List Str) :
    let start := ignoringHeader convertInvalidToNull
    let run := encodeChunks chunks start
    let whole := convertFromUnicodeState chunks.flatten start
    ((run.1.map Prod.fst).flatten = whole.1 ∧ run.2.invalidChars = whole.2.2.invalidChars ∧
      heldUnit run.2 = heldUnit whole.2.2 ∧ ∀ call ∈ run.1, call.1.length ≤ call.2) ↔
    ∀ pre x post, chunks = pre ++ x :: post → ¬ Exceeds pre.flatten x := by
  have hstart : After convertInvalidToNull [] (ignoringHeader convertInvalidToNull) :=
    ⟨rfl, rfl, rfl, by simp [ignoringHeader]⟩
  obtain ⟨hrun, hbytes, hcalls⟩ := encodeChunks_after chunks hstart
  obtain ⟨hwhole, -, hafter⟩ := convertFromUnicodeState_after hstart chunks.flatten
  simp only [List.nil_append, encodeSteps_nil] at hrun hbytes hcalls hafter
  intro start run whole
  rw [← hcalls]
  refine ⟨fun h => h.2.2.2, fun h => ⟨?_, ?_, ?_, h⟩⟩
  · rw [hbytes, hwhole]
    simp [held]
  · rw [hrun.invalid, hafter.invalid]
  · rw [hrun.held, hafter.held]

end Build

/-- A surrogate pair in two chunks: four bytes are written to an array of three. -/
theorem encode_chunks_false :
    letI : Build := ⟨true⟩
    (encodeChunks [[0xd83d], [0xde00]] (ignoringHeader false)).1 =
      [([], 3), ([0xf0, 0x9f, 0x98, 0x80], 3)] := by
  decide

end Libpdk.Codecs.Utf8

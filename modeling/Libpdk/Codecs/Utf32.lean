import Libpdk.Codecs.Utf16
import Libpdk.Core.Mem

/-!
# UTF-32

`Utf32::convertFromUnicode` and `convertToUnicode`. The encoder makes room for four bytes a
unit and keeps all of it; the decoder never notes that it is behind the header. So a
character outside the first plane leaves bytes at the end that nobody wrote, and a U+FEFF
is dropped wherever it stands.
-/
namespace Libpdk.Codecs

open Io (Host ByteOrder)
open Incremental Unicode Character Mem

namespace Utf32

def replacementCharacter : Nat := 0xfffd

/-- The character at a unit, and what is behind it.
mirrors lang/StringIterator.h:126-137 -/
def next (uc : UInt16) (rest : Str) : Nat × Str :=
  if isSurrogate uc.toNat then
    if isHighSurrogate uc.toNat then
      match rest with
      | [] => (replacementCharacter, [])
      | low :: rest =>
        if isLowSurrogate low.toNat then (surrogateToUcs4 uc low, rest)
        else (replacementCharacter, low :: rest)
    else (replacementCharacter, rest)
  else (uc.toNat, rest)

theorem next_length (uc : UInt16) (rest : Str) : (next uc rest).2.length ≤ rest.length := by
  simp only [next]
  split
  · split
    · split
      · exact Nat.le_refl _
      split
      · exact Nat.le_succ _
      · exact Nat.le_refl _
    · exact Nat.le_refl _
  · exact Nat.le_refl _

def codePoints : Str → List Nat
  | [] => []
  | uc :: rest => (next uc rest).1 :: codePoints (next uc rest).2
termination_by s => s.length
decreasing_by exact Nat.lt_succ_of_le (next_length uc rest)

def bom (endian : DataEndianness) : Bytes :=
  if endian = .bigEndianness then [0, 0, 0xfe, 0xff] else [0xff, 0xfe, 0, 0]

def put (endian : DataEndianness) (cp : Nat) : Bytes :=
  if endian = .bigEndianness then (toLe 4 cp).reverse else toLe 4 cp

/-- The whole tuples of a stream. -/
def tuples : Bytes → List Bytes
  | a :: b :: c :: d :: rest => [a, b, c, d] :: tuples rest
  | _ => []

theorem length_of_mem_tuples {t b : Bytes} (h : t ∈ tuples b) : t.length = 4 := by
  fun_induction tuples b with
  | case1 a b c d rest ih =>
    rcases List.mem_cons.mp h with rfl | h
    · rfl
    · exact ih h
  | case2 => simp at h

def charsOf (code : Nat) : Str :=
  if requiresSurrogates code then [getHighSurrogate code, getLowSurrogate code]
  else [UInt16.ofNat code]

theorem charsOf_ne_nil (n : Nat) : charsOf n ≠ [] := by
  rw [charsOf]
  split <;> simp

/-- What is kept of a list where some are dropped. -/
theorem flatMap_filter_eq_iff {α β : Type} {f : α → List β} (hf : ∀ x, f x ≠ []) {p : α → Bool}
    (l : List α) : (l.filter p).flatMap f = l.flatMap f ↔ ∀ x ∈ l, p x = true := by
  constructor
  · intro h x hx
    by_contra hp
    obtain ⟨a, b, rfl⟩ := List.append_of_mem hx
    have hle : ∀ l : List α, ((l.filter p).flatMap f).length ≤ (l.flatMap f).length := by
      intro l
      induction l with
      | nil => exact Nat.le_refl _
      | cons x l ih =>
        rw [List.filter_cons]
        split <;> simp only [List.flatMap_cons, List.length_append] <;> omega
    have hlen := congrArg List.length h
    rw [List.filter_append, List.filter_cons_of_neg hp] at hlen
    simp only [List.flatMap_append, List.flatMap_cons, List.length_append] at hlen
    have ha := hle a
    have hb := hle b
    have := List.length_pos_of_ne_nil (hf x)
    omega
  · intro h
    rw [List.filter_eq_self.mpr h]

/-- `from_big_endian` and `from_little_endian` -/
def code (endian : DataEndianness) (tuple : Bytes) : Nat :=
  if endian = .bigEndianness then ofLe tuple.reverse else ofLe tuple

/-- What the iterator makes of a character. -/
def seen (c : Char) : Nat := if Mistaken c then replacementCharacter else c.toNat

theorem seen_lt (c : Char) : seen c < 256 ^ 4 := by
  have hc := scalar c
  rw [seen, replacementCharacter]
  split <;> omega

theorem next_of_lt {c : Char} (h : c.toNat < 0x10000) (rest : Str) :
    next (UInt16.ofNat c.toNat) rest = (seen c, rest) := by
  have hc := scalar c
  have hh : isHighSurrogate c.toNat = false := by
    rw [Bool.eq_false_iff, ne_eq, isHighSurrogate_iff (by omega)]
    omega
  simp only [next, toNat_ofNat16 h, hh]
  by_cases hm : isSurrogate c.toNat = true
  · have hs : seen c = replacementCharacter := if_pos hm
    rw [if_pos hm, hs]
    rfl
  · have hs : seen c = c.toNat := if_neg hm
    rw [if_neg hm, hs]

theorem next_of_ge {c : Char} (h : 0x10000 ≤ c.toNat) (rest : Str) :
    units c = [getHighSurrogate c.toNat, getLowSurrogate c.toNat] ∧
      next (getHighSurrogate c.toNat) (getLowSurrogate c.toNat :: rest) = (seen c, rest) := by
  have hc := scalar c
  have hhigh : (getHighSurrogate c.toNat).toNat = 0xd800 + (c.toNat - 0x10000) / 0x400 := by
    rw [getHighSurrogate_eq h (by omega), toNat_ofNat16 (by omega)]
  have hlow : (getLowSurrogate c.toNat).toNat = 0xdc00 + c.toNat % 0x400 := by
    rw [getLowSurrogate_eq, toNat_ofNat16 (by omega)]
  have hs : isSurrogate (getHighSurrogate c.toNat).toNat = true := by
    rw [isSurrogate_iff (by omega)]
    omega
  have hh : isHighSurrogate (getHighSurrogate c.toNat).toNat = true := by
    rw [isHighSurrogate_iff (by omega)]
    omega
  have hl : isLowSurrogate (getLowSurrogate c.toNat).toNat = true := by
    rw [isLowSurrogate_iff (by omega)]
    omega
  have hm : ¬Mistaken c := by
    rw [mistaken_iff]
    omega
  refine ⟨surrogates h, ?_⟩
  simp only [next]
  rw [if_pos hs, if_pos hh, if_pos hl, surrogateToUcs4_eq (by omega) (by omega) (by omega) (by omega),
    hhigh, hlow, seen, if_neg hm]
  refine Prod.ext ?_ rfl
  simp only
  omega

theorem codePoints_utf16 (text : List Char) : codePoints (utf16 text) = text.map seen := by
  induction text with
  | nil => rw [utf16_nil, codePoints, List.map_nil]
  | cons c text ih =>
    rw [utf16_cons, List.map_cons]
    rcases Nat.lt_or_ge c.toNat 0x10000 with h | h
    · rw [units_of_lt h, List.singleton_append, codePoints, next_of_lt h, ih]
    · obtain ⟨hu, hn⟩ := next_of_ge h (utf16 text)
      rw [hu, List.cons_append, List.cons_append, List.nil_append, codePoints, hn, ih]

theorem seen_of_not {c : Char} (h : ¬Mistaken c) : seen c = c.toNat := if_neg h

/-- A character that is taken for a surrogate is not seen. -/
theorem seen_eq_iff (c : Char) : seen c = c.toNat ↔ ¬Mistaken c := by
  constructor
  · intro h hm
    rw [seen, if_pos hm, replacementCharacter] at h
    have := (mistaken_iff c).mp hm
    omega
  · exact seen_of_not

@[simp] theorem length_put (endian : DataEndianness) (cp : Nat) : (put endian cp).length = 4 := by
  rw [put]
  split
  · rw [List.length_reverse, length_toLe]
  · rw [length_toLe]

theorem length_flatMap_put (endian : DataEndianness) (cps : List Nat) :
    (cps.flatMap (put endian)).length = 4 * cps.length := by
  induction cps with
  | nil => rfl
  | cons cp cps ih =>
    rw [List.flatMap_cons, List.length_append, ih, length_put, List.length_cons]
    omega

theorem code_put (endian : DataEndianness) {cp : Nat} (h : cp < 256 ^ 4) :
    code endian (put endian cp) = cp := by
  rw [code, put]
  split
  · rw [List.reverse_reverse, ofLe_toLe h]
  · exact ofLe_toLe h

/-- Characters outside the first plane. -/
def supplementary (text : List Char) : Nat := text.countP fun c => decide (0x10000 ≤ c.toNat)

theorem length_utf16 (text : List Char) :
    (utf16 text).length = text.length + supplementary text := by
  induction text with
  | nil => rfl
  | cons c text ih =>
    have hc : supplementary (c :: text) =
        supplementary text + if decide (0x10000 ≤ c.toNat) then 1 else 0 := List.countP_cons
    rw [utf16_cons, List.length_append, ih, List.length_cons, hc]
    rcases Nat.lt_or_ge c.toNat 0x10000 with h | h
    · rw [units_of_lt h, if_neg (by simpa using h), List.length_singleton]
      omega
    · rw [units_of_ge h, if_pos (by simpa using h)]
      simp only [List.length_cons, List.length_nil]
      omega

theorem supplementary_eq_zero (text : List Char) :
    supplementary text = 0 ↔ ∀ c ∈ text, c.toNat < 0x10000 := by
  rw [supplementary, List.countP_eq_zero]
  simp only [decide_eq_true_eq, Nat.not_le]

theorem charsOf_toNat (c : Char) : charsOf c.toNat = units c := by
  rw [charsOf]
  rcases Nat.lt_or_ge c.toNat 0x10000 with h | h
  · rw [if_neg (by rw [requiresSurrogates_iff]; omega), units_of_lt h]
  · rw [if_pos (requiresSurrogates_iff.mpr h), surrogates h]

/-- The characters that come back. -/
def Returns (c : Char) : Prop :=
  c.toNat < 0x10000 ∧ ¬Mistaken c ∧ c.toNat ≠ byteOrderMark.toNat

instance : DecidablePred Returns := fun _ => inferInstanceAs (Decidable (_ ∧ _))

theorem seen_of_returns {text : List Char} (h : ∀ c ∈ text, Returns c) :
    ((text.map seen).filter (· ≠ byteOrderMark.toNat)).flatMap charsOf = utf16 text := by
  induction text with
  | nil => rfl
  | cons c text ih =>
    obtain ⟨-, hm, hne⟩ := h c List.mem_cons_self
    rw [List.map_cons, seen_of_not hm, List.filter_cons_of_pos (by simpa using hne),
      List.flatMap_cons, charsOf_toNat, ih fun d hd => h d (List.mem_cons_of_mem _ hd), utf16_cons]

/-- One unit for each character in the first plane, and none for those that are dropped. -/
theorem length_seen {text : List Char} (h : ∀ c ∈ text, c.toNat < 0x10000) :
    (((text.map seen).filter (· ≠ byteOrderMark.toNat)).flatMap charsOf).length ≤ text.length := by
  induction text with
  | nil => exact Nat.le_refl _
  | cons c text ih =>
    have ih := ih fun d hd => h d (List.mem_cons_of_mem _ hd)
    have hc := h c List.mem_cons_self
    have hs : seen c < 0x10000 := by
      rw [seen, replacementCharacter]
      split <;> omega
    have hl : (charsOf (seen c)).length = 1 := by
      rw [charsOf, if_neg (by rw [requiresSurrogates_iff]; omega), List.length_singleton]
    rw [List.map_cons, List.filter_cons, List.length_cons]
    split
    · rw [List.flatMap_cons, List.length_append, hl]
      omega
    · omega

theorem returns_of_seen {text : List Char} (h : ∀ c ∈ text, c.toNat < 0x10000)
    (he : ((text.map seen).filter (· ≠ byteOrderMark.toNat)).flatMap charsOf = utf16 text) :
    ∀ c ∈ text, Returns c := by
  induction text with
  | nil => simp
  | cons c text ih =>
    have htext := fun d hd => h d (List.mem_cons_of_mem c hd)
    have hc := h c List.mem_cons_self
    have hlen := length_seen htext
    have hsup := (supplementary_eq_zero text).mpr htext
    have hu := length_utf16 text
    rw [List.map_cons, List.filter_cons, utf16_cons, units_of_lt hc] at he
    split at he
    · rename_i hne
      have hs : seen c < 0x10000 := by
        rw [seen, replacementCharacter]
        split <;> omega
      rw [List.flatMap_cons, charsOf, if_neg (by rw [requiresSurrogates_iff]; omega),
        List.singleton_append, List.singleton_append, List.cons.injEq, ← UInt16.toNat_inj,
        toNat_ofNat16 hs, toNat_ofNat16 hc, seen_eq_iff] at he
      obtain ⟨hm, he⟩ := he
      rw [seen_of_not hm] at hne
      refine List.forall_mem_cons.mpr ⟨⟨hc, hm, by simpa using hne⟩, ih htext he⟩
    · have := congrArg List.length he
      rw [List.length_append, List.length_singleton] at this
      omega

/-- What was in the last `n` bytes of the array of `m`. -/
def leftover (uninitialized : Nat → UInt8) (m n : Nat) : Bytes :=
  ((List.range (m + n)).map uninitialized).drop m

theorem length_leftover (uninitialized : Nat → UInt8) (m n : Nat) :
    (leftover uninitialized m n).length = n := by
  simp [leftover]

theorem leftover_zero (uninitialized : Nat → UInt8) (m : Nat) : leftover uninitialized m 0 = [] :=
  List.length_eq_zero_iff.mp (length_leftover uninitialized m 0)

theorem leftover_const (b : UInt8) (m n : Nat) : leftover (fun _ => b) m n = List.replicate n b := by
  simp [leftover, List.map_const']

/-- The encodings of two texts are equal only where the characters are. -/
theorem flatMap_put_inj (endian : DataEndianness) {f g : Char → Nat} (hf : ∀ c, f c < 256 ^ 4)
    (hg : ∀ c, g c < 256 ^ 4) (text : List Char) :
    (text.map f).flatMap (put endian) = (text.map g).flatMap (put endian) ↔
      ∀ c ∈ text, f c = g c := by
  induction text with
  | nil => simp
  | cons c text ih =>
    rw [List.map_cons, List.map_cons, List.flatMap_cons, List.flatMap_cons, List.forall_mem_cons, ← ih]
    constructor
    · intro h
      obtain ⟨hc, ht⟩ := List.append_inj h (by rw [length_put, length_put])
      refine ⟨?_, ht⟩
      rw [← code_put endian (hf c), hc, code_put endian (hg c)]
    · rintro ⟨hc, ht⟩
      rw [hc, ht]

theorem toNat_lt (c : Char) : c.toNat < 256 ^ 4 := by
  have hc := scalar c
  omega

/-- The data is the used part of the tuple. -/
abbrev State := ConverterState (EndianData Bytes)

/-- `ConverterState()` -/
def freshState : State := ⟨false, false, 0, 0, ⟨.detectEndianness, []⟩⟩

section Host

variable [Host]

/-- `uninitialized` is what is in the memory that the array gets.
mirrors text/codecs/UtfCodec.cpp:554-607 -/
def convertFromUnicode (uninitialized : Nat → UInt8) (uc : Str) (state : Option State)
    (e : DataEndianness) : Bytes × Option State :=
  let endian := writtenEndianness e
  let length := 4 * uc.length + if headerOpen state then 4 else 0
  let data := (if headerOpen state then bom endian else []) ++
    (codePoints uc).flatMap (put endian)
  (data ++ ((List.range length).map uninitialized).drop data.length,
    state.map fun state => { state with remainingChars := 0, ignoreHeader := true })

/-- The locals of the decoder; `tuple` is what is read of a character. -/
structure Decoding where
  endian : DataEndianness
  tuple : Bytes
  headerdone : Bool
  deriving DecidableEq

/-- The first four bytes settle the order; that the header is done is noted nowhere.
mirrors text/codecs/UtfCodec.cpp:635-662 -/
def decodeTuple (d : Decoding) (tuple : Bytes) : Str × Decoding :=
  if !d.headerdone then
    if d.endian = .detectEndianness then
      if tuple = [0xff, 0xfe, 0, 0] then ([], { d with endian := .littleEndianness })
      else if tuple = [0, 0, 0xfe, 0xff] then ([], { d with endian := .bigEndianness })
      else (charsOf (code hostEndianness tuple), { d with endian := hostEndianness })
    else if code d.endian tuple = byteOrderMark.toNat then ([], d)
    else (charsOf (code d.endian tuple), d)
  else (charsOf (code d.endian tuple), d)

/-- One round of the loop: the units it writes, and the locals.
mirrors text/codecs/UtfCodec.cpp:631-663 -/
def decodeByte (d : Decoding) (c : UInt8) : Str × Decoding :=
  if (d.tuple ++ [c]).length = 4 then decodeTuple { d with tuple := [] } (d.tuple ++ [c])
  else ([], { d with tuple := d.tuple ++ [c] })

/-- mirrors text/codecs/UtfCodec.cpp:611-624 -/
def load (e : DataEndianness) (state : State) : Decoding :=
  let endian := if e = .detectEndianness then state.stateData.endian else e
  { endian :=
      if state.ignoreHeader && endian == .detectEndianness then hostEndianness else endian
    tuple := state.stateData.data.take state.remainingChars
    headerdone := state.ignoreHeader }

/-- mirrors text/codecs/UtfCodec.cpp:666-672 -/
def save (d : Decoding) (state : State) : State :=
  { state with
    ignoreHeader := state.ignoreHeader || d.headerdone
    stateData := ⟨d.endian, d.tuple⟩
    remainingChars := d.tuple.length }

/-- mirrors text/codecs/UtfCodec.cpp:609-674 -/
def convertToUnicode (chars : Bytes) (state : Option State) (e : DataEndianness) :
    Str × Option State :=
  match state with
  | none => ((run decodeByte chars ⟨e, [], false⟩).1, none)
  | some state =>
    let (units, state) := call decodeByte (load e) save chars state
    (units, some state)

/-- The chunks one after another with one state. -/
def decodeChunks (e : DataEndianness) : List Bytes → Option State → Str × Option State
  | [], state => ([], state)
  | x :: chunks, state =>
    let (units, state) := convertToUnicode x state e
    let (rest, state) := decodeChunks e chunks state
    (units ++ rest, state)

/-- No state, or a new one. -/
def newState (given : Bool) : Option State := if given then some freshState else none

/-! ## Chunks -/

/-- The locals fit the mode that was asked for and the state. -/
structure Fits (e : DataEndianness) (state : State) (d : Decoding) : Prop where
  mode : e ≠ .detectEndianness → d.endian = e
  known : d.headerdone = true → d.endian ≠ .detectEndianness
  header : state.ignoreHeader = true → d.headerdone = true

theorem fits_load (e : DataEndianness) (state : State) : Fits e state (load e state) where
  mode he := by simp [load, he]
  known hh := by
    simp only [load] at hh ⊢
    rw [hh, Bool.true_and]
    generalize (if e = .detectEndianness then state.stateData.endian else e) = endian
    cases endian with
    | detectEndianness => exact Utf16.hostEndianness_ne
    | bigEndianness => simp
    | littleEndianness => simp
  header hh := hh

/-- Four bytes leave all but an order that is not known. -/
theorem decodeTuple_locals (d : Decoding) (tuple : Bytes) :
    (decodeTuple d tuple).2.tuple = d.tuple ∧ (decodeTuple d tuple).2.headerdone = d.headerdone ∧
      (d.headerdone = true ∨ d.endian ≠ .detectEndianness → (decodeTuple d tuple).2 = d) := by
  cases hh : d.headerdone with
  | true => simp [decodeTuple, hh]
  | false =>
    by_cases he : d.endian = .detectEndianness
    · simp only [decodeTuple, hh, he, Bool.not_false, if_true]
      split
      · simp
      split <;> simp
    · simp only [decodeTuple, hh, he, Bool.not_false, if_true, if_false]
      split <;> simp [hh]

theorem Fits.decodeByte {e : DataEndianness} {state : State} {d : Decoding} (h : Fits e state d)
    (c : UInt8) : Fits e state (decodeByte d c).2 := by
  obtain ⟨hm, hk, hi⟩ := h
  rw [Utf32.decodeByte]
  split
  · obtain ⟨-, hh, hkeep⟩ := decodeTuple_locals { d with tuple := [] } (d.tuple ++ [c])
    refine ⟨fun he => ?_, fun hh' => ?_, fun hs => hh.trans (hi hs)⟩
    · rw [hkeep (.inr (by rw [hm he]; exact he))]
      exact hm he
    · rw [hkeep (.inl (hh.symm.trans hh'))]
      exact hk (hh.symm.trans hh')
  · exact ⟨hm, hk, hi⟩

/-- What a call keeps is what the next one starts with. -/
theorem load_save {e : DataEndianness} {state : State} {d : Decoding} (h : Fits e state d) :
    load e (save d state) = d := by
  obtain ⟨hm, hk, hi⟩ := h
  obtain ⟨endian, tuple, headerdone⟩ := d
  simp only at hm hk hi
  have hh : (state.ignoreHeader || headerdone) = headerdone := by
    cases hs : state.ignoreHeader
    · rfl
    · rw [hi hs, Bool.true_or]
  have he : (if e = .detectEndianness then endian else e) = endian := by
    split
    · rfl
    · rename_i hne
      exact (hm hne).symm
  have hd : (headerdone && endian == .detectEndianness) = false := by
    cases headerdone
    · rfl
    · simpa using hk rfl
  simp only [load, save, hh, he, hd, List.take_length]
  rfl

theorem resumes (e : DataEndianness) : Resumes decodeByte (load e) save (Fits e) where
  fits_load := fits_load e
  fits_step h c := h.decodeByte c
  load_save := load_save
  save_save {state d d'} _ h' := by
    have hh : (state.ignoreHeader || d.headerdone || d'.headerdone) =
        (state.ignoreHeader || d'.headerdone) := by
      cases hd : d.headerdone
      · rw [Bool.or_false]
      · rw [h'.header (by simp only [save, hd, Bool.or_true]), Bool.or_true, Bool.or_true]
    simp only [save, hh]

theorem decodeChunks_calls (e : DataEndianness) (chunks : List Bytes) :
    ∀ state : State, decodeChunks e chunks (some state) =
      ((calls decodeByte (load e) save chunks state).1,
        some (calls decodeByte (load e) save chunks state).2) := by
  induction chunks with
  | nil => exact fun _ => rfl
  | cons x chunks ih =>
    intro state
    simp only [decodeChunks, convertToUnicode, ih]
    rfl

/-! ## Four bytes at a time -/

theorem run_tuple (endian : DataEndianness) (headerdone : Bool) (a b c d : UInt8) :
    run decodeByte [a, b, c, d] ⟨endian, [], headerdone⟩ =
      decodeTuple ⟨endian, [], headerdone⟩ [a, b, c, d] := by
  simp [run, decodeByte]

theorem run_tuples (bs : Bytes) : ∀ (endian : DataEndianness) (headerdone : Bool),
    (run decodeByte bs ⟨endian, [], headerdone⟩).1 =
      (run decodeTuple (tuples bs) ⟨endian, [], headerdone⟩).1 := by
  fun_induction tuples bs with
  | case1 a b c d rest ih =>
    intro endian headerdone
    rw [show a :: b :: c :: d :: rest = [a, b, c, d] ++ rest from rfl, run_append, run_tuple,
      run_cons]
    have hl := (decodeTuple_locals ⟨endian, [], headerdone⟩ [a, b, c, d]).1
    generalize decodeTuple ⟨endian, [], headerdone⟩ [a, b, c, d] = r at hl
    obtain ⟨out, endian', tuple', headerdone'⟩ := r
    cases hl
    simp only [ih]
  | case2 bs hbs =>
    intro endian headerdone
    match bs, hbs with
    | [], _ => rfl
    | [_], _ => rfl
    | [_, _], _ => rfl
    | [_, _, _], _ => rfl
    | a :: b :: c :: d :: rest, h => exact absurd rfl (h a b c d rest)

theorem decodeTuple_known {endian : DataEndianness} (he : endian ≠ .detectEndianness) (t : Bytes) :
    decodeTuple ⟨endian, [], false⟩ t =
      (([code endian t].filter (· ≠ byteOrderMark.toNat)).flatMap charsOf,
        ⟨endian, [], false⟩) := by
  simp only [decodeTuple, he, Bool.not_false, if_true, if_false]
  split
  · rename_i hm
    simp [hm]
  · rename_i hm
    simp [hm]

/-- Where the order is known, what is kept is all but the byte order marks. -/
theorem run_decodeTuple {endian : DataEndianness} (he : endian ≠ .detectEndianness)
    (ts : List Bytes) : run decodeTuple ts ⟨endian, [], false⟩ =
      (((ts.map (code endian)).filter (· ≠ byteOrderMark.toNat)).flatMap charsOf,
        ⟨endian, [], false⟩) := by
  induction ts with
  | nil => rfl
  | cons t ts ih =>
    rw [run_cons, decodeTuple_known he, ih, List.map_cons,
      ← List.singleton_append (l := ts.map (code endian)), List.filter_append, List.flatMap_append]

/-! ## Streams -/

/-- The order that the first four bytes give. -/
def order (e : DataEndianness) (first : Bytes) : DataEndianness :=
  if e ≠ .detectEndianness then e
  else if first = [0xff, 0xfe, 0, 0] then .littleEndianness
  else if first = [0, 0, 0xfe, 0xff] then .bigEndianness
  else hostEndianness

/-- A stream as it is meant to be read: a byte order mark in front is dropped, all else is kept. -/
def kept (e : DataEndianness) (b : Bytes) : Str :=
  match tuples b with
  | [] => []
  | first :: later =>
    (if code (order e first) first = byteOrderMark.toNat then []
      else charsOf (code (order e first) first)) ++
    (later.map (code (order e first))).flatMap charsOf

/-- Behind the first four bytes there is no U+FEFF. -/
def NoLaterMark (e : DataEndianness) (b : Bytes) : Prop :=
  match tuples b with
  | [] => True
  | first :: later => ∀ t ∈ later, code (order e first) t ≠ byteOrderMark.toNat

/-- Four bytes that are U+FEFF in the order of the machine are a byte order mark. -/
theorem code_host_ne {t : Bytes} (hl : t.length = 4) (h : t ≠ [0xff, 0xfe, 0, 0])
    (h' : t ≠ [0, 0, 0xfe, 0xff]) : code hostEndianness t ≠ byteOrderMark.toNat := by
  intro hm
  rw [hostEndianness] at hm
  split at hm
  · have hr := toLe_ofLe (List.length_reverse.trans hl)
    rw [code, if_pos rfl] at hm
    rw [hm] at hr
    exact h' (List.reverse_eq_iff.mp hr.symm)
  · have hr := toLe_ofLe hl
    rw [code, if_neg (by decide)] at hm
    rw [hm] at hr
    exact h hr.symm

theorem decodeTuple_first (e : DataEndianness) {t : Bytes} (hl : t.length = 4) :
    decodeTuple ⟨e, [], false⟩ t =
      (if code (order e t) t = byteOrderMark.toNat then [] else charsOf (code (order e t) t),
        ⟨order e t, [], false⟩) := by
  by_cases he : e = .detectEndianness
  · subst he
    simp only [decodeTuple, order, Bool.not_false, if_true, ne_eq, not_true_eq_false, if_false]
    split
    · rename_i h
      subst h
      rfl
    split
    · rename_i h
      subst h
      rfl
    · rename_i h h'
      rw [if_neg (code_host_ne hl h h')]
  · simp only [decodeTuple, order, he, Bool.not_false, if_true, if_false, ne_eq, not_false_iff]
    split <;> rfl

theorem order_ne (e : DataEndianness) (t : Bytes) : order e t ≠ .detectEndianness := by
  rw [order]
  split
  · assumption
  split
  · simp
  split
  · simp
  · exact Utf16.hostEndianness_ne

theorem convertToUnicode_iff (e : DataEndianness) (b : Bytes) :
    (run decodeByte b ⟨e, [], false⟩).1 = kept e b ↔ NoLaterMark e b := by
  rw [run_tuples, kept, NoLaterMark]
  split
  · rename_i ht
    rw [ht]
    exact ⟨fun _ => trivial, fun _ => rfl⟩
  · rename_i first later ht
    have hl : first.length = 4 := length_of_mem_tuples (b := b) (by rw [ht]; exact List.mem_cons_self)
    rw [ht, run_cons, decodeTuple_first e hl, run_decodeTuple (order_ne e first)]
    simp only [List.append_cancel_left_eq]
    rw [flatMap_filter_eq_iff charsOf_ne_nil]
    simp only [List.mem_map, forall_exists_index, and_imp, forall_apply_eq_imp_iff₂, ne_eq,
      decide_not, Bool.not_eq_eq_eq_not, Bool.not_true, decide_eq_false_iff_not]

/-! ## Encoding -/

/-- The characters that the iterator sees, and behind them four bytes for each of those outside the
first plane that nobody wrote. -/
theorem convertFromUnicode_utf16 (uninitialized : Nat → UInt8) (text : List Char) (given : Bool)
    (e : DataEndianness) :
    (convertFromUnicode uninitialized (utf16 text) (newState given) e).1 =
      bom (writtenEndianness e) ++ (text.map seen).flatMap (put (writtenEndianness e)) ++
        leftover uninitialized (4 + 4 * text.length) (4 * supplementary text) := by
  have hopen : headerOpen (newState given) = true := by
    cases given <;> rfl
  have hbom : (bom (writtenEndianness e)).length = 4 := by
    rw [bom]
    split <;> rfl
  simp only [convertFromUnicode, hopen, if_true, codePoints_utf16, List.length_append, hbom,
    length_flatMap_put, List.length_map, length_utf16, leftover]
  congr 4
  omega

theorem encoded_iff (text : List Char) (given : Bool) (e : DataEndianness) :
    (∀ uninitialized, (convertFromUnicode uninitialized (utf16 text) (newState given) e).1 =
      bom (writtenEndianness e) ++ (text.map Char.toNat).flatMap (put (writtenEndianness e))) ↔
    ∀ c ∈ text, c.toNat < 0x10000 ∧ ¬Mistaken c := by
  simp only [convertFromUnicode_utf16]
  constructor
  · intro h
    have h := h fun _ => 0
    have hlen := congrArg List.length h
    simp only [List.length_append, length_leftover, length_flatMap_put, List.length_map] at hlen
    have hs : supplementary text = 0 := by omega
    rw [hs, leftover_const, Nat.mul_zero, List.replicate_zero, List.append_nil,
      List.append_cancel_left_eq, flatMap_put_inj _ seen_lt toNat_lt] at h
    exact fun c hc => ⟨(supplementary_eq_zero text).mp hs c hc, (seen_eq_iff c).mp (h c hc)⟩
  · intro h uninitialized
    have hs := (supplementary_eq_zero text).mpr fun c hc => (h c hc).1
    rw [hs, Nat.mul_zero, leftover_zero, List.append_nil,
      (flatMap_put_inj _ seen_lt toNat_lt text).mpr fun c hc => (seen_eq_iff c).mpr (h c hc).2]

/-! ## Round trip -/

theorem run_flatMap_put {endian : DataEndianness} (he : endian ≠ .detectEndianness)
    {cps : List Nat} (h : ∀ cp ∈ cps, cp < 256 ^ 4) :
    run decodeByte (cps.flatMap (put endian)) ⟨endian, [], false⟩ =
      ((cps.filter (· ≠ byteOrderMark.toNat)).flatMap charsOf, ⟨endian, [], false⟩) := by
  induction cps with
  | nil => rfl
  | cons cp cps ih =>
    have hcode := code_put endian (h cp List.mem_cons_self)
    have hlen := length_put endian cp
    rw [List.flatMap_cons]
    generalize put endian cp = t at hcode hlen
    obtain ⟨a, b, c, d, rfl⟩ : ∃ a b c d, t = [a, b, c, d] := by
      match t, hlen with
      | [a, b, c, d], _ => exact ⟨a, b, c, d, rfl⟩
    rw [← List.singleton_append (l := cps), List.filter_append, List.flatMap_append, run_append,
      run_tuple, decodeTuple_known he, hcode, ih fun cp hcp => h cp (List.mem_cons_of_mem _ hcp)]

theorem run_bom (e : DataEndianness) :
    run decodeByte (bom (writtenEndianness e)) ⟨e, [], false⟩ =
      ([], ⟨writtenEndianness e, [], false⟩) := by
  cases e with
  | detectEndianness =>
    rw [writtenEndianness, if_pos rfl, hostEndianness]
    cases Host.byteOrder <;> rfl
  | bigEndianness => rfl
  | littleEndianness => rfl

theorem convertToUnicode_newState (chars : Bytes) (given : Bool) (e : DataEndianness) :
    (convertToUnicode chars (newState given) e).1 = (run decodeByte chars ⟨e, [], false⟩).1 := by
  cases given with
  | false => rfl
  | true => cases e <;> rfl

/-- What is decoded of an encoded text, where all that was in memory was the byte `b`. -/
theorem decoded (text : List Char) (given given' : Bool) (e : DataEndianness) (b : UInt8) (cp : Nat)
    (hb : toLe 4 cp = List.replicate 4 b) (hcp : cp < 256 ^ 4) :
    (convertToUnicode (convertFromUnicode (fun _ => b) (utf16 text) (newState given) e).1
      (newState given') e).1 =
      (((text.map seen) ++ List.replicate (supplementary text) cp).filter
        (· ≠ byteOrderMark.toNat)).flatMap charsOf := by
  have hput : put (writtenEndianness e) cp = List.replicate 4 b := by
    rw [put, hb, List.reverse_replicate, ite_self]
  have hrep : ∀ n, List.replicate (4 * n) b =
      (List.replicate n cp).flatMap (put (writtenEndianness e)) := by
    intro n
    induction n with
    | zero => rfl
    | succ n ih =>
      rw [Nat.mul_succ, Nat.add_comm, List.replicate_add, ih, List.replicate_succ (n := n),
        List.flatMap_cons, hput]
  have hlt : ∀ x ∈ text.map seen ++ List.replicate (supplementary text) cp, x < 256 ^ 4 := by
    intro x hx
    rcases List.mem_append.mp hx with hx | hx
    · obtain ⟨c, -, rfl⟩ := List.mem_map.mp hx
      exact seen_lt c
    · rw [List.eq_of_mem_replicate hx]
      exact hcp
  rw [convertToUnicode_newState, convertFromUnicode_utf16, leftover_const, hrep,
    List.append_assoc, ← List.flatMap_append, run_append, run_bom,
    run_flatMap_put (Utf16.writtenEndianness_ne e) hlt, List.nil_append]

/-- A text comes back whatever was in memory where each of its characters does. -/
theorem roundTrip_iff (text : List Char) (given given' : Bool) (e : DataEndianness) :
    (∀ uninitialized,
      (convertToUnicode (convertFromUnicode uninitialized (utf16 text) (newState given) e).1
        (newState given') e).1 = utf16 text) ↔ ∀ c ∈ text, Returns c := by
  constructor
  · intro h
    -- zeros and ones in memory give texts of different lengths
    have hzero := h fun _ => 0
    have hone := h fun _ => 1
    rw [decoded text given given' e 0 0 rfl (by decide), List.filter_append,
      List.flatMap_append] at hzero
    rw [decoded text given given' e 1 0x01010101 rfl (by decide), List.filter_append,
      List.flatMap_append] at hone
    have hl := congrArg List.length (hzero.trans hone.symm)
    have hk : supplementary text = 0 := by
      have hd : supplementary text = supplementary text * 2 := by
        simpa [List.filter_replicate, charsOf, requiresSurrogates, byteOrderMark,
          List.length_flatMap] using hl
      omega
    rw [hk, List.replicate_zero, List.filter_nil, List.flatMap_nil, List.append_nil] at hzero
    exact returns_of_seen ((supplementary_eq_zero text).mp hk) hzero
  · intro h uninitialized
    have hk := (supplementary_eq_zero text).mpr fun c hc => (h c hc).1
    have hsame : (convertFromUnicode uninitialized (utf16 text) (newState given) e).1 =
        (convertFromUnicode (fun _ => 0) (utf16 text) (newState given) e).1 := by
      rw [convertFromUnicode_utf16, convertFromUnicode_utf16, hk, Nat.mul_zero, leftover_zero,
        leftover_zero]
    rw [hsame, decoded text given given' e 0 0 rfl (by decide), hk,
      List.replicate_zero, List.append_nil, seen_of_returns h]

/-- The array is exact where no character is outside the first plane or taken for a surrogate; a
text comes back where it has no U+FEFF either; and of a stream all is kept where no U+FEFF comes
behind the first four bytes. -/
theorem codec_iff (e : DataEndianness) :
    (∀ (text : List Char) (given : Bool),
      (∀ uninitialized, (convertFromUnicode uninitialized (utf16 text) (newState given) e).1 =
        bom (writtenEndianness e) ++ (text.map Char.toNat).flatMap (put (writtenEndianness e))) ↔
      ∀ c ∈ text, c.toNat < 0x10000 ∧ ¬Mistaken c) ∧
    (∀ (text : List Char) (given given' : Bool),
      (∀ uninitialized,
        (convertToUnicode (convertFromUnicode uninitialized (utf16 text) (newState given) e).1
          (newState given') e).1 = utf16 text) ↔
      ∀ c ∈ text, Returns c) ∧
    ∀ (chunks : List Bytes) (given : Bool),
      (convertToUnicode chunks.flatten (newState given) e).1 = kept e chunks.flatten ∧
        (decodeChunks e chunks (some freshState)).1 = kept e chunks.flatten ↔
      NoLaterMark e chunks.flatten := by
  refine ⟨fun text given => encoded_iff text given e,
    fun text given given' => roundTrip_iff text given given' e, fun chunks given => ?_⟩
  have hchunks : (decodeChunks e chunks (some freshState)).1 =
      (run decodeByte chunks.flatten ⟨e, [], false⟩).1 := by
    cases chunks with
    | nil => rfl
    | cons x chunks =>
      rw [decodeChunks_calls, (resumes e).calls_eq]
      cases e <;> rfl
  rw [convertToUnicode_newState, hchunks, and_self, convertToUnicode_iff]

end Host

/-- U+1F600 is encoded in eight bytes, with four that nobody wrote, and does not come back; the
U+FEFF behind an `a` is dropped. -/
theorem codec_false :
    letI : Host := ⟨.littleEndian⟩
    ¬(∀ uninitialized,
      (convertFromUnicode uninitialized (utf16 ['😀']) none .bigEndianness).1 =
        [0, 0, 0xfe, 0xff, 0, 1, 0xf6, 0]) ∧
    ¬(∀ uninitialized,
      (convertToUnicode (convertFromUnicode uninitialized (utf16 ['😀']) none
        .bigEndianness).1 none .bigEndianness).1 = utf16 ['😀']) ∧
    (convertToUnicode [0, 0, 0xfe, 0xff, 0, 0, 0, 0x61, 0, 0, 0xfe, 0xff] none
      .bigEndianness).1 ≠ [0x61, 0xfeff] := by
  let _ : Host := ⟨.littleEndian⟩
  have hmem : '😀' ∈ ['😀'] := List.mem_singleton_self _
  have hlarge : 0x10000 ≤ '😀'.toNat := by decide
  refine ⟨fun h => ?_, fun h => ?_, by decide⟩
  · exact Nat.not_lt.mpr hlarge ((encoded_iff ['😀'] false .bigEndianness).mp h _ hmem).1
  · exact Nat.not_lt.mpr hlarge ((roundTrip_iff ['😀'] false false .bigEndianness).mp h _ hmem).1

end Utf32

end Libpdk.Codecs

import Libpdk.Io.TextStreamRead

/-!
# Integers in a text stream

`getNumber` reads characters and pushes them back; it knows the base from what the stream is set
to or from the first two characters, and computes modulo 2^64. `putNumber` writes with what
`LocaleData` makes of a number, in the C locale; `none` is an overflow. `getNumber_spec` says what
the former does to the text before a stream, in terms of `numberOn`, which does the same to a text.
-/
namespace Libpdk.Io

open Utils (UnicodeTables LocaleData)

inductive NumberParsingStatus
  | ok
  | missingDigit
  | invalidPrefix
  deriving DecidableEq

/-- The type that `operator>>` reads into. -/
structure IntegerType where
  signed : Bool
  bits : Nat
  bits_pos : 0 < bits
  bits_le : bits ≤ 64

namespace IntegerType

/-- The conversion from an unsigned number of 64 bits. -/
def cast (type : IntegerType) (n : Nat) : Int :=
  if type.signed then (n : Int).bmod (2 ^ type.bits) else (n % 2 ^ type.bits : Nat)

def Fits (type : IntegerType) (v : Int) : Prop :=
  if type.signed then -2 ^ (type.bits - 1) ≤ v ∧ v < 2 ^ (type.bits - 1)
  else 0 ≤ v ∧ v < 2 ^ type.bits

instance (type : IntegerType) (v : Int) : Decidable (type.Fits v) := by
  unfold Fits
  infer_instance

theorem word_pos : 0 < 64 := by decide

theorem word_le : 64 ≤ 64 := by decide

def longlong : IntegerType := ⟨true, 64, word_pos, word_le⟩

def ulonglong : IntegerType := ⟨false, 64, word_pos, word_le⟩

end IntegerType

namespace TextStream

section Model

variable {B D C Data : Type} [PushQueue B] [Virtual B D] [TextCodec C Data]

/-- A null character stands behind the text.
mirrors io/TextStream.cpp:624-637 -/
def getChar (s : TextStream B D C Data) : Option (Option UInt16 × TextStream B D C Data) :=
  (match s.source with
    | .string text offset => some (decide (offset ≠ text.length), s)
    | .device _ => if s.readBuffer = [] then s.fillReadBuffer (-1) else some (true, s)).map fun
    | (false, s) => (none, s)
    | (true, s) => (some (s.text.getD s.offset 0), s.consume 1)

/-- The character `ch` is put before the place `offset`, where there is one.
mirrors io/TextStream.cpp:641-654 -/
def putBefore (text : Str) (offset : Nat) (ch : UInt16) : Str × Nat :=
  if offset = 0 then (ch :: text, 0) else (text.set (offset - 1) ch, offset - 1)

/-- mirrors io/TextStream.cpp:639-655 -/
def ungetChar (s : TextStream B D C Data) (ch : UInt16) : TextStream B D C Data :=
  match s.source with
  | .string text offset =>
    { s with source := .string (putBefore text offset ch).1 (putBefore text offset ch).2 }
  | .device _ =>
    { s with
      readBuffer := (putBefore s.readBuffer s.readBufferOffset ch).1
      readBufferOffset := (putBefore s.readBuffer s.readBufferOffset ch).2 }

section Tables

variable [UnicodeTables]

/-- mirrors io/TextStream.cpp:1288-1293 -/
def skipWhiteSpace (s : TextStream B D C Data) : Option (TextStream B D C Data) :=
  (s.scan 0 .notSpace).map fun (_, s) => s.consumeLastToken

/-- What a character is worth in a loop that reads digits.
mirrors io/TextStream.cpp:788-791, 814-817, 845-848 and 875-882 -/
def digitOf (base : Nat) (ch : UInt16) : Option Int :=
  let n := UnicodeTables.toLower ch
  match base with
  | 2 => if n = unit '0' ∨ n = unit '1' then some (n.toNat - 48) else none
  | 8 => if unit '0' ≤ n ∧ n ≤ unit '7' then some (n.toNat - 48) else none
  | 10 => if Utils.Character.isDigit ch then some (UnicodeTables.digitValue ch) else none
  | 16 =>
    if unit '0' ≤ n ∧ n ≤ unit '9' then some (n.toNat - 48)
    else if unit 'a' ≤ n ∧ n ≤ unit 'f' then some (10 + (n.toNat - 97))
    else none
  | _ => none

/-- The number behind one more digit, modulo 2^64. -/
def addDigit (base val : Nat) (d : Int) : Nat := (((val * base : Nat) + d) % 2 ^ 64).toNat

/-- The loop that reads digits, with the number read so far and the number of digits.
mirrors io/TextStream.cpp:786-797, 812-823, 843-856 and 873-888 -/
def digitLoop (base : Nat) : Nat → Nat → Nat → TextStream B D C Data →
    Option ((Nat × Nat) × TextStream B D C Data)
  | 0, _, _, _ => none
  | rounds + 1, val, ndigits, s =>
    s.getChar.bind fun
      | (none, s) => some ((val, ndigits), s)
      | (some ch, s) =>
        match digitOf base ch with
        | some d => digitLoop base rounds (addDigit base val d) (ndigits + 1) s
        | none => some ((val, ndigits), s.ungetChar ch)

abbrev Parsed (B D C Data : Type) := (NumberParsingStatus × Nat) × TextStream B D C Data

/-- A prefix of a zero and the letter, or its capital; the second character is returned.
mirrors io/TextStream.cpp:780-784 and 867-871 -/
def getPrefix (letter : UInt16) (s : TextStream B D C Data) :
    Option (Option UInt16 × TextStream B D C Data) :=
  s.getChar.bind fun
    | (none, s) => some (none, s)
    | (some pf1, s) =>
      if pf1 ≠ unit '0' then some (none, s)
      else s.getChar.map fun
        | (none, s) => (none, s)
        | (some pf2, s) => if UnicodeTables.toLower pf2 ≠ letter then (none, s) else (some pf2, s)

/-- mirrors io/TextStream.cpp:778-804 -/
def getBinary (rounds : Nat) (s : TextStream B D C Data) : Option (Parsed B D C Data) :=
  (s.getPrefix (unit 'b')).bind fun
    | (none, s) => some ((.invalidPrefix, 0), s)
    | (some pf2, s) =>
      (digitLoop 2 rounds 0 0 s).map fun ((val, ndigits), s) =>
        if ndigits = 0 then ((.missingDigit, 0), (s.ungetChar pf2).ungetChar (unit '0'))
        else ((.ok, val), s)

/-- mirrors io/TextStream.cpp:805-830 -/
def getOctal (rounds : Nat) (s : TextStream B D C Data) : Option (Parsed B D C Data) :=
  s.getChar.bind fun
    | (none, s) => some ((.invalidPrefix, 0), s)
    | (some pf, s) =>
      if pf ≠ unit '0' then some ((.invalidPrefix, 0), s)
      else (digitLoop 8 rounds 0 0 s).map fun ((val, ndigits), s) =>
        if ndigits = 0 then ((.missingDigit, 0), s.ungetChar pf) else ((.ok, val), s)

/-- The number that a minus before `val` makes, as 64 bits.
mirrors io/TextStream.cpp:859-864 -/
def negate (val : Nat) : Nat :=
  let ival := (val : Int).bmod (2 ^ 64)
  ((if ival > 0 then -ival else ival) % 2 ^ 64).toNat

/-- mirrors io/TextStream.cpp:831-866 -/
def getDecimal (rounds : Nat) (s : TextStream B D C Data) : Option (Parsed B D C Data) :=
  let isSign ch := ch = LocaleData.c.minus ∨ ch = LocaleData.c.plus
  s.getChar.bind fun
    | (none, s) => some ((.missingDigit, 0), s)
    | (some sign, s) =>
      if ¬ isSign sign ∧ ¬ Utils.Character.isDigit sign then
        some ((.missingDigit, 0), s.ungetChar sign)
      else
        let val := if isSign sign then 0 else addDigit 10 0 (UnicodeTables.digitValue sign)
        (digitLoop 10 rounds val (if isSign sign then 0 else 1) s).map fun ((val, ndigits), s) =>
          if ndigits = 0 then ((.missingDigit, 0), s)
          else ((.ok, if sign = LocaleData.c.minus then negate val else val), s)

/-- mirrors io/TextStream.cpp:867-894 -/
def getHexadecimal (rounds : Nat) (s : TextStream B D C Data) : Option (Parsed B D C Data) :=
  (s.getPrefix (unit 'x')).bind fun
    | (none, s) => some ((.invalidPrefix, 0), s)
    | (some _, s) =>
      (digitLoop 16 rounds 0 0 s).map fun ((val, ndigits), s) =>
        if ndigits = 0 then ((.missingDigit, 0), s) else ((.ok, val), s)

/-- mirrors io/TextStream.cpp:777-899 -/
def getInBase (rounds base : Nat) (s : TextStream B D C Data) : Option (Parsed B D C Data) :=
  match base with
  | 2 => s.getBinary rounds
  | 8 => s.getOctal rounds
  | 10 => s.getDecimal rounds
  | 16 => s.getHexadecimal rounds
  | _ => some ((.invalidPrefix, 0), s)

/-- The base that the second character, in lower case, says.
mirrors io/TextStream.cpp:753-761 -/
def baseOf (ch2 : UInt16) : Nat :=
  if ch2 = unit 'x' then 16
  else if ch2 = unit 'b' then 2
  else if Utils.Character.isDigit ch2 ∧ 0 ≤ UnicodeTables.digitValue ch2 ∧
    UnicodeTables.digitValue ch2 ≤ 7 then 8
  else 10

/-- "detect int encoding"
mirrors io/TextStream.cpp:734-905 -/
def getNumber (rounds : Nat) (s : TextStream B D C Data) : Option (Parsed B D C Data) :=
  s.skipWhiteSpace.bind fun s =>
    if s.integerBase ≠ 0 then s.getInBase rounds s.integerBase
    else s.getChar.bind fun
      | (none, s) => some ((.invalidPrefix, 0), s)
      | (some ch, s) =>
        if ch = unit '0' then
          s.getChar.bind fun
            | (none, s) => some ((.ok, 0), s)
            | (some ch2, s) =>
              let ch2 := UnicodeTables.toLower ch2
              ((s.ungetChar ch2).ungetChar ch).getInBase rounds (baseOf ch2)
        else if ch = LocaleData.c.minus ∨ ch = LocaleData.c.plus ∨ Utils.Character.isDigit ch then
          (s.ungetChar ch).getInBase rounds 10
        else some ((.invalidPrefix, 0), s.ungetChar ch)

/-- mirrors io/TextStream.cpp:1454-1462 -/
def atEnd (s : TextStream B D C Data) : Bool :=
  match s.source with
  | .string text offset => text.length == offset
  | .device d => s.readBuffer.isEmpty && d.atEnd

/-- mirrors io/TextStream.cpp:1446-1452 -/
def setStatus (s : TextStream B D C Data) (status : StreamStatus) : TextStream B D C Data :=
  if s.status = .ok then { s with status := status } else s

/-- mirrors io/TextStream.cpp:1393-1397 -/
def setIntegerBase (s : TextStream B D C Data) (base : Nat) : TextStream B D C Data :=
  { s with integerBase := base }

/-- mirrors io/TextStream.cpp:42-56 -/
def readInteger (rounds : Nat) (type : IntegerType) (s : TextStream B D C Data) :
    Option (Int × TextStream B D C Data) :=
  (s.getNumber rounds).map fun
    | ((.ok, tmp), s) => (type.cast tmp, s)
    | (_, s) => (0, s.setStatus (if s.atEnd then .readPastEnd else .readCorruptData))

end Tables

end Model

section Text

variable {B D C Data : Type} [PushQueue B] [FileDevice B D] [TextCodec C Data]
  {s : TextStream B D C Data} {α β : Type}

/-! ## One character -/

/-- What is returned, and the text that the stream goes on before. -/
def Gives (m : Option (α × TextStream B D C Data)) (s : TextStream B D C Data) (r : α × Str) :
    Prop :=
  ∃ s', m = some (r.1, s') ∧ Onward s s' r.2

theorem Gives.bind {m : Option (α × TextStream B D C Data)} {a : α} {t : Str} {r : β × Str}
    (h : Gives m s (a, t))
    {k : α × TextStream B D C Data → Option (β × TextStream B D C Data)}
    (hk : ∀ s₁, Onward s s₁ t → Gives (k (a, s₁)) s₁ r) : Gives (m.bind k) s r := by
  obtain ⟨s₁, hm, honward⟩ := h
  obtain ⟨s₂, hk₂, honward₂⟩ := hk s₁ honward
  exact ⟨s₂, by rw [hm, Option.bind_some, hk₂], honward.trans honward₂⟩

theorem Gives.map {m : Option (α × TextStream B D C Data)} {a : α} {t : Str} {r : β × Str}
    (h : Gives m s (a, t)) {k : α × TextStream B D C Data → β × TextStream B D C Data}
    (hk : ∀ s₁, Onward s s₁ t → (k (a, s₁)).1 = r.1 ∧ Onward s₁ (k (a, s₁)).2 r.2) :
    Gives (m.map k) s r := by
  obtain ⟨s₁, hm, honward⟩ := h
  obtain ⟨hfst, honward₂⟩ := hk s₁ honward
  exact ⟨(k (a, s₁)).2, by rw [hm, Option.map_some, ← hfst], honward.trans honward₂⟩

theorem Onward.refl (h : Reading s) : Onward s s s.unread := (Grown.refl h).onward

theorem Onward.stay {s' : TextStream B D C Data} {t : Str} (h : Onward s s' t) : Onward s' s' t :=
  h.unread ▸ Onward.refl h.reading

theorem ungetChar_spec (h : Reading s) (ch : UInt16) :
    Onward s (s.ungetChar ch) (ch :: s.unread) := by
  have hput : ∀ {text : Str} {offset : Nat}, offset ≤ text.length →
      (putBefore text offset ch).2 < (putBefore text offset ch).1.length ∧
        (putBefore text offset ch).1.drop (putBefore text offset ch).2 = ch :: text.drop offset := by
    intro text offset hle
    unfold putBefore
    by_cases hz : offset = 0
    · rw [if_pos hz, hz]
      simp
    · rw [if_neg hz]
      obtain ⟨k, rfl⟩ : ∃ k, offset = k + 1 := ⟨offset - 1, by omega⟩
      have hlt : k < (text.set k ch).length := by
        rw [List.length_set]
        omega
      refine ⟨hlt, ?_⟩
      rw [Nat.add_sub_cancel, List.drop_eq_getElem_cons hlt, List.getElem_set_self,
        List.drop_set_of_lt (Nat.lt_succ_self k)]
  rcases h.source with ⟨t, start, hsource, hle⟩ | ⟨d, hd⟩
  · obtain ⟨hlt, hdrop⟩ := hput hle
    unfold ungetChar
    simp only [hsource, unread]
    exact ⟨⟨.inl ⟨_, _, rfl, hlt.le⟩, h.lastToken⟩, fun _ d hd => (by cases hd), hdrop, rfl, rfl⟩
  · obtain ⟨hlt, hdrop⟩ := hput hd.offset_le
    rw [hd.unread_eq]
    unfold ungetChar
    simp only [hd.source]
    refine ⟨⟨.inr ⟨d, rfl, hd.placed, hd.readable, hlt.le, hd.fixed, hd.codec, hd.size⟩,
      h.lastToken⟩, fun hfluent d' hd' => ⟨.inr hlt, (hfluent d' (hd.source.trans hd')).2⟩, ?_,
      rfl, rfl⟩
    simp only [unread, hdrop, List.cons_append]

/-- A character in the memory of the stream. -/
theorem getChar_memory (h : Reading s) {ch : UInt16} {t : Str} (hunread : s.unread = ch :: t)
    (hlt : s.offset < s.text.length) :
    s.text.getD s.offset 0 = ch ∧ Onward s (s.consume 1) t := by
  have hone := h.take_text (n := 1) (by omega)
  have hconsume := consume_spec h (n := 1) (.inl (by omega))
  rw [hunread] at hone hconsume
  refine ⟨?_, hconsume⟩
  rw [List.drop_eq_getElem_cons hlt, List.take_succ_cons, List.take_zero, List.take_succ_cons,
    List.take_zero, List.cons.injEq] at hone
  rw [List.getD_eq_getElem?_getD, List.getElem?_eq_getElem hlt, Option.getD_some]
  exact hone.1

theorem getChar_nil (h : Reading s) (hfluent : Fluent s) (hnil : s.unread = []) :
    Gives s.getChar s (none, []) := by
  rcases h.source with ⟨t, start, hsource, hle⟩ | ⟨d, hd⟩
  · have hend : start = t.length := by
      rw [unread, hsource, List.drop_eq_nil_iff] at hnil
      omega
    refine ⟨s, ?_, hnil ▸ Onward.refl h⟩
    simp [getChar, hsource, hend]
  · have hbuffer : s.readBuffer = [] := by
      rcases (hfluent d hd.source).1 with hbuffer | hlt
      · exact hbuffer
      · rw [hd.unread_eq, List.append_eq_nil_iff, List.drop_eq_nil_iff] at hnil
        omega
    obtain ⟨b, s₁, d₁, hfill, hgrown, hon, -, htrue, -⟩ := fill_spec hd h.lastToken
    cases b with
    | true =>
      -- a character would be unread
      have hlt := (htrue rfl).2 hfluent
      obtain ⟨-, later, hlater⟩ := hgrown.reading.split
      have hoffset := hd.offset_le
      rw [hbuffer, List.length_nil] at hoffset
      rw [hgrown.unread, hnil, hgrown.offset] at hlater
      have hdrop := (List.append_eq_nil_iff.mp hlater.symm).1
      rw [List.drop_eq_nil_iff] at hdrop
      simp only [offset, hd.source] at hdrop
      omega
    | false =>
      refine ⟨s₁, ?_, hnil ▸ hgrown.onward⟩
      simp only [getChar, hd.source, if_pos hbuffer, hfill, Option.map_some]

theorem getChar_cons (h : Reading s) (hfluent : Fluent s) {ch : UInt16} {t : Str}
    (hunread : s.unread = ch :: t) : Gives s.getChar s (some ch, t) := by
  rcases h.source with ⟨text, start, hsource, hle⟩ | ⟨d, hd⟩
  · have hlt : start < text.length := by
      by_contra hge
      have hnil := List.drop_of_length_le (not_lt.mp hge)
      simp [unread, hsource, hnil] at hunread
    obtain ⟨hch, honward⟩ :=
      getChar_memory h hunread (by simp only [offset, TextStream.text, hsource]; exact hlt)
    refine ⟨s.consume 1, ?_, honward⟩
    have hne : start ≠ text.length := by omega
    rw [getChar, hsource]
    simp only [hne, ne_eq, not_false_eq_true, decide_true, Option.map_some, hch]
  · by_cases hbuffer : s.readBuffer = []
    · obtain ⟨b, s₁, d₁, hfill, hgrown, hon, -, htrue, hfalse⟩ := fill_spec hd h.lastToken
      have hunread₁ := hgrown.unread.trans hunread
      have hoffset := hd.offset_le
      rw [hbuffer, List.length_nil] at hoffset
      have hoffset₁ : s₁.offset = 0 := by
        rw [hgrown.offset, offset, hd.source]
        simp only
        omega
      cases b with
      | true =>
        have hlt := (htrue rfl).2 hfluent
        obtain ⟨hch, honward⟩ := getChar_memory hgrown.reading hunread₁ (by omega)
        refine ⟨s₁.consume 1, ?_, hgrown.onward.trans honward⟩
        rw [getChar, hd.source]
        simp only [if_pos hbuffer, hfill, Option.map_some, hch]
      | false =>
        obtain ⟨hrest, htext⟩ := hfalse rfl
        rw [hon.all hrest, htext, text, hd.source] at hunread₁
        simp [hbuffer] at hunread₁
    · have hlt := (hfluent d hd.source).1.resolve_left hbuffer
      obtain ⟨hch, honward⟩ :=
        getChar_memory h hunread (by simp only [offset, text, hd.source]; exact hlt)
      refine ⟨s.consume 1, ?_, honward⟩
      rw [getChar, hd.source]
      simp only [if_neg hbuffer, Option.map_some, hch]

end Text

/-! ## The text -/

section Text

variable [UnicodeTables]

abbrev ParsedText := (NumberParsingStatus × Nat) × Str

/-- The digits that a text begins with. -/
def digitRun (base : Nat) (t : Str) : Str := t.takeWhile fun ch => (digitOf base ch).isSome

def digitRest (base : Nat) (t : Str) : Str := t.dropWhile fun ch => (digitOf base ch).isSome

def addDigits (base val : Nat) (ds : Str) : Nat :=
  ds.foldl (fun val ch => addDigit base val ((digitOf base ch).getD 0)) val

/-- What `getPrefix` does to a text. -/
def prefixOn (letter : UInt16) : Str → Option UInt16 × Str
  | [] => (none, [])
  | [_] => (none, [])
  | pf1 :: pf2 :: t =>
    if pf1 ≠ unit '0' then (none, pf2 :: t)
    else if UnicodeTables.toLower pf2 ≠ letter then (none, t)
    else (some pf2, t)

def binaryOn (t : Str) : ParsedText :=
  match prefixOn (unit 'b') t with
  | (none, t) => ((.invalidPrefix, 0), t)
  | (some pf2, t) =>
    if digitRun 2 t = [] then ((.missingDigit, 0), unit '0' :: pf2 :: t)
    else ((.ok, addDigits 2 0 (digitRun 2 t)), digitRest 2 t)

def octalOn : Str → ParsedText
  | [] => ((.invalidPrefix, 0), [])
  | pf :: t =>
    if pf ≠ unit '0' then ((.invalidPrefix, 0), t)
    else if digitRun 8 t = [] then ((.missingDigit, 0), pf :: t)
    else ((.ok, addDigits 8 0 (digitRun 8 t)), digitRest 8 t)

def IsSign (ch : UInt16) : Prop := ch = LocaleData.c.minus ∨ ch = LocaleData.c.plus

instance : DecidablePred IsSign := fun ch =>
  inferInstanceAs (Decidable (ch = LocaleData.c.minus ∨ ch = LocaleData.c.plus))

def decimalOn : Str → ParsedText
  | [] => ((.missingDigit, 0), [])
  | sign :: t =>
    if IsSign sign then
      if digitRun 10 t = [] then ((.missingDigit, 0), t)
      else
        let val := addDigits 10 0 (digitRun 10 t)
        ((.ok, if sign = LocaleData.c.minus then negate val else val), digitRest 10 t)
    else if Utils.Character.isDigit sign then
      ((.ok, addDigits 10 0 (digitRun 10 (sign :: t))), digitRest 10 (sign :: t))
    else ((.missingDigit, 0), sign :: t)

def hexadecimalOn (t : Str) : ParsedText :=
  match prefixOn (unit 'x') t with
  | (none, t) => ((.invalidPrefix, 0), t)
  | (some _, t) =>
    if digitRun 16 t = [] then ((.missingDigit, 0), t)
    else ((.ok, addDigits 16 0 (digitRun 16 t)), digitRest 16 t)

def inBaseOn (base : Nat) (t : Str) : ParsedText :=
  match base with
  | 2 => binaryOn t
  | 8 => octalOn t
  | 10 => decimalOn t
  | 16 => hexadecimalOn t
  | _ => ((.invalidPrefix, 0), t)

/-- What `getNumber` does to a text behind its white space. -/
def numberOn (base : Nat) (t : Str) : ParsedText :=
  if base ≠ 0 then inBaseOn base t
  else match t with
    | [] => ((.invalidPrefix, 0), [])
    | ch :: t =>
      if ch = unit '0' then
        match t with
        | [] => ((.ok, 0), [])
        | ch2 :: t =>
          inBaseOn (baseOf (UnicodeTables.toLower ch2)) (ch :: UnicodeTables.toLower ch2 :: t)
      else if IsSign ch ∨ Utils.Character.isDigit ch then inBaseOn 10 (ch :: t)
      else ((.invalidPrefix, 0), ch :: t)

/-- Where there are no digits, the text is left. -/
theorem digitRest_of_none {base : Nat} {t : Str} (h : digitRun base t = []) :
    digitRest base t = t := by
  have hwhole := List.takeWhile_append_dropWhile
    (p := fun ch => (digitOf base ch).isSome) (l := t)
  rw [show t.takeWhile _ = [] from h, List.nil_append] at hwhole
  exact hwhole

variable {B D C Data : Type} [PushQueue B] [FileDevice B D] [TextCodec C Data]
  {s : TextStream B D C Data}

/-- A stream that gives one character after the other. -/
structure Flowing (s : TextStream B D C Data) : Prop where
  reading : Reading s
  fluent : Fluent s

omit [UnicodeTables] in
theorem Flowing.onward {s' : TextStream B D C Data} {t : Str} (h : Flowing s)
    (honward : Onward s s' t) : Flowing s' :=
  ⟨honward.reading, honward.fluent h.fluent⟩

theorem digitLoop_spec (base : Nat) : ∀ (rounds val n : Nat) {s : TextStream B D C Data},
    Flowing s → s.unread.length < rounds → Gives (digitLoop base rounds val n s) s
      ((addDigits base val (digitRun base s.unread), n + (digitRun base s.unread).length),
        digitRest base s.unread)
  | 0, _, _, s, _, hlt => by omega
  | rounds + 1, val, n, s, h, hlt => by
    rw [digitLoop]
    rcases hunread : s.unread with - | ⟨ch, t⟩
    · refine (getChar_nil h.reading h.fluent hunread).bind fun s₁ honward => ?_
      exact ⟨s₁, rfl, honward.stay⟩
    · refine (getChar_cons h.reading h.fluent hunread).bind fun s₁ honward => ?_
      have h₁ := h.onward honward
      rw [hunread, List.length_cons] at hlt
      simp only
      unfold digitRun digitRest
      cases hd : digitOf base ch with
      | some d =>
        have hloop := digitLoop_spec base rounds (addDigit base val d) (n + 1) h₁
          (by rw [honward.unread]; omega)
        rw [honward.unread] at hloop
        rw [List.takeWhile_cons_of_pos (by simp [hd]), List.dropWhile_cons_of_pos (by simp [hd]),
          List.length_cons, addDigits, List.foldl_cons, hd, Option.getD_some,
          show n + ((List.takeWhile (fun ch => (digitOf base ch).isSome) t).length + 1) =
            n + 1 + (List.takeWhile (fun ch => (digitOf base ch).isSome) t).length by omega]
        exact hloop
      | none =>
        rw [List.takeWhile_cons_of_neg (by simp [hd]), List.dropWhile_cons_of_neg (by simp [hd])]
        refine ⟨s₁.ungetChar ch, rfl, ?_⟩
        have hback := ungetChar_spec h₁.reading ch
        rw [honward.unread] at hback
        exact hback

theorem getPrefix_spec (h : Flowing s) (letter : UInt16) :
    Gives (s.getPrefix letter) s (prefixOn letter s.unread) := by
  unfold getPrefix
  rcases hunread : s.unread with - | ⟨pf1, t⟩
  · refine (getChar_nil h.reading h.fluent hunread).bind fun s₁ honward => ?_
    exact ⟨s₁, rfl, honward.stay⟩
  refine (getChar_cons h.reading h.fluent hunread).bind fun s₁ honward => ?_
  have h₁ := h.onward honward
  have hstay := honward.stay
  simp only
  by_cases hpf1 : pf1 ≠ unit '0'
  · rw [if_pos hpf1]
    cases t with
    | nil => exact ⟨s₁, rfl, hstay⟩
    | cons pf2 t =>
      rw [prefixOn, if_pos hpf1]
      exact ⟨s₁, rfl, hstay⟩
  rw [if_neg hpf1]
  cases t with
  | nil =>
    refine (getChar_nil h₁.reading h₁.fluent honward.unread).map fun s₂ honward₂ =>
      ⟨rfl, honward₂.stay⟩
  | cons pf2 t =>
    rw [prefixOn, if_neg hpf1]
    refine (getChar_cons h₁.reading h₁.fluent honward.unread).map fun s₂ honward₂ => ?_
    have hstay₂ := honward₂.stay
    simp only
    split
    · exact ⟨rfl, hstay₂⟩
    · exact ⟨rfl, hstay₂⟩

/-- The digits behind a prefix. -/
theorem prefixOn_length (letter : UInt16) (t : Str) : (prefixOn letter t).2.length ≤ t.length := by
  unfold prefixOn
  split
  · exact Nat.le_refl _
  · exact Nat.zero_le _
  · split
    · simp
    · split <;> simp <;> omega

variable {rounds : Nat}

/-- The loop of a branch, behind its prefix. -/
theorem digitLoop_branch (h : Flowing s) {base : Nat} {t : Str} (hunread : s.unread = t)
    (hlt : t.length < rounds) : ∃ s₁, digitLoop base rounds 0 0 s =
      some ((addDigits base 0 (digitRun base t), (digitRun base t).length), s₁) ∧
      Onward s s₁ (digitRest base t) := by
  subst hunread
  obtain ⟨s₁, hloop, honward⟩ := digitLoop_spec base rounds 0 0 h hlt
  exact ⟨s₁, by rw [hloop, Nat.zero_add], honward⟩

theorem getBinary_spec (h : Flowing s) (hlt : s.unread.length < rounds) :
    Gives (s.getBinary rounds) s (binaryOn s.unread) := by
  have hle := prefixOn_length (unit 'b') s.unread
  have hpre := getPrefix_spec h (unit 'b')
  unfold getBinary binaryOn
  generalize prefixOn (unit 'b') s.unread = p at hle hpre
  obtain ⟨pf2, t⟩ := p
  refine hpre.bind fun s₁ honward => ?_
  cases pf2 with
  | none => exact ⟨s₁, rfl, honward.stay⟩
  | some pf2 =>
    obtain ⟨s₂, hloop, honward₂⟩ := @digitLoop_branch _ _ _ _ _ _ _ _ _
      rounds (h.onward honward) 2 _ honward.unread (Nat.lt_of_le_of_lt hle hlt)
    simp only [hloop, Option.map_some, List.length_eq_zero_iff]
    by_cases hnone : digitRun 2 t = []
    · rw [if_pos hnone, if_pos hnone]
      rw [digitRest_of_none hnone] at honward₂
      have hback := ungetChar_spec honward₂.reading pf2
      have hback₂ := ungetChar_spec hback.reading (unit '0')
      rw [hback.unread, honward₂.unread] at hback₂
      exact ⟨_, rfl, (honward₂.trans hback).trans hback₂⟩
    · rw [if_neg hnone, if_neg hnone]
      exact ⟨s₂, rfl, honward₂⟩

theorem getHexadecimal_spec (h : Flowing s) (hlt : s.unread.length < rounds) :
    Gives (s.getHexadecimal rounds) s (hexadecimalOn s.unread) := by
  have hle := prefixOn_length (unit 'x') s.unread
  have hpre := getPrefix_spec h (unit 'x')
  unfold getHexadecimal hexadecimalOn
  generalize prefixOn (unit 'x') s.unread = p at hle hpre
  obtain ⟨pf2, t⟩ := p
  refine hpre.bind fun s₁ honward => ?_
  cases pf2 with
  | none => exact ⟨s₁, rfl, honward.stay⟩
  | some pf2 =>
    obtain ⟨s₂, hloop, honward₂⟩ := @digitLoop_branch _ _ _ _ _ _ _ _ _
      rounds (h.onward honward) 16 _ honward.unread (Nat.lt_of_le_of_lt hle hlt)
    simp only [hloop, Option.map_some, List.length_eq_zero_iff]
    by_cases hnone : digitRun 16 t = []
    · rw [if_pos hnone, if_pos hnone]
      rw [digitRest_of_none hnone] at honward₂
      exact ⟨s₂, rfl, honward₂⟩
    · rw [if_neg hnone, if_neg hnone]
      exact ⟨s₂, rfl, honward₂⟩

theorem getOctal_spec (h : Flowing s) (hlt : s.unread.length < rounds) :
    Gives (s.getOctal rounds) s (octalOn s.unread) := by
  unfold getOctal octalOn
  rcases hunread : s.unread with - | ⟨pf, t⟩
  · exact (getChar_nil h.reading h.fluent hunread).bind fun s₁ honward => ⟨s₁, rfl, honward.stay⟩
  refine (getChar_cons h.reading h.fluent hunread).bind fun s₁ honward => ?_
  rw [hunread, List.length_cons] at hlt
  simp only
  by_cases hpf : pf ≠ unit '0'
  · rw [if_pos hpf, if_pos hpf]
    exact ⟨s₁, rfl, honward.stay⟩
  rw [if_neg hpf, if_neg hpf]
  obtain ⟨s₂, hloop, honward₂⟩ := @digitLoop_branch _ _ _ _ _ _ _ _ _
      rounds (h.onward honward) 8 _ honward.unread (by omega)
  simp only [hloop, Option.map_some, List.length_eq_zero_iff]
  by_cases hnone : digitRun 8 t = []
  · rw [if_pos hnone, if_pos hnone]
    rw [digitRest_of_none hnone] at honward₂
    have hback := ungetChar_spec honward₂.reading pf
    rw [honward₂.unread] at hback
    exact ⟨_, rfl, honward₂.trans hback⟩
  · rw [if_neg hnone, if_neg hnone]
    exact ⟨s₂, rfl, honward₂⟩

theorem getDecimal_spec (h : Flowing s) (hlt : s.unread.length < rounds) :
    Gives (s.getDecimal rounds) s (decimalOn s.unread) := by
  unfold getDecimal decimalOn
  rcases hunread : s.unread with - | ⟨sign, t⟩
  · exact (getChar_nil h.reading h.fluent hunread).bind fun s₁ honward => ⟨s₁, rfl, honward.stay⟩
  refine (getChar_cons h.reading h.fluent hunread).bind fun s₁ honward => ?_
  rw [hunread, List.length_cons] at hlt
  have h₁ := h.onward honward
  simp only
  by_cases hsign : IsSign sign
  · have hsign' : sign = LocaleData.c.minus ∨ sign = LocaleData.c.plus := hsign
    obtain ⟨s₂, hloop, honward₂⟩ := @digitLoop_branch _ _ _ _ _ _ _ _ _
      rounds h₁ 10 _ honward.unread (by omega)
    rw [if_pos hsign, if_neg fun hn => hn.1 hsign']
    simp only [if_pos hsign', hloop, Option.map_some, List.length_eq_zero_iff]
    by_cases hnone : digitRun 10 t = []
    · rw [if_pos hnone, if_pos hnone]
      rw [digitRest_of_none hnone] at honward₂
      exact ⟨s₂, rfl, honward₂⟩
    · rw [if_neg hnone, if_neg hnone]
      exact ⟨s₂, rfl, honward₂⟩
  · have hsign' : ¬(sign = LocaleData.c.minus ∨ sign = LocaleData.c.plus) := hsign
    rw [if_neg hsign]
    by_cases hdigit : Utils.Character.isDigit sign = true
    · have hsome : digitOf 10 sign = some (UnicodeTables.digitValue sign) := if_pos hdigit
      have hpos : (digitOf 10 sign).isSome = true := by rw [hsome]; rfl
      have hminus : sign ≠ LocaleData.c.minus := fun he => hsign' (.inl he)
      obtain ⟨s₂, hloop, honward₂⟩ := digitLoop_spec 10 rounds
        (addDigit 10 0 (UnicodeTables.digitValue sign)) 1 h₁ (by rw [honward.unread]; omega)
      rw [honward.unread] at hloop honward₂
      rw [if_pos hdigit, if_neg fun hn => hn.2 hdigit]
      have hrun : digitRun 10 (sign :: t) = sign :: digitRun 10 t := List.takeWhile_cons_of_pos hpos
      have hrest : digitRest 10 (sign :: t) = digitRest 10 t := List.dropWhile_cons_of_pos hpos
      have hadd : addDigits 10 0 (sign :: digitRun 10 t) =
          addDigits 10 (addDigit 10 0 (UnicodeTables.digitValue sign)) (digitRun 10 t) := by
        rw [addDigits, addDigits, List.foldl_cons, hsome, Option.getD_some]
      have hsome' : ¬ 1 + (digitRun 10 t).length = 0 := by omega
      rw [hrun, hrest, hadd]
      simp only [if_neg hsign', hloop, Option.map_some, if_neg hsome', if_neg hminus]
      exact ⟨s₂, rfl, honward₂⟩
    · rw [if_neg hdigit, if_pos ⟨hsign', hdigit⟩]
      have hback := ungetChar_spec h₁.reading sign
      rw [honward.unread] at hback
      exact ⟨_, rfl, hback⟩

theorem getInBase_spec (h : Flowing s) (hlt : s.unread.length < rounds) (base : Nat) :
    Gives (s.getInBase rounds base) s (inBaseOn base s.unread) := by
  unfold getInBase inBaseOn
  split
  · exact getBinary_spec h hlt
  · exact getOctal_spec h hlt
  · exact getDecimal_spec h hlt
  · exact getHexadecimal_spec h hlt
  · exact ⟨s, rfl, Onward.refl h.reading⟩

theorem skipWhiteSpace_spec (h : Flowing s) : ∃ s', s.skipWhiteSpace = some s' ∧
    Onward s s' (s.unread.dropWhile Utils.Character.isSpace) := by
  obtain ⟨s₁, hscan, -, honward⟩ := scan_spec h.reading .notSpace
  have hspace : (fun ch => !stops .notSpace ch) = Utils.Character.isSpace := by
    funext ch
    simp only [stops, Bool.not_not]
  have hafter : afterToken .notSpace s.unread = s.unread.dropWhile Utils.Character.isSpace := by
    rw [afterToken, if_neg (by simp), behind, hspace]
  rw [hafter] at honward
  exact ⟨s₁.consumeLastToken, by rw [skipWhiteSpace, hscan]; rfl, honward⟩

/-- `getNumber` does to a stream what `numberOn` does to the text before it. -/
theorem getNumber_spec (h : Flowing s) (hlt : s.unread.length < rounds) :
    Gives (s.getNumber rounds) s
      (numberOn s.integerBase (s.unread.dropWhile Utils.Character.isSpace)) := by
  obtain ⟨s₁, hskip, honward⟩ := skipWhiteSpace_spec h
  have h₁ := h.onward honward
  have hle := (List.dropWhile_suffix Utils.Character.isSpace (l := s.unread)).length_le
  unfold getNumber numberOn
  generalize s.unread.dropWhile Utils.Character.isSpace = t at hle honward
  have hgoal : ∀ {m : Option (Parsed B D C Data)} {r : ParsedText}, Gives m s₁ r → Gives m s r :=
    fun ⟨s₂, hm, honward₂⟩ => ⟨s₂, hm, honward.trans honward₂⟩
  rw [hskip, Option.bind_some, honward.integerBase]
  refine hgoal ?_
  by_cases hbase : s.integerBase ≠ 0
  · rw [if_pos hbase, if_pos hbase, ← honward.unread]
    exact getInBase_spec h₁ (by rw [honward.unread]; omega) _
  rw [if_neg hbase, if_neg hbase]
  cases t with
  | nil =>
    exact (getChar_nil h₁.reading h₁.fluent honward.unread).bind fun s₂ honward₂ =>
      ⟨s₂, rfl, honward₂.stay⟩
  | cons ch t =>
    refine (getChar_cons h₁.reading h₁.fluent honward.unread).bind fun s₂ honward₂ => ?_
    have h₂ := h₁.onward honward₂
    rw [List.length_cons] at hle
    have hback := ungetChar_spec h₂.reading ch
    rw [honward₂.unread] at hback
    have hbehind : ∀ {s₃ : TextStream B D C Data} {t' : Str} (base : Nat), Flowing s₃ →
        Onward s₂ s₃ t' → t'.length < rounds →
        Gives (s₃.getInBase rounds base) s₂ (inBaseOn base t') := by
      intro s₃ t' base h₃ honward₃ hlt₃
      obtain ⟨s₄, hget, honward₄⟩ := getInBase_spec h₃
        (show s₃.unread.length < rounds by rw [honward₃.unread]; exact hlt₃) base
      rw [honward₃.unread] at hget honward₄
      exact ⟨s₄, hget, honward₃.trans honward₄⟩
    simp only
    by_cases hzero : ch = unit '0'
    · rw [if_pos hzero, if_pos hzero]
      cases t with
      | nil =>
        exact (getChar_nil h₂.reading h₂.fluent honward₂.unread).bind fun s₃ honward₃ =>
          ⟨s₃, rfl, honward₃.stay⟩
      | cons ch2 t =>
        refine (getChar_cons h₂.reading h₂.fluent honward₂.unread).bind fun s₃ honward₃ => ?_
        have h₃ := h₂.onward honward₃
        have hback₁ := ungetChar_spec h₃.reading (UnicodeTables.toLower ch2)
        have hback₂ := ungetChar_spec hback₁.reading ch
        rw [hback₁.unread, honward₃.unread] at hback₂
        have honward₅ := hback₁.trans hback₂
        obtain ⟨s₆, hget, honward₆⟩ := @getInBase_spec _ _ _ _ _ _ _ _ _
          rounds (h₃.onward honward₅)
          (by
            rw [honward₅.unread]
            simp only [List.length_cons] at hle ⊢
            omega) (baseOf (UnicodeTables.toLower ch2))
        rw [honward₅.unread] at hget honward₆
        exact ⟨s₆, hget, honward₅.trans honward₆⟩
    · rw [if_neg hzero, if_neg hzero]
      by_cases hten : IsSign ch ∨ Utils.Character.isDigit ch = true
      · have hten' : ch = LocaleData.c.minus ∨ ch = LocaleData.c.plus ∨
            Utils.Character.isDigit ch = true := or_assoc.mp hten
        rw [if_pos hten, if_pos hten']
        exact hbehind 10 (h₂.onward hback) hback (by rw [List.length_cons]; omega)
      · have hten' : ¬(ch = LocaleData.c.minus ∨ ch = LocaleData.c.plus ∨
            Utils.Character.isDigit ch = true) := fun hc => hten (or_assoc.mpr hc)
        rw [if_neg hten, if_neg hten']
        exact ⟨_, rfl, hback⟩

end Text

end TextStream

end Libpdk.Io

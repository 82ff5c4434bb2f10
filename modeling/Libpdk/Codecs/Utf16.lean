import Libpdk.Core.Incremental
import Libpdk.Codecs.Utf8
import Libpdk.Io.DataStream

/-!
# UTF-16

`Utf16::convertFromUnicode` and `convertToUnicode`. The decoder takes one byte after the
other (`decodeByte`); what it keeps between two bytes is what its state keeps between
two calls, so chunks do not matter (`decodeChunks_eq`).
-/
namespace Libpdk.Codecs

open Io (Host ByteOrder)
open Incremental

inductive DataEndianness
  | detectEndianness
  | bigEndianness
  | littleEndianness
  deriving DecidableEq

/-- `m_stateData[Endian]` and what is at `m_stateData[Data]`. -/
structure EndianData (Data : Type) where
  endian : DataEndianness
  data : Data
  deriving DecidableEq

/-- Whether a byte order mark is written, or may come. -/
def headerOpen {Data : Type} (state : Option (ConverterState Data)) : Bool :=
  match state with
  | none => true
  | some state => !state.ignoreHeader

section Host

variable [Host]

/-- The order of the machine. -/
def hostEndianness : DataEndianness :=
  match Host.byteOrder with
  | .bigEndian => .bigEndianness
  | .littleEndian => .littleEndianness

/-- The order that is written. -/
def writtenEndianness (e : DataEndianness) : DataEndianness :=
  if e = .detectEndianness then hostEndianness else e

end Host

namespace Utf16

open Character

/-- mirrors lang/Character.h:586-589 -/
def getRow (u : UInt16) : UInt8 := UInt8.ofNat (u.toNat / 256)

/-- mirrors lang/Character.h:581-584 -/
def getCell (u : UInt16) : UInt8 := UInt8.ofNat (u.toNat % 256)

/-- A character with `setRow` and `setCell`.
mirrors lang/Character.h:591-599 -/
def character (row cell : UInt8) : UInt16 := UInt16.ofNat (row.toNat * 256 + cell.toNat)

def put (endian : DataEndianness) (u : UInt16) : Bytes :=
  if endian = .bigEndianness then [getRow u, getCell u] else [getCell u, getRow u]

theorem character_getRow_getCell (u : UInt16) : character (getRow u) (getCell u) = u := by
  have hu : u.toNat < 2 ^ 16 := u.toNat_lt
  apply UInt16.toNat.inj
  simp only [character, getRow, getCell, UInt16.toNat_ofNat', UInt8.toNat_ofNat']
  omega

abbrev State := ConverterState (EndianData UInt8)

/-- `ConverterState()` -/
def freshState : State := ⟨false, false, 0, 0, ⟨.detectEndianness, 0⟩⟩

variable [Host]

/-- mirrors text/codecs/UtfCodec.cpp:435-477 -/
def convertFromUnicode (uc : Str) (state : Option State) (e : DataEndianness) :
    Bytes × Option State :=
  let endian := writtenEndianness e
  ((if headerOpen state then put endian byteOrderMark else []) ++ uc.flatMap (put endian),
    state.map fun state => { state with remainingChars := 0, ignoreHeader := true })

/-- The locals of the decoder; `half` is the first byte of a unit. -/
structure Decoding where
  endian : DataEndianness
  half : Option UInt8
  headerdone : Bool
  deriving DecidableEq

/-- A first unit that is a byte order mark gives the order, any other one is in that of the
machine.
mirrors text/codecs/UtfCodec.cpp:508-526 -/
def decodeFirst (d : Decoding) (ch : UInt16) : Str × Decoding :=
  let d := { d with headerdone := true }
  if d.endian = .detectEndianness then
    if ch = byteOrderSwapped then ([], { d with endian := .littleEndianness })
    else if ch = byteOrderMark then ([], { d with endian := .bigEndianness })
    else
      match Host.byteOrder with
      | .bigEndian => ([ch], { d with endian := .bigEndianness })
      | .littleEndian =>
        ([UInt16.ofNat (ch.toNat / 256 + ch.toNat % 256 * 256)],
          { d with endian := .littleEndianness })
  else if ch ≠ byteOrderMark then ([ch], d)
  else ([], d)

/-- One round of the loop: the units it writes, and the locals.
mirrors text/codecs/UtfCodec.cpp:498-534 -/
def decodeByte (d : Decoding) (c : UInt8) : Str × Decoding :=
  match d.half with
  | none => ([], { d with half := some c })
  | some buf =>
    let ch := if d.endian = .littleEndianness then character c buf else character buf c
    let d := { d with half := none }
    if !d.headerdone then decodeFirst d ch else ([ch], d)

/-- mirrors text/codecs/UtfCodec.cpp:481-496 -/
def load (e : DataEndianness) (state : State) : Decoding :=
  let endian := if e = .detectEndianness then state.stateData.endian else e
  { endian :=
      if state.ignoreHeader && endian == .detectEndianness then hostEndianness else endian
    half := if state.remainingChars ≠ 0 then some state.stateData.data else none
    headerdone := state.ignoreHeader }

/-- mirrors text/codecs/UtfCodec.cpp:538-550 -/
def save (d : Decoding) (state : State) : State :=
  { state with
    ignoreHeader := state.ignoreHeader || d.headerdone
    stateData := ⟨d.endian, d.half.getD 0⟩
    remainingChars := if d.half.isSome then 1 else 0 }

/-- mirrors text/codecs/UtfCodec.cpp:479-552 -/
def convertToUnicode (chars : Bytes) (state : Option State) (e : DataEndianness) :
    Str × Option State :=
  match state with
  | none => ((run decodeByte chars ⟨e, none, false⟩).1, none)
  | some state =>
    let (units, state) := call decodeByte (load e) save chars state
    (units, some state)

/-- The chunks one after another with one state. -/
def decodeChunks (e : DataEndianness) : List Bytes → Option State → Str × Option State
  | [], state => ([], state)
  | x :: chunks, state =>
    let (units, state) := convertToUnicode x state e
    let (rest, state) := decodeChunks e chunks state
    (units ++ rest, state)

/-! ## Chunks -/

/-- The locals fit the mode that was asked for and the state. -/
structure Fits (e : DataEndianness) (state : State) (d : Decoding) : Prop where
  mode : e ≠ .detectEndianness → d.endian = e
  known : d.headerdone = true → d.endian ≠ .detectEndianness
  header : state.ignoreHeader = true → d.headerdone = true

theorem hostEndianness_ne : hostEndianness ≠ .detectEndianness := by
  rw [hostEndianness]
  split <;> simp

theorem fits_load (e : DataEndianness) (state : State) : Fits e state (load e state) where
  mode he := by simp [load, he]
  known hh := by
    simp only [load] at hh ⊢
    rw [hh, Bool.true_and]
    generalize (if e = .detectEndianness then state.stateData.endian else e) = endian
    cases endian with
    | detectEndianness => exact hostEndianness_ne
    | bigEndianness => simp
    | littleEndianness => simp
  header hh := hh

/-- The first unit settles the order, and leaves one that was asked for. -/
theorem decodeFirst_endian (d : Decoding) (ch : UInt16) :
    (decodeFirst d ch).2.endian ≠ .detectEndianness ∧
      (d.endian ≠ .detectEndianness → (decodeFirst d ch).2.endian = d.endian) := by
  by_cases he : d.endian = .detectEndianness
  · refine ⟨?_, fun h => absurd he h⟩
    simp only [decodeFirst, he, if_true]
    split
    · simp
    split
    · simp
    split <;> simp
  · have : (decodeFirst d ch).2.endian = d.endian := by
      simp only [decodeFirst, he, if_false]
      split <;> rfl
    exact ⟨this ▸ he, fun _ => this⟩

@[simp] theorem decodeFirst_headerdone (d : Decoding) (ch : UInt16) :
    (decodeFirst d ch).2.headerdone = true := by
  simp only [decodeFirst]
  split
  · split
    · rfl
    split
    · rfl
    split <;> rfl
  · split <;> rfl

theorem Fits.decodeByte {e : DataEndianness} {state : State} {d : Decoding} (h : Fits e state d)
    (c : UInt8) : Fits e state (decodeByte d c).2 := by
  obtain ⟨hm, hk, hi⟩ := h
  rw [Utf16.decodeByte]
  split
  · exact ⟨hm, hk, hi⟩
  simp only
  split
  · obtain ⟨hne, hkeep⟩ := decodeFirst_endian { d with half := none } _
    exact ⟨fun he => (hkeep (by rw [hm he]; exact he)).trans (hm he), fun _ => hne,
      fun _ => decodeFirst_headerdone _ _⟩
  · exact ⟨hm, hk, hi⟩

/-- What a call keeps is what the next one starts with. -/
theorem load_save {e : DataEndianness} {state : State} {d : Decoding} (h : Fits e state d) :
    load e (save d state) = d := by
  obtain ⟨hm, hk, hi⟩ := h
  obtain ⟨endian, half, headerdone⟩ := d
  simp only at hm hk hi
  have hh : (state.ignoreHeader || headerdone) = headerdone := by
    cases hs : state.ignoreHeader
    · rfl
    · rw [hi hs, Bool.true_or]
  have he : (if e = .detectEndianness then endian else e) = endian := by
    split
    · rfl
    · rename_i hne
      exact (hm hne).symm
  have hd : (headerdone && endian == .detectEndianness) = false := by
    cases headerdone
    · rfl
    · simpa using hk rfl
  simp only [load, save, hh, he, hd]
  cases half <;> rfl

theorem resumes (e : DataEndianness) : Resumes decodeByte (load e) save (Fits e) where
  fits_load := fits_load e
  fits_step h c := h.decodeByte c
  load_save := load_save
  save_save {state d d'} _ h' := by
    have hh : (state.ignoreHeader || d.headerdone || d'.headerdone) =
        (state.ignoreHeader || d'.headerdone) := by
      cases hd : d.headerdone
      · rw [Bool.or_false]
      · rw [h'.header (by simp only [save, hd, Bool.or_true]), Bool.or_true, Bool.or_true]
    simp only [save, hh]

theorem decodeChunks_calls (e : DataEndianness) (chunks : List Bytes) :
    ∀ state : State, decodeChunks e chunks (some state) =
      ((calls decodeByte (load e) save chunks state).1,
        some (calls decodeByte (load e) save chunks state).2) := by
  induction chunks with
  | nil => exact fun _ => rfl
  | cons x chunks ih =>
    intro state
    simp only [decodeChunks, convertToUnicode, ih]
    rfl

theorem decodeChunks_eq (e : DataEndianness) (x : Bytes) (chunks : List Bytes) (state : State) :
    decodeChunks e (x :: chunks) (some state) =
      convertToUnicode (x :: chunks).flatten (some state) e := by
  rw [decodeChunks_calls, (resumes e).calls_eq]
  rfl

/-! ## Round trip -/

/-- Behind the header the bytes of a unit give the unit. -/
theorem run_put {endian : DataEndianness} (he : endian ≠ .detectEndianness) (u : UInt16) :
    run decodeByte (put endian u) ⟨endian, none, true⟩ = ([u], ⟨endian, none, true⟩) := by
  cases endian with
  | detectEndianness => exact absurd rfl he
  | bigEndianness => simp [put, run, decodeByte, character_getRow_getCell]
  | littleEndianness => simp [put, run, decodeByte, character_getRow_getCell]

theorem run_flatMap_put {endian : DataEndianness} (he : endian ≠ .detectEndianness) (s : Str) :
    run decodeByte (s.flatMap (put endian)) ⟨endian, none, true⟩ = (s, ⟨endian, none, true⟩) := by
  induction s with
  | nil => rfl
  | cons u s ih => rw [List.flatMap_cons, run_append, run_put he, ih, List.singleton_append]

theorem writtenEndianness_ne (e : DataEndianness) : writtenEndianness e ≠ .detectEndianness := by
  rw [writtenEndianness]
  split
  · exact hostEndianness_ne
  · assumption

/-- The byte order mark is taken, and gives the order it is written in. -/
theorem run_mark (e : DataEndianness) :
    run decodeByte (put (writtenEndianness e) byteOrderMark) ⟨e, none, false⟩ =
      ([], ⟨writtenEndianness e, none, true⟩) := by
  cases e with
  | detectEndianness =>
    rw [writtenEndianness, if_pos rfl, hostEndianness]
    cases Host.byteOrder <;> rfl
  | bigEndianness => rfl
  | littleEndianness => rfl

omit [Host] in
theorem toNat_character (row cell : UInt8) :
    (character row cell).toNat = row.toNat * 256 + cell.toNat := by
  have hrow : row.toNat < 2 ^ 8 := row.toNat_lt
  have hcell : cell.toNat < 2 ^ 8 := cell.toNat_lt
  rw [character, UInt16.toNat_ofNat']
  omega

omit [Host] in
/-- A unit with its bytes the other way round. -/
theorem swap_character (row cell : UInt8) :
    UInt16.ofNat ((character row cell).toNat / 256 + (character row cell).toNat % 256 * 256) =
      character cell row := by
  have hrow : row.toNat < 2 ^ 8 := row.toNat_lt
  have hcell : cell.toNat < 2 ^ 8 := cell.toNat_lt
  have hdiv : (row.toNat * 256 + cell.toNat) / 256 = row.toNat := by omega
  have hmod : (row.toNat * 256 + cell.toNat) % 256 = cell.toNat := by omega
  apply UInt16.toNat.inj
  rw [toNat_character, toNat_character, UInt16.toNat_ofNat', hdiv, hmod]
  omega

/-- A first unit that is no byte order mark is read in the order of the machine. -/
theorem run_put_first {u : UInt16} (hmark : u ≠ byteOrderMark) (hswapped : u ≠ byteOrderSwapped) :
    run decodeByte (put hostEndianness u) ⟨.detectEndianness, none, false⟩ =
      ([u], ⟨hostEndianness, none, true⟩) := by
  rw [hostEndianness]
  cases hhost : Host.byteOrder with
  | bigEndian =>
    simp [put, run, decodeByte, decodeFirst, character_getRow_getCell, hmark, hswapped, hhost]
  | littleEndian =>
    have hback := swap_character (getCell u) (getRow u)
    rw [character_getRow_getCell] at hback
    have hmark' : character (getCell u) (getRow u) ≠ byteOrderMark := by
      intro h
      rw [h] at hback
      exact hswapped hback.symm
    have hswapped' : character (getCell u) (getRow u) ≠ byteOrderSwapped := by
      intro h
      rw [h] at hback
      exact hmark hback.symm
    simp [put, run, decodeByte, decodeFirst, hhost, hmark', hswapped', hback, -UInt16.ofNat_add]

/-- No state, or a new one. -/
def newState (given : Bool) : Option State := if given then some freshState else none

theorem convertToUnicode_newState (chars : Bytes) (given : Bool) (e : DataEndianness) :
    (convertToUnicode chars (newState given) e).1 = (run decodeByte chars ⟨e, none, false⟩).1 := by
  cases given with
  | false => rfl
  | true => cases e <;> rfl

theorem convertToUnicode_convertFromUnicode (s : Str) (e : DataEndianness) (given given' : Bool) :
    (convertToUnicode (convertFromUnicode s (newState given) e).1 (newState given') e).1 = s := by
  have hopen : headerOpen (newState given) = true := by
    cases given <;> rfl
  simp only [convertToUnicode_newState, convertFromUnicode, hopen, if_true, run_append, run_mark,
    run_flatMap_put (writtenEndianness_ne e), List.nil_append]

/-- What is encoded is decoded again; however a stream is cut, the units and the whole state,
so the order and the byte left over, are those of one call. -/
theorem codec (e : DataEndianness) :
    (∀ (s : Str) (given given' : Bool),
      (convertToUnicode (convertFromUnicode s (newState given) e).1 (newState given') e).1 = s) ∧
    ∀ (x : Bytes) (chunks : List Bytes) (state : State),
      decodeChunks e (x :: chunks) (some state) =
        convertToUnicode (x :: chunks).flatten (some state) e :=
  ⟨fun s given given' => convertToUnicode_convertFromUnicode s e given given',
    fun x chunks state => decodeChunks_eq e x chunks state⟩

end Utf16

end Libpdk.Codecs

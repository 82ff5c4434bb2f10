import Libpdk.Io.TextStream
import Libpdk.Io.RandomAccessRead

/-!
# What a text stream reads

`unread s` is the text before a stream: for a device the rest of its read buffer and what its codec
makes of the bytes before the device, which does not depend on how they are cut
(`ChunkInvariant`). A fill moves text from one part to the other (`fill_spec`); reading and
scanning take from its front.
-/
namespace Libpdk.Io

open PushQueue
open Codecs (ConverterState)
open Buffer (narrow)
open Utils (UnicodeTables)

/-- The codec decodes bytes as it decodes their chunks, one behind the other. -/
structure TextCodec.ChunkInvariant {C Data : Type} [TextCodec C Data] (codec : C) : Prop where
  nil : ∀ state, toUnicode codec [] state = ([], state)
  append : ∀ a b state, toUnicode codec (a ++ b) state =
    ((toUnicode codec a state).1 ++ (toUnicode codec b (toUnicode codec a state).2).1,
      (toUnicode codec b (toUnicode codec a state).2).2)

namespace TextStream

variable {B D C Data : Type} [PushQueue B] [FileDevice B D] [TextCodec C Data]

open RandomAccess (Placed Moved)
open TextCodec (toUnicode)

/-- The characters that a fill keeps. -/
def kept (textModeEnabled : Bool) (t : Str) : Str :=
  if textModeEnabled then t.filter (· ≠ carriageReturn) else t

@[simp] theorem kept_nil (textModeEnabled : Bool) : kept textModeEnabled [] = [] := by
  cases textModeEnabled <;> rfl

@[simp] theorem kept_append (textModeEnabled : Bool) (a b : Str) :
    kept textModeEnabled (a ++ b) = kept textModeEnabled a ++ kept textModeEnabled b := by
  cases textModeEnabled with
  | true => exact List.filter_append ..
  | false => rfl

/-- The text that the codec makes of bytes. -/
def decode (codec : C) (state : ConverterState Data) (textModeEnabled : Bool) (bytes : Bytes) :
    Str :=
  kept textModeEnabled (toUnicode codec bytes state).1

def unread (s : TextStream B D C Data) : Str :=
  match s.source with
  | .string text offset => text.drop offset
  | .device d =>
    s.readBuffer.drop s.readBufferOffset ++ decode s.codec s.readConverterState d.text d.rest

/-- A stream on a device, with a fixed codec. -/
structure OnDevice (s : TextStream B D C Data) (d : RandomAccess B D) : Prop where
  source : s.source = .device d
  placed : Placed d
  readable : d.readable = true
  offset_le : s.readBufferOffset ≤ s.readBuffer.length
  fixed : s.autoDetectUnicode = false
  codec : TextCodec.ChunkInvariant s.codec
  size : 0 < s.bufferSize

variable {s s' : TextStream B D C Data} {d : RandomAccess B D}

theorem OnDevice.unread_eq (h : OnDevice s d) : s.unread =
    s.readBuffer.drop s.readBufferOffset ++ decode s.codec s.readConverterState d.text d.rest := by
  rw [unread, h.source]

/-! ## The read buffer -/

theorem moveOffset_eq : ∀ (l : Str) {n offset : Nat}, offset ≤ n → moveOffset n offset l = offset
  | [], _, _, _ => rfl
  | ch :: l, n, offset, h => by
    rw [moveOffset, if_neg (by omega), moveOffset_eq l (by omega)]

omit [PushQueue B] [FileDevice B D] in
theorem addBytes_eq (hfixed : s.autoDetectUnicode = false)
    (hle : s.readBufferOffset ≤ s.readBuffer.length) (textModeEnabled : Bool) (bytes : Bytes) :
    s.addBytes textModeEnabled bytes = { s with
      readConverterState := (toUnicode s.codec bytes s.readConverterState).2
      readBuffer := s.readBuffer ++ decode s.codec s.readConverterState textModeEnabled bytes } := by
  have hdetect : s.detectCodec bytes = s := if_neg (by simp [hfixed])
  unfold addBytes decode
  rw [hdetect]
  cases textModeEnabled with
  | true =>
    simp only [if_true, removeReturns, kept]
    rw [moveOffset_eq _ (by omega)]
  | false => rfl

/-- A chunk of the bytes before the device is read. -/
theorem fillReadBuffer_eq (h : OnDevice s d) {maxBytes : Int} {n : Nat}
    (hn : (if maxBytes ≠ -1 then min (s.bufferSize : Int) maxBytes else s.bufferSize) = n) :
    ∃ d', Moved d d' ∧ d'.rest = d.rest.drop n ∧ s.fillReadBuffer maxBytes =
      if d.rest.take n = [] then some (false, { s with source := .device d' })
      else some (true, { s with source := .device d' }.addBytes d.text (d.rest.take n)) := by
  have hplaced : Placed { d with text := false } :=
    ⟨h.placed.le, h.placed.devicePos, h.placed.ready, h.placed.chunk⟩
  obtain ⟨d₁, hread, hmoved, hrest⟩ := RandomAccess.read_spec hplaced h.readable n
  rw [RandomAccess.strip_false] at hread
  rw [RandomAccess.left_false] at hrest
  have hsame := hmoved.same
  have hmoved' : Moved d { d₁ with text := d.text } :=
    ⟨⟨hsame.readable, hsame.writable, hsame.unbuffered, rfl, hsame.chunk, hsame.file⟩,
      ⟨hmoved.placed.le, hmoved.placed.devicePos, hmoved.placed.ready, hmoved.placed.chunk⟩,
      hmoved.pos, hmoved.empty⟩
  refine ⟨{ d₁ with text := d.text }, hmoved', hrest, ?_⟩
  have hrest' : RandomAccess.rest { d with text := false } = d.rest := rfl
  unfold fillReadBuffer
  rw [h.source]
  simp only [hn, hread, hrest', Option.map_some]
  cases d.rest.take n with
  | nil => rfl
  | cons b bytes => rfl

/-- A stream that can be read. -/
structure Reading (s : TextStream B D C Data) : Prop where
  source : (∃ text offset, s.source = .string text offset ∧ offset ≤ text.length) ∨
    ∃ d, OnDevice s d
  lastToken : 0 ≤ s.lastTokenSize

/-- A character is in the read buffer unless that is empty, and every chunk that is left decodes
to a character at least. -/
def Fluent (s : TextStream B D C Data) : Prop :=
  ∀ d, s.source = .device d →
    (s.readBuffer = [] ∨ s.readBufferOffset < s.readBuffer.length) ∧
    ∀ k, k * s.bufferSize < d.rest.length →
      decode s.codec (toUnicode s.codec (d.rest.take (k * s.bufferSize)) s.readConverterState).2
        d.text ((d.rest.drop (k * s.bufferSize)).take s.bufferSize) ≠ []

/-- What fills add to a stream. -/
structure Grown (s s' : TextStream B D C Data) : Prop where
  reading : Reading s'
  fluent : Fluent s → Fluent s'
  unread : s'.unread = s.unread
  offset : s'.offset = s.offset
  integerBase : s'.integerBase = s.integerBase
  status : s'.status = s.status
  text : s.text <+: s'.text

theorem Grown.refl (h : Reading s) : Grown s s :=
  ⟨h, id, rfl, rfl, rfl, rfl, List.prefix_rfl⟩

theorem Grown.trans {s₁ s₂ : TextStream B D C Data} (h : Grown s s₁) (h' : Grown s₁ s₂) :
    Grown s s₂ :=
  ⟨h'.reading, h'.fluent ∘ h.fluent, h'.unread.trans h.unread, h'.offset.trans h.offset,
    h'.integerBase.trans h.integerBase, h'.status.trans h.status, h.text.trans h'.text⟩

theorem OnDevice.grown (h : OnDevice s d) (hlast : 0 ≤ s.lastTokenSize) {d' : RandomAccess B D}
    {state : ConverterState Data} {added : Str} (h' : OnDevice { s with
      source := .device d', readConverterState := state, readBuffer := s.readBuffer ++ added } d')
    (hunread : unread { s with
      source := .device d', readConverterState := state, readBuffer := s.readBuffer ++ added } =
        s.unread)
    (hchunks : Fluent s → ∀ k, k * s.bufferSize < d'.rest.length →
      decode s.codec (toUnicode s.codec (d'.rest.take (k * s.bufferSize)) state).2 d'.text
        ((d'.rest.drop (k * s.bufferSize)).take s.bufferSize) ≠ []) :
    Grown s { s with
      source := .device d', readConverterState := state, readBuffer := s.readBuffer ++ added } := by
  refine ⟨⟨.inr ⟨d', h'⟩, hlast⟩, fun hfluent d'' hd'' => ?_, hunread, ?_, rfl, rfl, ?_⟩
  · obtain rfl : d' = d'' := by simpa using hd''
    refine ⟨?_, hchunks hfluent⟩
    have hle := h.offset_le
    rw [or_iff_not_imp_left]
    intro hne
    have hpos := List.length_pos_iff.mpr hne
    simp only [List.length_append] at hpos ⊢
    rcases (hfluent d h.source).1 with hnil | hlt
    · rw [hnil, List.length_nil] at hle hpos ⊢
      omega
    · omega
  · simp only [offset, h.source]
  · simp only [text, h.source]
    exact List.prefix_append _ _

/-- A fill decodes a chunk, or there is none. -/
theorem fill_spec (h : OnDevice s d) (hlast : 0 ≤ s.lastTokenSize) : ∃ b s' d', s.fillReadBuffer (-1) = some (b, s') ∧
    Grown s s' ∧ OnDevice s' d' ∧ d'.rest.length ≤ d.rest.length ∧
      (b = true → d'.rest.length < d.rest.length ∧
        (Fluent s → s.text.length < s'.text.length)) ∧
      (b = false → d'.rest = [] ∧ s'.text = s.text) := by
  obtain ⟨d', hmoved, hrest, hfill⟩ := @fillReadBuffer_eq _ _ _ _ _ _ _ _ _ h (-1)
    s.bufferSize rfl
  have hlen : d'.rest.length = d.rest.length - s.bufferSize := by
    rw [hrest, List.length_drop]
  have hreadable := hmoved.same.readable.trans h.readable
  have hsize := h.size
  have hsplit := List.take_append_drop s.bufferSize d.rest
  by_cases hnil : d.rest.take s.bufferSize = []
  · rw [if_pos hnil] at hfill
    have hempty : d.rest = [] := by
      rw [List.take_eq_nil_iff] at hnil
      exact hnil.resolve_left (by omega)
    have hsame : { s with source := .device d' } = { s with
        source := .device d'
        readConverterState := s.readConverterState
        readBuffer := s.readBuffer ++ [] } := by rw [List.append_nil]
    have hon : OnDevice { s with source := .device d' } d' :=
      ⟨rfl, hmoved.placed, hreadable, h.offset_le, h.fixed, h.codec, h.size⟩
    have hunread : unread { s with source := .device d' } = s.unread := by
      rw [hon.unread_eq, h.unread_eq, hrest, hempty, hmoved.same.text, List.drop_nil]
    refine ⟨false, _, d', hfill, ?_, hon, by omega, by simp, ?_⟩
    · rw [hsame] at hon hunread ⊢
      refine h.grown hlast hon hunread fun _ k hk => ?_
      rw [hrest, hempty, List.drop_nil] at hk
      simp at hk
    · refine fun _ => ⟨by rw [hrest, hempty, List.drop_nil], ?_⟩
      simp only [text, h.source]
  · rw [if_neg hnil, addBytes_eq (s := { s with source := .device d' }) h.fixed h.offset_le] at hfill
    have hpos : 0 < d.rest.length := by
      refine List.length_pos_iff.mpr fun he => hnil ?_
      rw [he, List.take_nil]
    have hon : OnDevice { s with
        source := .device d'
        readConverterState :=
          (toUnicode s.codec (d.rest.take s.bufferSize) s.readConverterState).2
        readBuffer := s.readBuffer ++
          decode s.codec s.readConverterState d.text (d.rest.take s.bufferSize) } d' :=
      ⟨rfl, hmoved.placed, hreadable, h.offset_le.trans (by simp), h.fixed, h.codec, h.size⟩
    refine ⟨true, _, d', hfill, h.grown hlast hon ?_ fun hfluent k hk => ?_, hon, by omega,
      fun _ => ⟨by omega, fun hfluent => ?_⟩, by simp⟩
    · rw [h.unread_eq]
      unfold unread decode
      simp only [hmoved.same.text, hrest]
      conv_rhs => rw [← hsplit, h.codec.append]
      rw [kept_append, List.drop_append_of_le_length h.offset_le, List.append_assoc]
    · -- the chunk after `k` others is the one after one more before
      have hnext : (k + 1) * s.bufferSize = s.bufferSize + k * s.bufferSize := by
        rw [Nat.succ_mul, Nat.add_comm]
      have hchunk := (hfluent d h.source).2 (k + 1) (by omega)
      rw [hnext, List.take_add, h.codec.append] at hchunk
      rw [hmoved.same.text, hrest, List.drop_drop]
      exact hchunk
    · have hchunk := (hfluent d h.source).2 0 (by omega)
      rw [Nat.zero_mul, List.take_zero, List.drop_zero, h.codec.nil] at hchunk
      have hadded := List.length_pos_iff.mpr hchunk
      dsimp only at hadded
      simp only [text, h.source, List.length_append]
      omega

/-- The text in the memory of a stream, and the text behind it. -/
theorem Reading.split (h : Reading s) : s.offset ≤ s.text.length ∧
    ∃ later, s.unread = s.text.drop s.offset ++ later := by
  rcases h.source with ⟨t, start, hsource, hle⟩ | ⟨d, h⟩
  · simp only [offset, text, unread, hsource]
    exact ⟨hle, [], by rw [List.append_nil]⟩
  · simp only [offset, text, unread, h.source]
    exact ⟨h.offset_le, _, rfl⟩

/-! ## Consuming -/

/-- The stream goes on before the text `t`. -/
structure Onward (s s' : TextStream B D C Data) (t : Str) : Prop where
  reading : Reading s'
  fluent : Fluent s → Fluent s'
  unread : s'.unread = t
  integerBase : s'.integerBase = s.integerBase
  status : s'.status = s.status

theorem Grown.onward (h : Grown s s') : Onward s s' s.unread :=
  ⟨h.reading, h.fluent, h.unread, h.integerBase, h.status⟩

theorem Onward.trans {s₁ s₂ : TextStream B D C Data} {t t' : Str} (h : Onward s s₁ t)
    (h' : Onward s₁ s₂ t') : Onward s s₂ t' :=
  ⟨h'.reading, h'.fluent ∘ h.fluent, h'.unread, h'.integerBase.trans h.integerBase, h'.status.trans h.status⟩

/-- The size of the last token says nothing about the text. -/
theorem Onward.lastToken {t : Str} (h : Onward s s' t) {n : Int} (hn : 0 ≤ n) :
    Onward s { s' with lastTokenSize := n } t := by
  refine ⟨⟨?_, hn⟩, h.fluent, h.unread, h.integerBase, h.status⟩
  rcases h.reading.source with hstring | ⟨d, h⟩
  · exact .inl hstring
  · exact .inr ⟨d, h.source, h.placed, h.readable, h.offset_le, h.fixed, h.codec, h.size⟩

/-- Characters in the memory of the stream are consumed; where nothing is unread, any number. -/
theorem consume_spec (h : Reading s) {n : Nat}
    (hn : s.offset + n ≤ s.text.length ∨ s.unread = []) :
    Onward s (s.consume n) (s.unread.drop n) := by
  rcases h.source with ⟨t, start, hsource, hle⟩ | ⟨d, hd⟩
  · simp only [offset, text, unread, hsource] at hn
    have hmin : (start + n : Int).toNat = start + n := by omega
    have hnew : s.consume n = { s with source := .string t (min (start + n) t.length) } := by
      unfold consume
      rw [hsource]
      simp only [hmin]
    rw [hnew]
    refine ⟨⟨.inl ⟨t, _, rfl, Nat.min_le_right _ _⟩, h.lastToken⟩, fun _ d hd => (by cases hd), ?_,
      rfl, rfl⟩
    simp only [unread, hsource, List.drop_drop]
    exact List.drop_eq_drop_min.symm
  · simp only [offset, text, hd.source] at hn
    have hunread := hd.unread_eq
    have hoffset : ((s.readBufferOffset : Int) + n).toNat = s.readBufferOffset + n := by omega
    have hle := hd.offset_le
    have hdrop : s.unread.drop n = s.readBuffer.drop (s.readBufferOffset + n) ++
        decode s.codec s.readConverterState d.text d.rest := by
      rcases hn with hn | hnil
      · rw [hunread, List.drop_append_of_le_length (by rw [List.length_drop]; omega),
          List.drop_drop]
      · rw [hnil] at hunread
        obtain ⟨hbuffer, hdecode⟩ := List.append_eq_nil_iff.mp hunread.symm
        rw [hnil, hdecode, ← List.drop_drop, hbuffer, List.drop_nil, List.append_nil]
    rw [hdrop]
    unfold consume
    rw [hd.source]
    simp only [hoffset]
    split
    · rename_i hall
      refine ⟨⟨.inr ⟨d, rfl, hd.placed, hd.readable, by simp [saveConverterState], hd.fixed,
        hd.codec, hd.size⟩, h.lastToken⟩, fun hfluent d' hd' => ?_, ?_, rfl, rfl⟩
      · exact ⟨.inl rfl, (hfluent d' (hd.source.trans hd')).2⟩
      · simp only [unread, saveConverterState, List.drop_nil, List.drop_of_length_le hall]
    · rename_i hin
      split
      · refine ⟨⟨.inr ⟨d, rfl, hd.placed, hd.readable, Nat.zero_le _, hd.fixed, hd.codec, hd.size⟩,
          h.lastToken⟩, fun hfluent d' hd' => ⟨.inr ?_, (hfluent d' (hd.source.trans hd')).2⟩, ?_,
          rfl, rfl⟩
        · simp only [List.length_drop]
          omega
        · simp only [unread, List.drop_zero]
      · exact ⟨⟨.inr ⟨d, rfl, hd.placed, hd.readable, by simp only; omega, hd.fixed, hd.codec,
          hd.size⟩, h.lastToken⟩, fun hfluent d' hd' => ⟨.inr (by simp only; omega),
            (hfluent d' (hd.source.trans hd')).2⟩, rfl, rfl, rfl⟩

theorem consumeLastToken_spec (h : Reading s) {n : Nat} (hlast : s.lastTokenSize = n)
    (hn : s.offset + n ≤ s.text.length ∨ s.unread = []) :
    Onward s s.consumeLastToken (s.unread.drop n) := by
  unfold consumeLastToken
  rw [hlast]
  by_cases hzero : (n : Int) ≠ 0
  · rw [if_pos hzero]
    exact (consume_spec h hn).lastToken (Int.le_refl 0)
  · rw [if_neg hzero]
    obtain rfl : n = 0 := by omega
    exact (Grown.refl h).onward.lastToken (Int.le_refl 0)

/-! ## Reading -/

theorem OnDevice.decode_nil (h : OnDevice s d) (textModeEnabled : Bool) :
    decode s.codec s.readConverterState textModeEnabled [] = [] := by
  rw [decode, h.codec.nil, kept_nil]

/-- All that is unread is in the memory of the stream. -/
theorem OnDevice.all (h : OnDevice s d) (hrest : d.rest = []) :
    s.unread = s.text.drop s.offset := by
  rw [h.unread_eq, hrest, h.decode_nil, List.append_nil]
  simp only [text, offset, h.source]

theorem OnDevice.rest_lt (h : OnDevice s d) : d.rest.length < s.rounds := by
  have hle := h.placed.le
  simp only [rounds, h.source]
  rw [FileDevice.getSize_eq, RandomAccess.rest, List.length_append, List.length_drop]
  omega

theorem fillFor_spec (n : Nat) : ∀ (rounds : Nat) {s : TextStream B D C Data}
    {d : RandomAccess B D}, OnDevice s d → 0 ≤ s.lastTokenSize → d.rest.length < rounds → ∃ s',
    fillFor n rounds s = some s' ∧ Grown s s' ∧
      (s'.offset + n ≤ s'.text.length ∨ s'.unread = s'.text.drop s'.offset)
  | 0, s, d, _, _, hlt => by omega
  | rounds + 1, s, d, h, hlast, hlt => by
    rw [fillFor]
    split
    · obtain ⟨b, s₁, d₁, hfill, hgrown, hon, -, htrue, hfalse⟩ := fill_spec h hlast
      rw [hfill, Option.bind_some]
      cases b with
      | true =>
        have := (htrue rfl).1
        obtain ⟨s₂, hloop, hgrown₂, hdone⟩ := fillFor_spec n rounds hon hgrown.reading.lastToken (by omega)
        exact ⟨s₂, hloop, hgrown.trans hgrown₂, hdone⟩
      | false => exact ⟨s₁, rfl, hgrown, .inr (hon.all (hfalse rfl).1)⟩
    · rename_i hmany
      refine ⟨s, rfl, Grown.refl ⟨.inr ⟨d, h⟩, hlast⟩, .inl ?_⟩
      have hle := h.offset_le
      simp only [text, offset, h.source]
      omega

/-- The characters that are wanted are in the memory of the stream, as far as there are any. -/
theorem prepare_spec (h : Reading s) (n : Nat) : ∃ s', s.prepare n = some s' ∧ Grown s s' ∧
    (s'.offset + n ≤ s'.text.length ∨ s'.unread = s'.text.drop s'.offset) := by
  rcases h.source with ⟨t, start, hsource, hle⟩ | ⟨d, hd⟩
  · refine ⟨s, by rw [prepare, hsource], Grown.refl h, .inr ?_⟩
    simp only [unread, text, offset, hsource]
  · obtain ⟨s', hfill, hgrown, hdone⟩ := fillFor_spec n s.rounds hd h.lastToken hd.rest_lt
    exact ⟨s', by rw [prepare, hd.source]; exact hfill, hgrown, hdone⟩

theorem readInt_spec (h : Reading s) (n : Nat) : ∃ s',
    s.readInt n = some (s.unread.take n, s') ∧ Onward s s' (s.unread.drop n) := by
  obtain ⟨s₁, hprepare, hgrown, hdone⟩ := prepare_spec h n
  obtain ⟨hle, later, hlater⟩ := hgrown.reading.split
  -- the size of the token
  obtain ⟨m, hm⟩ : ∃ m, m = min n (s₁.text.length - s₁.offset) := ⟨_, rfl⟩
  have hsize : min (n : Int) (s₁.text.length - s₁.offset) = m := by omega
  have htoken : s.unread.take n = (s₁.text.drop s₁.offset).take m ∧
      s.unread.drop n = s.unread.drop m := by
    rw [← hgrown.unread]
    have hlen : (s₁.text.drop s₁.offset).length = s₁.text.length - s₁.offset := List.length_drop
    rcases hdone with hmany | hall
    · obtain rfl : m = n := by omega
      rw [hlater, List.take_append_of_le_length (by omega)]
      exact ⟨rfl, rfl⟩
    · rw [hall, hm, ← hlen]
      generalize s₁.text.drop s₁.offset = l
      exact ⟨List.take_eq_take_min, List.drop_eq_drop_min⟩
  have hin : s₁.offset + m ≤ s₁.text.length := by omega
  have honward := consumeLastToken_spec (s := { s₁ with lastTokenSize := m })
    (hgrown.onward.lastToken (by omega)).reading rfl (.inl hin)
  have hunread : ({ s₁ with lastTokenSize := (m : Int) }).unread = s.unread := hgrown.unread
  rw [hunread] at honward
  refine ⟨_, ?_, (hgrown.onward.lastToken (by omega)).trans (htoken.2 ▸ honward)⟩
  unfold readInt
  simp only [hprepare, Option.bind_eq_bind, Option.bind_some, hsize]
  rw [if_neg (by omega), substring, if_neg (by omega), Int.toNat_natCast, htoken.1]

theorem read_spec (h : Reading s) {n : Int} (hn : n < 2147483648) : ∃ s',
    s.read n = some (s.unread.take n.toNat, s') ∧ Onward s s' (s.unread.drop n.toNat) := by
  unfold read
  by_cases hpos : n ≤ 0
  · rw [if_pos hpos]
    obtain hz : n.toNat = 0 := by omega
    rw [hz]
    exact ⟨s, rfl, (Grown.refl h).onward⟩
  · rw [if_neg hpos, Buffer.narrow_eq (by omega) hn, show n = ((n.toNat : Nat) : Int) by omega,
      Int.toNat_natCast]
    exact readInt_spec h n.toNat

/-! ## Scanning -/

/-- A character at which a token ends. -/
def stops [UnicodeTables] (delimiter : TokenDelimiter) (ch : UInt16) : Bool :=
  match delimiter with
  | .space => Utils.Character.isSpace ch
  | .notSpace => !Utils.Character.isSpace ch
  | .endOfLine => ch == lineFeed

section Tables

variable [UnicodeTables] {delimiter : TokenDelimiter}

theorem scanChars_append (maxlen : Int) : ∀ (a : Str) (k : Scanning) (b : Str),
    scanChars delimiter maxlen k (a ++ b) =
      scanChars delimiter maxlen (scanChars delimiter maxlen k a) b
  | [], _, _ => rfl
  | ch :: a, k, b => by
    rw [List.cons_append, scanChars, scanChars]
    split
    · exact scanChars_append maxlen a _ b
    · rename_i hstop
      cases b with
      | nil => rfl
      | cons c b => rw [scanChars, if_neg hstop]

theorem scanChar_sizes (k : Scanning) (ch : UInt16) :
    (scanChar delimiter k ch).totalSize = k.totalSize + 1 ∧
      (scanChar delimiter k ch).startOffset = k.startOffset + 1 := by
  unfold scanChar
  cases delimiter <;> simp only <;> split <;> exact ⟨rfl, rfl⟩

/-- A scan that goes on has seen all characters, and one that does not has seen no others. -/
theorem scanChars_sizes (maxlen : Int) : ∀ (l : Str) (k : Scanning), ∃ n ≤ l.length,
    (scanChars delimiter maxlen k l).totalSize = k.totalSize + n ∧
      (scanChars delimiter maxlen k l).startOffset = k.startOffset + n ∧
      ((scanChars delimiter maxlen k l).goesOn maxlen = true → n = l.length)
  | [], k => ⟨0, Nat.le_refl _, rfl, rfl, fun _ => rfl⟩
  | ch :: l, k => by
    rw [scanChars]
    split
    · obtain ⟨htotal, hstart⟩ := @scanChar_sizes _ delimiter k ch
      obtain ⟨n, hn, htotal', hstart', hall⟩ :=
        scanChars_sizes maxlen l (scanChar delimiter k ch)
      exact ⟨n + 1, by simpa using hn, by omega, by omega, fun h => by simpa using hall h⟩
    · rename_i hstop
      exact ⟨0, Nat.zero_le _, rfl, rfl, fun h => absurd h hstop⟩

/-- Behind its end a scan changes nothing. -/
theorem scanChars_stop {maxlen : Int} {k : Scanning} (h : k.goesOn maxlen = false) (l : Str) :
    scanChars delimiter maxlen k l = k := by
  cases l with
  | nil => rfl
  | cons ch l => rw [scanChars, if_neg (by simp [h])]

/-- Before the end of a token the characters are counted, and the last is remembered. -/
theorem scanChars_within : ∀ (a : Str) (k : Scanning), k.foundToken = false →
    (∀ ch ∈ a, stops delimiter ch = false) → scanChars delimiter 0 k a = { k with
      totalSize := k.totalSize + a.length
      startOffset := k.startOffset + a.length
      lastChar := if delimiter = .endOfLine then a.getLast?.getD k.lastChar else k.lastChar }
  | [], k, _, _ => by simp [scanChars]
  | ch :: a, k, hfound, hstops => by
    have hch := hstops ch List.mem_cons_self
    have hstep : scanChar delimiter k ch = { k with
        totalSize := k.totalSize + 1
        startOffset := k.startOffset + 1
        lastChar := if delimiter = .endOfLine then ch else k.lastChar } := by
      unfold stops at hch
      unfold scanChar
      cases delimiter with
      | space => simp only at hch; simp [hch]
      | notSpace => simp only at hch; simp [hch]
      | endOfLine =>
        have hlf : ch ≠ lineFeed := by simpa using hch
        simp [hlf]
    have hrest := scanChars_within a (scanChar delimiter k ch) (by rw [hstep]; exact hfound)
      fun c hc => hstops c (List.mem_cons_of_mem _ hc)
    rw [scanChars, if_pos (by simp [Scanning.goesOn, hfound]), hrest, hstep]
    simp only [List.length_cons, Scanning.mk.injEq, true_and]
    refine ⟨by omega, by omega, ?_⟩
    by_cases hline : delimiter = .endOfLine
    · simp only [if_pos hline]
      cases a with
      | nil => rfl
      | cons c a => rw [List.getLast?_cons_cons]; simp [List.getLast?_cons]
    · simp only [if_neg hline]

/-- Where a scan begins. -/
def Scanning.start (offset : Nat) : Scanning := ⟨0, 0, false, false, offset, 0⟩

/-- The scan of a text that has no end of a token. -/
theorem scanChars_open {t : Str} (ht : ∀ ch ∈ t, stops delimiter ch = false) (start : Nat) :
    let k := scanChars delimiter 0 (.start start) t
    k.foundToken = false ∧ k.totalSize = t.length ∧ k.delimSize = 0 ∧
      k.consumeDelimiter = false ∧
      (delimiter = .endOfLine → (k.lastChar = carriageReturn ↔ t.getLast? = some carriageReturn)) := by
  intro k
  have hk : k = _ := scanChars_within t (.start start) rfl ht
  rw [hk]
  refine ⟨rfl, Nat.zero_add _, rfl, rfl, fun hline => ?_⟩
  simp only [if_pos hline, Scanning.start]
  cases t.getLast? with
  | none => simp [carriageReturn]
  | some c => simp

/-- The scan of a text with the end of a token. -/
theorem scanChars_ended {a : Str} (ha : ∀ ch ∈ a, stops delimiter ch = false) {c : UInt16}
    (hc : stops delimiter c = true) (b : Str) (start : Nat) :
    let k := scanChars delimiter 0 (.start start) (a ++ c :: b)
    k.foundToken = true ∧ k.totalSize = a.length + 1 ∧
      k.delimSize = (if delimiter = .endOfLine ∧ a.getLast? = some carriageReturn then 2 else 1) ∧
      k.consumeDelimiter = decide (delimiter = .endOfLine) := by
  intro k
  obtain ⟨k₁, hk₁⟩ : ∃ k₁, k₁ = scanChars delimiter 0 (.start start) a := ⟨_, rfl⟩
  obtain ⟨hfound, htotal, hdelim, hconsume, hlast⟩ := scanChars_open ha start
  rw [← hk₁] at hfound htotal hdelim hconsume hlast
  have hk : k = scanChar delimiter k₁ c := by
    have hgoes : k₁.goesOn 0 = true := by simp [Scanning.goesOn, hfound]
    rw [show k = scanChars delimiter 0 (.start start) (a ++ c :: b) from rfl, scanChars_append,
      ← hk₁, scanChars, if_pos hgoes]
    refine scanChars_stop ?_ b
    unfold stops at hc
    unfold scanChar Scanning.goesOn
    cases delimiter <;> simp_all
  rw [hk]
  unfold stops at hc
  unfold scanChar
  cases delimiter with
  | space => simp only at hc; simp [hc, htotal, hconsume]
  | notSpace => simp only at hc; simp [hc, htotal, hconsume]
  | endOfLine =>
    have hlf : c = lineFeed := by simpa using hc
    have hreturn := hlast rfl
    simp only [hlf, if_true, htotal, true_and, decide_true, and_true]
    simp only [hreturn]

end Tables

/-! ## The loop of a scan -/

/-- Text in the memory of a stream is unread. -/
theorem Reading.take_text (h : Reading s) {n : Nat} (hn : s.offset + n ≤ s.text.length) :
    (s.text.drop s.offset).take n = s.unread.take n := by
  obtain ⟨-, later, hlater⟩ := h.split
  rw [hlater, List.take_append_of_le_length (by rw [List.length_drop]; omega)]

theorem atEnd_of_rest (hrest : d.rest = []) : d.atEnd = true := by
  obtain ⟨hbuffer, hfile⟩ := List.append_eq_nil_iff.mp hrest
  have hempty : isEmpty d.buffer = true := (isEmpty_eq_true _).mpr hbuffer
  rw [hbuffer, List.length_nil, Nat.add_zero, List.drop_eq_nil_iff] at hfile
  rw [RandomAccess.atEnd, hempty, Bool.true_and, decide_eq_true_eq, FileDevice.getSize_eq]
  omega

section Tables

variable [UnicodeTables] {delimiter : TokenDelimiter}

/-- A scan of the text in the memory of the stream, with as many fills as are needed, is the scan
of what is unread. -/
theorem scanLoop_spec (maxlen : Int) : ∀ (rounds : Nat) {s : TextStream B D C Data}
    {d : RandomAccess B D} {k : Scanning}, OnDevice s d → 0 ≤ s.lastTokenSize →
    d.rest.length < rounds → k.startOffset = s.offset + k.totalSize →
    k.startOffset ≤ s.text.length → ∃ s',
    scanLoop delimiter maxlen rounds k s =
        some (scanChars delimiter maxlen k (s.unread.drop k.totalSize), s') ∧ Grown s s' ∧
      s'.offset + (scanChars delimiter maxlen k (s.unread.drop k.totalSize)).totalSize ≤
        s'.text.length ∧
      ((scanChars delimiter maxlen k (s.unread.drop k.totalSize)).goesOn maxlen = true →
        s'.unread = s'.text.drop s'.offset ∧ ∀ n, s'.atDataEnd n = true)
  | 0, s, d, k, _, _, hlt, _, _ => by omega
  | rounds + 1, s, d, k, h, hlast, hlt, hstart, hle => by
    have hreading : Reading s := ⟨.inr ⟨d, h⟩, hlast⟩
    obtain ⟨-, later, hlater⟩ := hreading.split
    have hdrop : s.unread.drop k.totalSize = s.text.drop k.startOffset ++ later := by
      rw [hlater, List.drop_append_of_le_length (by rw [List.length_drop]; omega),
        List.drop_drop, hstart]
    obtain ⟨n, hn, htotal, hstart', hall⟩ :=
      @scanChars_sizes _ delimiter maxlen (s.text.drop k.startOffset) k
    rw [List.length_drop] at hn hall
    rw [hdrop, scanChars_append, scanLoop]
    generalize scanChars delimiter maxlen k (s.text.drop k.startOffset) = k₁ at htotal hstart' hall
    split
    · rename_i hgoes
      obtain ⟨b, s₁, d₁, hfill, hgrown, hon, -, htrue, hfalse⟩ := fill_spec h hlast
      obtain ⟨t, ht⟩ := hgrown.text
      have hoffset := hgrown.offset
      have hlen : s₁.text.length = s.text.length + t.length := by
        rw [← ht, List.length_append]
      rw [hfill, Option.bind_some]
      -- the scan goes on behind all that was in the memory before
      have hk : k₁.startOffset = s.text.length := by
        have := hall hgoes
        omega
      have hbehind : later = s₁.unread.drop k₁.totalSize := by
        rw [hgrown.unread, hlater, List.drop_append, List.drop_of_length_le (by
          rw [List.length_drop]; omega), List.length_drop, show k₁.totalSize -
          (s.text.length - s.offset) = 0 by omega, List.drop_zero, List.nil_append]
      rw [hbehind]
      cases b with
      | true =>
        have := (htrue rfl).1
        obtain ⟨s₂, hloop, hgrown₂, hin, hend⟩ := scanLoop_spec maxlen rounds (k := k₁) hon
          hgrown.reading.lastToken (by omega) (by omega) (by omega)
        exact ⟨s₂, hloop, hgrown.trans hgrown₂, hin, hend⟩
      | false =>
        obtain ⟨hrest, htext⟩ := hfalse rfl
        have hunread := hon.all hrest
        have hnil : s₁.unread.drop k₁.totalSize = [] := by
          rw [hunread, List.drop_drop, htext]
          exact List.drop_of_length_le (by omega)
        rw [hnil]
        exact ⟨s₁, rfl, hgrown, by simp only [scanChars]; omega, fun _ => ⟨hunread, fun n => by
          rw [atDataEnd, hon.source]; exact atEnd_of_rest hrest⟩⟩
    · rename_i hstop
      rw [Bool.not_eq_true] at hstop
      rw [scanChars_stop hstop]
      refine ⟨s, rfl, Grown.refl hreading, by omega, fun hgoes => ?_⟩
      rw [hstop] at hgoes
      exact absurd hgoes Bool.false_ne_true

/-- A scan of a stream is the scan of what is unread; without an end of a token all of that is in
the memory of the stream. -/
theorem scanned_spec (h : Reading s) {k : Scanning}
    (hk : k = scanChars delimiter 0 (.start s.offset) s.unread) : ∃ s',
    scanLoop delimiter 0 s.rounds (.start s.offset) s = some (k, s') ∧ Grown s s' ∧
      s'.offset + k.totalSize ≤ s'.text.length ∧
      (k.foundToken = false → s'.atDataEnd k.totalSize = true) := by
  subst hk
  rcases h.source with ⟨t, start, hsource, hle⟩ | ⟨d, hd⟩
  · have hunread : s.unread = t.drop start := by rw [unread, hsource]
    have hoffset : s.offset = start := by rw [offset, hsource]
    have htext : s.text = t := by rw [text, hsource]
    have hrounds : s.rounds = 1 := by rw [rounds, hsource]
    have hfill : s.fillReadBuffer (-1) = some (false, s) := by rw [fillReadBuffer, hsource]
    obtain ⟨n, hn, htotal, -, hall⟩ :=
      @scanChars_sizes _ delimiter 0 s.unread (.start s.offset)
    simp only [Scanning.start, Nat.zero_add] at htotal
    rw [hunread, List.length_drop] at hn hall
    refine ⟨s, ?_, Grown.refl h, ?_, fun hfound => ?_⟩
    · rw [hrounds, scanLoop]
      simp only [Scanning.start, htext, hoffset, hunread, hfill, Option.bind_some, ite_self]
    · simp only [Scanning.start]
      rw [htotal, hoffset, htext]
      omega
    · have hlen := hall (by rw [Scanning.goesOn, ← hunread, hfound]; rfl)
      simp only [atDataEnd, hsource, Scanning.start, beq_iff_eq]
      rw [htotal]
      omega
  · have hin := h.split.1
    obtain ⟨s', hloop, hgrown, hle, hend⟩ := @scanLoop_spec _ _ _ _ _ _ _ _ delimiter 0
      s.rounds _ _ (.start s.offset) hd h.lastToken hd.rest_lt rfl hin
    have hdrop : s.unread.drop (Scanning.start s.offset).totalSize = s.unread := List.drop_zero
    rw [hdrop] at hloop hle hend
    refine ⟨s', hloop, hgrown, hle, fun hfound => (hend ?_).2 _⟩
    rw [Scanning.goesOn, hfound]
    rfl

/-- A line without the carriage return at its end. -/
def dropReturn (line : Str) : Str :=
  if line.getLast? = some carriageReturn then line.dropLast else line

/-- The text before the end of the first token. -/
def front (delimiter : TokenDelimiter) (t : Str) : Str := t.takeWhile fun ch => !stops delimiter ch

def behind (delimiter : TokenDelimiter) (t : Str) : Str := t.dropWhile fun ch => !stops delimiter ch

theorem front_append_behind (delimiter : TokenDelimiter) (t : Str) :
    front delimiter t ++ behind delimiter t = t := List.takeWhile_append_dropWhile

theorem stops_of_mem_front {t : Str} {ch : UInt16} (h : ch ∈ front delimiter t) :
    stops delimiter ch = false := by
  have hch := List.mem_takeWhile_imp h
  simpa using hch

/-- A scan that is done: what it says of the text, and what is left when a token of some size is
consumed. -/
structure Scanned (s s₁ : TextStream B D C Data) (delimiter : TokenDelimiter) (k : Scanning) :
    Prop where
  loop : scanLoop delimiter 0 s.rounds (.start s.offset) s = some (k, s₁)
  onward : Onward s s₁ s.unread
  atEnd : k.foundToken = false → s₁.atDataEnd k.totalSize = true
  token : ∀ m ≤ k.totalSize, (s₁.text.drop s₁.offset).take m = s.unread.take m
  consume : ∀ m : Nat, m ≤ k.totalSize → Onward s { s₁ with lastTokenSize := m } s.unread ∧
    Onward s { s₁ with lastTokenSize := m }.consumeLastToken (s.unread.drop m)
  stale : s.unread = [] → Onward s s₁.consumeLastToken []

theorem scanned (h : Reading s) (delimiter : TokenDelimiter) : ∃ s₁,
    Scanned s s₁ delimiter (scanChars delimiter 0 (.start s.offset) s.unread) := by
  obtain ⟨k, hk⟩ : ∃ k, k = scanChars delimiter 0 (.start s.offset) s.unread := ⟨_, rfl⟩
  obtain ⟨s₁, hloop, hgrown, hle, hend⟩ := scanned_spec h hk
  rw [← hk]
  have hreading := hgrown.reading
  have hunread := hgrown.unread
  refine ⟨s₁, hloop, hgrown.onward, hend, fun m hm => ?_, fun m hm => ?_, fun hnil => ?_⟩
  · rw [hreading.take_text (by omega), hunread]
  · have hlast := hgrown.onward.lastToken (n := (m : Int)) (by omega)
    have hin : s₁.offset + m ≤ s₁.text.length := by omega
    have hnew := consumeLastToken_spec hlast.reading rfl (.inl hin)
    rw [hlast.unread] at hnew
    exact ⟨hlast, hlast.trans hnew⟩
  · have hlast : s₁.lastTokenSize = (s₁.lastTokenSize.toNat : Nat) := by
      have := hreading.lastToken
      omega
    have hdone := consumeLastToken_spec hreading hlast (.inr (hunread.trans hnil))
    rw [hunread, hnil, List.drop_nil] at hdone
    exact hgrown.onward.trans hdone

/-- A token is the text before its end, a line without a carriage return that ends it. -/
def tokenOf (delimiter : TokenDelimiter) (t : Str) : Option Str :=
  if t = [] then none
  else some (if delimiter = .endOfLine then dropReturn (front delimiter t) else front delimiter t)

/-- The text behind a token; that behind a line begins behind its end. -/
def afterToken (delimiter : TokenDelimiter) (t : Str) : Str :=
  if delimiter = .endOfLine then (behind delimiter t).tail else behind delimiter t

/-- A text without an end of a token is one token. -/
theorem scan_open (h : Reading s) (hopen : ∀ ch ∈ s.unread, stops delimiter ch = false) : ∃ s',
    s.scan 0 delimiter = some (if s.unread = [] then none
      else some (if delimiter = .endOfLine then dropReturn s.unread else s.unread), s') ∧
    Onward s s' s.unread ∧ Onward s s'.consumeLastToken [] := by
  obtain ⟨s₁, hs⟩ := scanned h delimiter
  obtain ⟨hfound, htotal, hdelim, hcons, hreturn⟩ := scanChars_open hopen s.offset
  obtain ⟨k, hk⟩ : ∃ k, k = scanChars delimiter 0 (.start s.offset) s.unread := ⟨_, rfl⟩
  rw [← hk] at hs hfound htotal hdelim hcons hreturn
  unfold scan
  rw [show (⟨0, 0, false, false, s.offset, 0⟩ : Scanning) = .start s.offset from rfl, hs.loop,
    Option.map_some]
  by_cases hnil : s.unread = []
  · have hzero : k.totalSize = 0 := by rw [htotal, hnil, List.length_nil]
    simp only [if_pos hzero, if_pos hnil]
    exact ⟨s₁, rfl, hs.onward, hs.stale hnil⟩
  have hpos : k.totalSize ≠ 0 := by
    rw [htotal]
    exact fun hz => hnil (List.length_eq_zero_iff.mp hz)
  obtain ⟨hlast, hall⟩ := hs.consume k.totalSize (Nat.le_refl _)
  rw [htotal, List.drop_length] at hall
  simp only [if_neg hpos, if_neg hnil]
  by_cases hcr : delimiter = .endOfLine ∧ s.unread.getLast? = some carriageReturn
  · -- a carriage return at the end of the data
    have hcond : delimiter = .endOfLine ∧ k.foundToken = false ∧
        s₁.atDataEnd k.totalSize = true ∧ k.lastChar = carriageReturn :=
      ⟨hcr.1, hfound, hs.atEnd hfound, (hreturn hcr.1).mpr hcr.2⟩
    simp only [if_pos hcond, if_pos hcr.1, hdelim, dropReturn, if_pos hcr.2, if_true]
    rw [hs.token _ (by omega), htotal, Nat.zero_add, ← List.dropLast_eq_take]
    exact ⟨_, rfl, htotal ▸ hlast, hall⟩
  · have hcond : ¬(delimiter = .endOfLine ∧ k.foundToken = false ∧
        s₁.atDataEnd k.totalSize = true ∧ k.lastChar = carriageReturn) :=
      fun hc => hcr ⟨hc.1, (hreturn hc.1).mp hc.2.2.2⟩
    have hline : (if delimiter = .endOfLine then dropReturn s.unread else s.unread) =
        s.unread := by
      split
      · rename_i heol
        exact if_neg fun hlast => hcr ⟨heol, hlast⟩
      · rfl
    simp only [if_neg hcond, hdelim, hcons, Nat.sub_zero, Bool.false_eq_true, if_false]
    rw [hs.token _ (by omega), htotal, List.take_length, hline]
    simp only [Int.natCast_zero, Int.sub_zero]
    exact ⟨_, rfl, htotal ▸ hlast, hall⟩

/-- A text with an end of a token. -/
theorem scan_ended (h : Reading s) {a b : Str} {c : UInt16} (hunread : s.unread = a ++ c :: b)
    (ha : ∀ ch ∈ a, stops delimiter ch = false) (hc : stops delimiter c = true) : ∃ s',
    s.scan 0 delimiter =
      some (some (if delimiter = .endOfLine then dropReturn a else a), s') ∧
    Onward s s' s.unread ∧
    Onward s s'.consumeLastToken (if delimiter = .endOfLine then b else c :: b) := by
  obtain ⟨s₁, hs⟩ := scanned h delimiter
  obtain ⟨hfound, htotal, hdelim, hcons⟩ := scanChars_ended ha hc b s.offset
  rw [← hunread] at hfound htotal hdelim hcons
  generalize scanChars delimiter 0 (.start s.offset) s.unread = k at hs hfound htotal hdelim hcons
  have hpos : k.totalSize ≠ 0 := by omega
  have hcond : ¬(delimiter = .endOfLine ∧ k.foundToken = false ∧
      s₁.atDataEnd k.totalSize = true ∧ k.lastChar = carriageReturn) :=
    fun hc => by simp [hfound] at hc
  unfold scan
  rw [show (⟨0, 0, false, false, s.offset, 0⟩ : Scanning) = .start s.offset from rfl, hs.loop,
    Option.map_some]
  simp only [if_neg hpos, if_neg hcond]
  by_cases hline : delimiter = .endOfLine
  · obtain ⟨hlast, hall⟩ := hs.consume k.totalSize (Nat.le_refl _)
    have htake : s.unread.take (k.totalSize - k.delimSize) = dropReturn a := by
      rw [htotal, hdelim, hunread, dropReturn]
      by_cases hcr : a.getLast? = some carriageReturn
      · rw [if_pos ⟨hline, hcr⟩, if_pos hcr, show a.length + 1 - 2 = a.length - 1 by omega,
          List.take_append_of_le_length (by omega), ← List.dropLast_eq_take]
      · rw [if_neg fun hc => hcr hc.2, if_neg hcr, Nat.add_sub_cancel, List.take_left]
    have hdrop : s.unread.drop k.totalSize = b := by
      rw [htotal, hunread, ← List.drop_drop, List.drop_left]
      rfl
    rw [hdrop] at hall
    rw [hs.token _ (by omega), htake]
    simp only [hcons, hline, decide_true, if_true]
    exact ⟨_, rfl, hlast, hall⟩
  · rw [if_neg fun hc => hline hc.1] at hdelim
    obtain ⟨hlast, hall⟩ := hs.consume a.length (by omega)
    have hsize : (k.totalSize : Int) - k.delimSize = (a.length : Nat) := by omega
    have hsize' : k.totalSize - k.delimSize = a.length := by omega
    rw [hs.token _ (by omega), hsize', hunread, List.take_left]
    rw [hunread, List.drop_left] at hall
    simp only [hcons, hline, decide_false, Bool.false_eq_true, if_false, hsize]
    exact ⟨_, rfl, hunread ▸ hlast, hall⟩

/-- A scan finds the token at the front of what is unread. -/
theorem scan_spec (h : Reading s) (delimiter : TokenDelimiter) : ∃ s',
    s.scan 0 delimiter = some (tokenOf delimiter s.unread, s') ∧ Onward s s' s.unread ∧
      Onward s s'.consumeLastToken (afterToken delimiter s.unread) := by
  have hmem : ∀ ch ∈ front delimiter s.unread, stops delimiter ch = false :=
    fun ch hch => stops_of_mem_front hch
  have hwhole := front_append_behind delimiter s.unread
  unfold tokenOf afterToken
  rcases hb : behind delimiter s.unread with - | ⟨c, b⟩
  · rw [hb, List.append_nil] at hwhole
    rw [hwhole] at hmem ⊢
    rw [List.tail_nil, ite_self]
    exact scan_open h hmem
  · have hc : stops delimiter c = true := by
      have hhead := List.head?_dropWhile_not (fun ch => !stops delimiter ch) s.unread
      rw [show s.unread.dropWhile (fun ch => !stops delimiter ch) = c :: b from hb] at hhead
      simpa using hhead
    rw [hb] at hwhole
    have hne : s.unread ≠ [] := by
      rw [← hwhole]
      simp
    rw [if_neg hne]
    exact scan_ended h hwhole.symm hmem hc

end Tables

end TextStream

end Libpdk.Io

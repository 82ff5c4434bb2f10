import Libpdk.Io.TextStreamRead
import Libpdk.Io.Peeking

/-!
# Reading lines

`readLine` returns the `segments` of a text, one after the other, and `read` what it is asked for,
from where the calls before it have come (`line_reading`); but a length from 2^31 on is cut to the
32 bits of an `int`.
-/
namespace Libpdk.Io.TextStream

open PushQueue
open Codecs (ConverterState)
open Utils (UnicodeTables)

inductive LineCall
  | readLine
  | read (maxlen : Int)

/-- The first line of a text, and the text behind it. -/
def nextLine (t : Str) : Option Str × Str :=
  if t = [] then (none, [])
  else (some (dropReturn (t.takeWhile (· ≠ lineFeed))), (t.dropWhile (· ≠ lineFeed)).tail)

/-- A text cut at each line feed, without a carriage return before it or at the end. Behind a line
feed at the end is no segment. -/
def segments (t : Str) : List Str :=
  let parts := t.splitOn lineFeed
  (if parts.getLast? = some [] then parts.dropLast else parts).map dropReturn

namespace LineCall

def onText (t : Str) : LineCall → Option Str × Str
  | .readLine => nextLine t
  | .read n => (some (t.take n.toNat), t.drop n.toNat)

def repliesOf (t : Str) : List LineCall → List (Option Str)
  | [] => []
  | call :: calls => (call.onText t).1 :: repliesOf (call.onText t).2 calls

/-- The length is one that an `int` holds. -/
def Fits : LineCall → Prop
  | .readLine => True
  | .read n => n < 2147483648

end LineCall

/-! ## The lines of a text -/

theorem segments_last {t : Str} (hnil : t ≠ []) (h : lineFeed ∉ t) : segments t = [dropReturn t] := by
  unfold segments
  rw [List.splitOn_eq_singleton h]
  simp [hnil]

theorem segments_cons {a : Str} (h : lineFeed ∉ a) (b : Str) :
    segments (a ++ lineFeed :: b) = dropReturn a :: segments b := by
  have hne := List.splitOn_ne_nil lineFeed b
  unfold segments
  rw [List.splitOn_append_cons_self_of_not_mem h b]
  simp only [List.getLast?_cons_of_ne_nil hne, List.dropLast_cons_of_ne_nil hne]
  split <;> rfl

/-- The first line of a text is its first segment. -/
theorem segments_nextLine (t : Str) : (nextLine t).1 = (segments t).head? ∧
    segments (nextLine t).2 = (segments t).tail := by
  unfold nextLine
  by_cases hnil : t = []
  · rw [if_pos hnil, hnil]
    exact ⟨rfl, rfl⟩
  rw [if_neg hnil]
  have hwhole := List.takeWhile_append_dropWhile (p := (· ≠ lineFeed)) (l := t)
  have hfront : lineFeed ∉ t.takeWhile (· ≠ lineFeed) := fun hmem => by
    simpa using List.mem_takeWhile_imp hmem
  rcases hb : t.dropWhile (· ≠ lineFeed) with - | ⟨c, b⟩
  · rw [hb, List.append_nil] at hwhole
    rw [hwhole] at hfront ⊢
    rw [segments_last hnil hfront]
    exact ⟨rfl, rfl⟩
  · have hc : c = lineFeed := by
      have hhead := List.head?_dropWhile_not (· ≠ lineFeed) t
      rw [hb] at hhead
      simpa using hhead
    rw [hb, hc] at hwhole
    rw [← hwhole, segments_cons hfront b]
    simp only [hwhole]
    exact ⟨rfl, rfl⟩

/-- Lines are read until there are none. -/
theorem repliesOf_readLines : ∀ (k : Nat) (t : Str),
    LineCall.repliesOf t (List.replicate k .readLine) = (List.range k).map ((segments t)[·]?)
  | 0, _ => rfl
  | k + 1, t => by
    obtain ⟨hhead, htail⟩ := segments_nextLine t
    rw [List.replicate_succ, LineCall.repliesOf, LineCall.onText, repliesOf_readLines k, htail,
      List.range_succ_eq_map, List.map_cons, List.map_map, hhead]
    congr 1
    · exact List.head?_eq_getElem?
    · refine List.map_congr_left fun i _ => ?_
      exact List.getElem?_tail

/-! ## Runs -/

section Tables

variable {B D C Data : Type} [PushQueue B] [FileDevice B D] [TextCodec C Data] [UnicodeTables]
  {s : TextStream B D C Data}

def performLine (s : TextStream B D C Data) : LineCall → Option (Option Str × TextStream B D C Data)
  | .readLine => s.readLine 0
  | .read n => (s.read n).map fun (t, s) => (some t, s)

def runLines (s : TextStream B D C Data) :
    List LineCall → Option (List (Option Str) × TextStream B D C Data)
  | [] => some ([], s)
  | call :: calls => do
    let (reply, s) ← s.performLine call
    let (replies, s) ← s.runLines calls
    some (reply :: replies, s)

theorem tokenOf_line (t : Str) : (tokenOf .endOfLine t, afterToken .endOfLine t) = nextLine t := by
  have hfront : (fun ch => !stops .endOfLine ch) = fun ch => decide (ch ≠ lineFeed) := by
    funext ch
    simp only [stops, ne_eq, decide_not]
    rfl
  unfold tokenOf afterToken nextLine front behind
  rw [hfront, if_pos rfl, if_pos rfl]
  by_cases hnil : t = []
  · rw [if_pos hnil, if_pos hnil, hnil]
    rfl
  · rw [if_neg hnil, if_neg hnil]

theorem readLine_spec (h : Reading s) : ∃ s', s.readLine 0 = some ((nextLine s.unread).1, s') ∧
    Onward s s' (nextLine s.unread).2 := by
  obtain ⟨s₁, hscan, honward, hconsume⟩ := scan_spec h .endOfLine
  have hline := tokenOf_line s.unread
  have hfst := congrArg Prod.fst hline
  have hsnd := congrArg Prod.snd hline
  simp only at hfst hsnd
  rw [hfst] at hscan
  rw [hsnd] at hconsume
  unfold readLine
  rw [Buffer.narrow_eq (by omega) (by omega), hscan, Option.map_some]
  rcases hnext : (nextLine s.unread).1 with - | line
  · -- there is no line, and nothing is unread
    have hnil : s.unread = [] := by
      by_contra hne
      simp [nextLine, hne] at hnext
    refine ⟨s₁, rfl, ?_⟩
    rw [hnil] at honward ⊢
    exact honward
  · exact ⟨_, rfl, hconsume⟩

/-- A call does to a stream what it does to the text before it. -/
theorem performLine_spec (h : Reading s) {call : LineCall} (hfits : call.Fits) : ∃ s',
    s.performLine call = some ((call.onText s.unread).1, s') ∧
      Onward s s' (call.onText s.unread).2 := by
  cases call with
  | readLine => exact readLine_spec h
  | read n =>
    obtain ⟨s', hread, honward⟩ := read_spec h hfits
    exact ⟨s', by rw [performLine, hread]; rfl, honward⟩

theorem runLines_spec : ∀ (calls : List LineCall) {s : TextStream B D C Data}, Reading s →
    (∀ call ∈ calls, call.Fits) →
    ∃ s', s.runLines calls = some (LineCall.repliesOf s.unread calls, s')
  | [], s, _, _ => ⟨s, rfl⟩
  | call :: calls, s, h, hfits => by
    obtain ⟨s₁, hcall, honward⟩ := performLine_spec h (hfits call List.mem_cons_self)
    obtain ⟨s₂, hrun⟩ := runLines_spec calls honward.reading
      fun c hc => hfits c (List.mem_cons_of_mem _ hc)
    rw [honward.unread] at hrun
    refine ⟨s₂, ?_⟩
    rw [runLines, hcall]
    simp only [Option.bind_eq_bind, Option.bind_some, hrun]
    rfl

/-- A stream on a device with a codec that was set, and without detection of another. -/
def onDeviceWith (bufferSize : Nat) (d : RandomAccess B D) (codec : C) : TextStream B D C Data :=
  { (onDevice bufferSize d : TextStream B D C Data) with
    codec := codec
    autoDetectUnicode := false }

omit [UnicodeTables] in
theorem onString_reading (bufferSize : Nat) (t : Str) :
    Reading (onString bufferSize t : TextStream B D C Data) ∧
      (onString bufferSize t : TextStream B D C Data).unread = t :=
  ⟨⟨.inl ⟨t, 0, rfl, Nat.zero_le _⟩, Int.le_refl 0⟩, rfl⟩

omit [UnicodeTables] in
theorem onDeviceWith_reading {bufferSize : Nat} (hsize : 0 < bufferSize) {codec : C}
    (hcodec : TextCodec.ChunkInvariant codec) {d : RandomAccess B D} (hplaced : d.Placed)
    (hr : d.readable = true) :
    Reading (onDeviceWith bufferSize d codec) ∧ (onDeviceWith bufferSize d codec).unread =
      decode codec (TextCodec.newState C) d.text d.rest :=
  ⟨⟨.inr ⟨d, rfl, hplaced, hr, Nat.le_refl _, rfl, hcodec, hsize⟩, Int.le_refl 0⟩, rfl⟩

end Tables

/-- A run of calls reads the text of a string, or of a device; lines alone are its segments. -/
theorem line_reading {B D C Data : Type} [PushQueue B] [FileDevice B D] [TextCodec C Data]
    [UnicodeTables] (bufferSize : Nat) (hsize : 0 < bufferSize) (codec : C)
    (hcodec : TextCodec.ChunkInvariant codec) (t : Str) (d : RandomAccess B D)
    (hplaced : d.Placed) (hr : d.readable = true) (calls : List LineCall)
    (hfits : ∀ call ∈ calls, call.Fits) :
    (∃ s', (onString bufferSize t : TextStream B D C Data).runLines calls =
      some (LineCall.repliesOf t calls, s')) ∧
    (∃ s', (onDeviceWith bufferSize d codec).runLines calls =
      some (LineCall.repliesOf (decode codec (TextCodec.newState C) d.text d.rest) calls, s')) ∧
    ∀ (t : Str) (k : Nat),
      LineCall.repliesOf t (List.replicate k .readLine) = (List.range k).map ((segments t)[·]?) := by
  obtain ⟨hstring, htext⟩ := onString_reading (B := B) (D := D) (C := C) bufferSize t
  obtain ⟨hdevice, hdecode⟩ := onDeviceWith_reading hsize hcodec hplaced hr
  obtain ⟨s₁, hrun₁⟩ := runLines_spec calls hstring hfits
  obtain ⟨s₂, hrun₂⟩ := runLines_spec calls hdevice hfits
  rw [htext] at hrun₁
  rw [hdecode] at hrun₂
  exact ⟨⟨s₁, hrun₁⟩, ⟨s₂, hrun₂⟩, fun t k => repliesOf_readLines k t⟩

theorem chunkInvariant_latin1 (codec : Latin1Codec) : TextCodec.ChunkInvariant codec :=
  ⟨fun _ => rfl, fun a b _ => Prod.ext (latin1_append a b) rfl⟩

/-- A stream on Latin-1. -/
abbrev Latin1Stream := TextStream Ds.RingBuffer.Pushable MemoryFile Latin1Codec Unit

section Ascii

local instance : UnicodeTables := Utils.asciiTables

/-- A string and a file of four bytes, with lines that end in both ways. -/
theorem line_reading_two :
    (∃ s', (onString 2 (lit16 "a\r\nb") : Latin1Stream).runLines [.readLine, .read 1, .readLine] =
      some ([some (lit16 "a"), some (lit16 "b"), none], s')) ∧
    ∃ s', (onDeviceWith 2 (RandomAccess.opened true false true false 16 ⟨lit "a\r\nb", 0⟩)
        .latin1 : Latin1Stream).runLines [.readLine, .read 1, .readLine] =
      some ([some (lit16 "a"), some (lit16 "b"), none], s') := by
  have hplaced : (RandomAccess.opened true false true false 16 ⟨lit "a\r\nb", 0⟩ :
      RandomAccess Ds.RingBuffer.Pushable MemoryFile).Placed :=
    ⟨by decide, by decide, rfl, by decide⟩
  obtain ⟨hstring, hdevice, -⟩ := line_reading 2 (by decide) .latin1 (chunkInvariant_latin1 _)
    (lit16 "a\r\nb") _ hplaced rfl [.readLine, .read 1, .readLine]
    (fun call hcall => by
      simp only [List.mem_cons, List.not_mem_nil, or_false] at hcall
      rcases hcall with rfl | rfl | rfl <;> simp [LineCall.Fits])
  exact ⟨hstring, hdevice⟩

/-- The lengths 2^32 and 2^31 become 0 and -2^31: nothing is read, or the offset moves backwards. -/
theorem line_reading_cut :
    (∃ s', (onString 2 (lit16 "ab") : Latin1Stream).runLines [.read 4294967296] =
      some ([some []], s')) ∧
    (onString 2 (lit16 "ab") : Latin1Stream).runLines [.read 2147483648] = none ∧
    LineCall.repliesOf (lit16 "ab") [.read 4294967296] = [some (lit16 "ab")] ∧
    LineCall.repliesOf (lit16 "ab") [.read 2147483648] = [some (lit16 "ab")] := by
  have htake : ∀ n : Nat, 2 ≤ n → LineCall.repliesOf (lit16 "ab") [.read n] = [some (lit16 "ab")] := by
    intro n hn
    rw [LineCall.repliesOf, LineCall.repliesOf, LineCall.onText, Int.toNat_natCast,
      List.take_of_length_le hn]
  exact ⟨⟨_, rfl⟩, rfl, htake 4294967296 (by decide), htake 2147483648 (by decide)⟩

end Ascii

end Libpdk.Io.TextStream

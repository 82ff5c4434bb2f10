import Libpdk.Io.TextReading
import Libpdk.Io.BufferFile

/-!
# Peeking and pushing back

`Ahead`: a file, a position in it, and the bytes before a reader, which are those of the file
there but for bytes that were pushed back. A device loses them where it peeks by reading and
seeking back, and a `Buffer` peeks past them (`PeekRight` is where that does not matter). Otherwise
a device is what is ahead of it (`run_ahead`), so that peeking predicts reading.
-/
namespace Libpdk.Io

open PushQueue RandomAccess

/-- `growing`: a seek beyond the end makes the file longer. -/
structure Ahead where
  text : Bool
  growing : Bool
  file : Bytes
  pos : Nat
  rest : Bytes

inductive PeekCall
  | read (maxLength : Int)
  | ungetChar (c : UInt8)
  | peek (maxLength : Int)
  | seek (pos : Int)

namespace Ahead

/-- Before a reader that is `pos` bytes into a file. -/
def start (text growing : Bool) (file : Bytes) (pos : Nat) : Ahead :=
  ⟨text, growing, file, pos, file.drop pos⟩

def read (a : Ahead) (maxLength : Int) : Option Bytes × Ahead :=
  if maxLength < 0 then (none, a)
  else
    let rest := left a.text maxLength.toNat a.rest
    (some ((strip a.text a.rest).take maxLength.toNat),
      { a with pos := a.pos + (a.rest.length - rest.length), rest := rest })

def ungetChar (a : Ahead) (c : UInt8) : Ahead := { a with pos := a.pos - 1, rest := c :: a.rest }

/-- What the next `read` returns. -/
def peek (a : Ahead) (maxLength : Int) : Option Bytes := (a.read maxLength).1

/-- Bytes that were pushed back are lost by going backwards, or beyond them. -/
def seek (a : Ahead) (pos : Int) : Bool × Ahead :=
  if pos < 0 then (false, a)
  else if pos ≤ a.file.length then
    (true, { a with
      pos := pos.toNat
      rest := if pos.toNat < a.pos then a.file.drop pos.toNat
        else a.rest.drop (pos.toNat - a.pos) })
  else if a.growing then
    (true, { a with
      file := a.file ++ List.replicate (pos.toNat - a.file.length) 0
      pos := pos.toNat
      rest := [] })
  else (false, a)

def perform (a : Ahead) : PeekCall → Reply × Ahead
  | .read n => (.bytes (a.read n).1, (a.read n).2)
  | .ungetChar c => (.nothing, a.ungetChar c)
  | .peek n => (.bytes (a.peek n), a)
  | .seek pos => (.flag (a.seek pos).1, (a.seek pos).2)

def run (a : Ahead) : List PeekCall → List Reply × Ahead
  | [] => ([], a)
  | call :: calls =>
    let (reply, a) := a.perform call
    let (replies, a) := a.run calls
    (reply :: replies, a)

end Ahead

/-- A device whose `peek` is right under a condition, and which refuses to seek beyond its file or
grows. -/
class PeekDevice (B D : Type) [PushQueue B] extends FileDevice B D, VirtualPeek B D where
  PeekRight : RandomAccess B D → Nat → Prop
  grows : RandomAccess B D → Bool
  /-- The file can be as large as the position. -/
  SeekRight : RandomAccess B D → Int → Prop
  peek_spec : ∀ (s : RandomAccess B D) (n : Nat), Placed s → 0 < s.readBufferChunkSize →
    PeekRight s n → ∃ s', peek s n = some (some ((strip s.text s.rest).take n), s') ∧
      Same s s' ∧ Placed s' ∧ s'.pos = s.pos ∧ s'.rest = s.rest
  grows_same : ∀ s s' : RandomAccess B D, s'.writable = s.writable → grows s' = grows s
  seek_before : ∀ (s : RandomAccess B D) (pos : Int), pos < 0 → seek s pos = some (false, s)
  seek_refused : ∀ (s : RandomAccess B D) (pos : Nat), grows s = false →
    (file s.device).length < pos → seek s pos = some (false, s)
  seek_grown : ∀ (s : RandomAccess B D) (pos : Nat), Placed s → grows s = true → SeekRight s pos →
    (file s.device).length < pos → ∃ b device, seek s pos = some (true,
      { s with pos := pos, devicePos := pos, buffer := b, device := device }) ∧ content b = [] ∧
      file device = file s.device ++ List.replicate (pos - (file s.device).length) 0 ∧
      Ready device pos

namespace RandomAccess

section

variable {B D : Type} [PushQueue B] [PeekDevice B D]

open FileDevice PeekDevice

def performPeek (s : RandomAccess B D) : PeekCall → Option (Reply × RandomAccess B D)
  | .read n => (s.read n).map fun (bytes, s) => (.bytes bytes, s)
  | .ungetChar c => some (.nothing, s.ungetChar c)
  | .peek n => (s.peek n).map fun (bytes, s) => (.bytes bytes, s)
  | .seek pos => (Virtual.seek s pos).map fun (b, s) => (.flag b, s)

/-- The state before a call: nothing is pushed back before the beginning. -/
def CallRight (s : RandomAccess B D) : PeekCall → Prop
  | .read _ => True
  | .ungetChar _ => 0 < s.pos
  | .peek n => n < 0 ∨ PeekRight s n.toNat
  | .seek pos => SeekRight s pos

def MeetsPeek (s : RandomAccess B D) : List PeekCall → Prop
  | [] => True
  | call :: calls =>
    s.CallRight call ∧ ∀ reply s', s.performPeek call = some (reply, s') → s'.MeetsPeek calls

def ahead (s : RandomAccess B D) : Ahead :=
  ⟨s.text, grows s, file B s.device, s.pos, s.rest⟩

variable {s : RandomAccess B D}

theorem ungetChar_spec (h : Placed s) (hr : s.readable = true) (hpos : 0 < s.pos) (c : UInt8) :
    Same s (s.ungetChar c) ∧ Placed (s.ungetChar c) ∧ (s.ungetChar c).pos = s.pos - 1 ∧
      (s.ungetChar c).rest = c :: s.rest := by
  have hunget : s.ungetChar c = { s with buffer := unget s.buffer c, pos := s.pos - 1 } := by
    rw [ungetChar, if_neg (by simp [hr])]
  have hle := h.le
  have hend : s.pos - 1 + (content s.buffer).length + 1 = s.pos + (content s.buffer).length := by
    omega
  rw [hunget]
  refine ⟨⟨rfl, rfl, rfl, rfl, rfl, rfl⟩, ⟨?_, h.devicePos, h.ready, h.chunk⟩, rfl, ?_⟩
  · simp only [content_unget, List.length_cons]
    omega
  · rw [rest, rest]
    simp only [content_unget, List.length_cons, List.cons_append, ← Nat.add_assoc, hend]

/-- What an operation keeps of the way in which the device was opened. -/
structure Kept (s s' : RandomAccess B D) : Prop where
  placed : Placed s'
  readable : s'.readable = s.readable
  chunk : s'.readBufferChunkSize = s.readBufferChunkSize

theorem Kept.refl (h : Placed s) : Kept s s := ⟨h, rfl, rfl⟩

theorem Same.kept {s' : RandomAccess B D} (h : Same s s') (hplaced : Placed s') : Kept s s' :=
  ⟨hplaced, h.readable, h.chunk⟩

end

/-! ## The devices -/

variable {B D : Type} [PushQueue B]

/-- An unbuffered device peeks by reading and seeking back, which is right where the bytes before
it are those of the file; a buffered one where bytes can be added to its buffer, or need not be. -/
instance [ByteFileDevice D] : PeekDevice B D where
  peek := VirtualPeek.peek
  PeekRight s n :=
    if s.unbuffered then n = 0 ∨ s.rest = (FileDevice.file B s.device).drop s.pos
    else Appendable s.buffer ∨ n ≤ (strip s.text (content s.buffer)).length
  grows _ := false
  SeekRight _ _ := True
  peek_spec s n h hchunk hright := by
    cases hun : s.unbuffered with
    | true =>
      rw [hun, if_pos rfl] at hright
      obtain ⟨s', hpeek, hsame, hplaced, hpos, hrest⟩ := privateRead_peek_unbuffered h hun n
      refine ⟨s', hpeek, hsame, hplaced, hpos, ?_⟩
      rcases hright with rfl | hfile
      · rw [hrest, left_zero, if_pos rfl]
      · rw [hrest, ← hfile, ite_self]
    | false =>
      rw [hun, if_neg (by simp)] at hright
      exact privateRead_peek_buffered h hun hchunk n hright
  grows_same _ _ _ := rfl
  seek_before s pos hneg := if_pos hneg
  seek_refused s pos _ hbeyond := by
    show (if (pos : Int) < 0 then _ else _) = _
    rw [if_neg (by omega), Int.toNat_natCast, ByteFileDevice.seek_beyond s.device pos hbeyond]
  seek_grown _ _ _ hgrows := by simp at hgrows

end RandomAccess

namespace Buffer

open RandomAccess

variable {B : Type} [PushQueue B]

theorem take_strip : ∀ {n : Nat} {l : Bytes}, carriageReturn ∉ l.take n →
    (strip true l).take n = l.take n
  | 0, _, _ => by simp
  | _ + 1, [], _ => rfl
  | n + 1, c :: l, h => by
    rw [List.take_succ_cons, List.mem_cons, not_or] at h
    rw [strip_cons, if_neg fun hc => h.1 hc.2.symm, List.take_succ_cons, List.take_succ_cons,
      take_strip h.2]

/-- The bytes ahead are those of the array, and none of them is a carriage return to be removed. -/
def PeekRight (s : RandomAccess B Buffer) (n : Nat) : Prop :=
  s.rest.take n = (s.device.bytes.drop s.pos).take n ∧
    (s.text = true → carriageReturn ∉ s.rest.take n)

theorem peek_right {s : RandomAccess B Buffer} {n : Nat} (h : Placed s) (hright : PeekRight s n) :
    peek s n = some (some ((strip s.text s.rest).take n), s) := by
  have hle : s.pos ≤ size s := (Nat.le_add_right _ _).trans h.le
  have hstrip : (strip s.text s.rest).take n = s.rest.take n := by
    cases htext : s.text with
    | false => rfl
    | true => exact take_strip (hright.2 htext)
  rw [peek, if_pos hle, hstrip, hright.1]

instance : PeekDevice B Buffer where
  peek := peek
  PeekRight := PeekRight
  grows s := s.writable
  SeekRight s pos := s.writable = true → pos < maxByteArraySize
  peek_spec s _ h _ hright := ⟨s, peek_right h hright, Same.refl s, h, rfl, rfl⟩
  grows_same _ _ hw := hw
  seek_before s pos hneg := by
    show seek 2 s pos = _
    have hle : pos ≤ size s := hneg.le.trans (Int.natCast_nonneg _)
    rw [seek, if_neg (mt And.left hle.not_gt), if_pos (.inr hneg)]
  seek_refused s pos hw hbeyond := by
    show seek 2 s pos = _
    have hsize : (pos : Int) > size s := by
      show (s.device.bytes.length : Int) < pos
      exact_mod_cast hbeyond
    rw [seek, if_neg (by simp [hw]), if_pos (.inl hsize)]
  seek_grown s pos h hw hright hbeyond := by
    have hmax := hright hw
    obtain ⟨b, hseek, hcontent⟩ := seek_beyond hw h.le hbeyond (by exact_mod_cast hmax)
    exact ⟨b, _, hseek, hcontent, rfl, trivial⟩

end Buffer

namespace RandomAccess

variable {B D : Type} [PushQueue B]

theorem MeetsPeek.cons [PeekDevice B D] {s s₁ : RandomAccess B D} {call : PeekCall}
    {calls : List PeekCall} {reply : Reply} (hright : s.CallRight call)
    (hcall : s.performPeek call = some (reply, s₁)) (h : s₁.MeetsPeek calls) :
    s.MeetsPeek (call :: calls) := by
  refine ⟨hright, fun reply' s' hcall' => ?_⟩
  obtain ⟨-, rfl⟩ := Prod.mk.inj (Option.some.inj (hcall.symm.trans hcall'))
  exact h

end RandomAccess

end Libpdk.Io

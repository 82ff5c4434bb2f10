import Libpdk.Io.Buffer
import Libpdk.Ds.RingBufferPush

/-!
# A buffer is a file that grows

`Cursor` again, with a seek that goes beyond the end of a file that is written to. As long as the
file is one that a byte array holds, each call on a `Buffer` is the call on the cursor
(`perform_holds`), and a run is a run of it (`buffer_refines`).
-/
namespace Libpdk.Io

open PushQueue

namespace Cursor

/-- The gap beyond the end is filled with zero bytes. -/
def seekGrowing (c : Cursor) (pos : Int) : Bool × Cursor :=
  if pos < 0 then (false, c)
  else if pos ≤ c.file.length then (true, { c with pos := pos.toNat })
  else if c.writable then
    (true, { c with
      file := c.file ++ List.replicate (pos.toNat - c.file.length) 0, pos := pos.toNat })
  else (false, c)

/-- A file in memory that is opened: at its end to append to it, emptied to truncate it; both are
for writing. -/
def openBytes (bytes : Bytes) (flags : OpenMode) : Option Cursor :=
  let file := if flags.truncate then [] else bytes
  let writable := flags.writeOnly || flags.append || flags.truncate
  if flags.readOnly || writable then
    some ⟨flags.readOnly, writable, file, if flags.append then file.length else 0, none⟩
  else none

end Cursor

inductive BufferCall
  | write (data : Bytes)
  | read (maxLength : Int)
  | seek (pos : Int)
  | atEnd

namespace BufferCall

def onFile (c : Cursor) : BufferCall → Reply × Cursor
  | .write data => (.count (c.write data).1, (c.write data).2)
  | .read n => (.bytes (c.read n).1, (c.read n).2)
  | .seek pos => (.flag (c.seekGrowing pos).1, (c.seekGrowing pos).2)
  | .atEnd => (.flag (c.file.length ≤ c.pos), c)

variable {B : Type} [PushQueue B]

def perform (s : RandomAccess B Buffer) : BufferCall → Option (Reply × RandomAccess B Buffer)
  | .write data => (s.write data).map fun (n, s) => (.count n, s)
  | .read n => (s.read n).map fun (bytes, s) => (.bytes bytes, s)
  | .seek pos => (Virtual.seek s pos).map fun (b, s) => (.flag b, s)
  | .atEnd => some (.flag s.atEnd, s)

end BufferCall

def Cursor.runBuffer (c : Cursor) : List BufferCall → List Reply × Cursor
  | [] => ([], c)
  | call :: calls =>
    let (reply, c) := call.onFile c
    let (replies, c) := c.runBuffer calls
    (reply :: replies, c)

/-- Every file of the run is one that a byte array holds. -/
def Cursor.Fits (c : Cursor) : List BufferCall → Prop
  | [] => c.file.length < maxByteArraySize
  | call :: calls => c.file.length < maxByteArraySize ∧ (call.onFile c).2.Fits calls

namespace Buffer

open RandomAccess

variable {B : Type} [PushQueue B]

def run (s : RandomAccess B Buffer) :
    List BufferCall → Option (List Reply × RandomAccess B Buffer)
  | [] => some ([], s)
  | call :: calls => do
    let (reply, s) ← call.perform s
    let (replies, s) ← run s calls
    some (reply :: replies, s)

/-- The buffer is where the cursor is. -/
structure Holds (s : RandomAccess B Buffer) (c : Cursor) : Prop where
  placed : Placed s
  empty : content s.buffer = []
  unbuffered : s.unbuffered = true
  text : s.text = false
  readable : s.readable = c.readable
  writable : s.writable = c.writable
  file : s.device.bytes = c.file
  pos : s.pos = c.pos

variable {s : RandomAccess B Buffer} {c : Cursor}

theorem Holds.le (h : Holds s c) : c.pos ≤ c.file.length := by
  have hle := h.placed.le
  rw [h.empty, h.pos] at hle
  exact h.file ▸ hle

theorem Holds.rest (h : Holds s c) : s.rest = c.rest := by
  rw [RandomAccess.rest, h.empty, Cursor.rest, ← h.file, ← h.pos]
  rfl

theorem read_holds (h : Holds s c) (n : Int) :
    ∃ s', s.read n = some ((c.read n).1, s') ∧ Holds s' (c.read n).2 := by
  unfold Cursor.read
  by_cases hbad : n < 0 ∨ ¬ c.readable = true
  · rw [if_pos hbad]
    refine ⟨s, ?_, h⟩
    have hchecked : s.readChecked n = some (none, s) := by
      rw [readChecked, h.readable, if_pos hbad]
    unfold RandomAccess.read
    split
    · rw [size_eq, h.empty]
      exact hchecked
    · exact hchecked
  · rw [if_neg hbad]
    rw [not_or, not_not] at hbad
    obtain ⟨s', hread, hmoved, hrest⟩ := read_spec h.placed (h.readable.trans hbad.2) n.toNat
    rw [h.text, strip_false, h.rest, show ((n.toNat : Nat) : Int) = n by omega] at hread
    rw [h.text, left_false, h.rest] at hrest
    refine ⟨s', hread, hmoved.placed, hmoved.empty h.unbuffered h.empty,
      hmoved.same.unbuffered.trans h.unbuffered, hmoved.same.text.trans h.text,
      hmoved.same.readable.trans h.readable, hmoved.same.writable.trans h.writable,
      hmoved.same.file.trans h.file, ?_⟩
    have hpos := hmoved.pos
    rw [hrest, h.rest, h.pos, List.length_drop] at hpos
    rw [Cursor.past, Cursor.advance, List.length_take]
    simp only
    omega

theorem seek_holds (h : Holds s c) (pos : Int)
    (hfits : (c.seekGrowing pos).2.file.length < maxByteArraySize) :
    ∃ s', Virtual.seek s pos = some ((c.seekGrowing pos).1, s') ∧
      Holds s' (c.seekGrowing pos).2 := by
  have hsize : size s = c.file.length := by rw [size, h.file]
  have hseek : Virtual.seek s pos = seek 2 s pos := rfl
  unfold Cursor.seekGrowing at hfits ⊢
  by_cases hneg : pos < 0
  · rw [if_pos hneg]
    refine ⟨s, ?_, h⟩
    rw [hseek, seek, if_neg (by omega), if_pos (.inr hneg)]
  · rw [if_neg hneg] at hfits ⊢
    by_cases hin : pos ≤ c.file.length
    · rw [if_pos hin]
      obtain ⟨s', hs', hsame, hplaced, hpos, hcontent, -⟩ := RandomAccess.seek_spec h.placed
        (show pos.toNat ≤ s.device.bytes.length by rw [h.file]; omega)
      rw [show ((pos.toNat : Nat) : Int) = pos by omega] at hs'
      rw [h.empty, List.drop_nil, ite_self] at hcontent
      exact ⟨s', hs', hplaced, hcontent, hsame.unbuffered.trans h.unbuffered,
        hsame.text.trans h.text, hsame.readable.trans h.readable,
        hsame.writable.trans h.writable, hsame.file.trans h.file, hpos⟩
    · rw [if_neg hin] at hfits ⊢
      by_cases hw : c.writable = true
      · rw [if_pos hw] at hfits ⊢
        simp only [List.length_append, List.length_replicate] at hfits
        obtain ⟨b, hs', hcontent⟩ := seek_beyond (h.writable.trans hw) h.placed.le
          (show size s < pos.toNat by omega) (by omega)
        rw [show ((pos.toNat : Nat) : Int) = pos by omega, hsize, h.file] at hs'
        refine ⟨_, hseek.trans hs', ⟨?_, ?_, trivial, h.placed.chunk⟩, hcontent, h.unbuffered,
          h.text, h.readable, h.writable, rfl, rfl⟩
        · rw [hcontent]
          show pos.toNat + 0 ≤
            (c.file ++ List.replicate (pos.toNat - c.file.length) (0 : UInt8)).length
          rw [List.length_append, List.length_replicate]
          omega
        · show pos.toNat ≤
            (c.file ++ List.replicate (pos.toNat - c.file.length) (0 : UInt8)).length
          rw [List.length_append, List.length_replicate]
          omega
      · rw [if_neg hw]
        refine ⟨s, ?_, h⟩
        rw [← h.writable] at hw
        rw [hseek, seek, if_neg (by simp [hw]), if_pos (.inl (by omega))]

theorem length_overwrite {file data : Bytes} {pos : Nat} (hle : pos ≤ file.length) :
    (Cursor.overwrite file pos data).length = max file.length (pos + data.length) := by
  simp only [Cursor.overwrite, List.length_append, List.length_take, List.length_drop]
  omega

theorem write_holds (h : Holds s c) (data : Bytes) (hsize : c.file.length < maxByteArraySize)
    (hfits : (c.write data).2.file.length < maxByteArraySize) :
    ∃ s', s.write data = some ((c.write data).1, s') ∧ Holds s' (c.write data).2 := by
  have hle := h.le
  unfold Cursor.write at hfits ⊢
  unfold RandomAccess.write
  by_cases hw : c.writable = true
  · rw [if_neg (by simp [hw])] at hfits ⊢
    simp only [length_overwrite hle] at hfits
    obtain ⟨s₁, hposition, hsame, hpos, hdev, -, hcontent, -⟩ := position_spec (s := s)
      (by show s.pos ≤ s.device.bytes.length; rw [h.file, h.pos]; exact hle) trivial
    have hw₁ : s₁.writable = true := hsame.writable.trans (h.writable.trans hw)
    have hfile₁ : s₁.device.bytes = c.file := hsame.file.trans h.file
    have hwrite : s.writeBy Virtual.seek Virtual.writeData data =
        s₁.writeBy Virtual.seek writeData data := by
      have hat : s₁.positionBy Virtual.seek = some (true, s₁) := if_pos (hpos.trans hdev.symm)
      have hposition' : s.positionBy Virtual.seek = some (true, s₁) := hposition
      unfold RandomAccess.writeBy
      rw [hposition', hat, hw₁, h.writable, hw]
      rfl
    obtain ⟨b, hs', hcontent'⟩ := @writeBy_spec _ _ s₁ data hw₁
      (hpos.trans hdev.symm)
      (by rw [hpos, h.pos]; unfold size; rw [hfile₁]; exact hle)
      (by unfold size; rw [hfile₁]; exact hsize)
      (by rw [hpos, h.pos]; omega) Virtual.seek
    have hpos' : s₁.pos = c.pos := hpos.trans h.pos
    rw [hcontent, h.empty, List.drop_nil] at hcontent'
    have hend : s₁.pos + data.length ≤
        (Cursor.overwrite s₁.device.bytes s₁.pos data).length := by
      rw [hpos', hfile₁, length_overwrite hle]
      exact Nat.le_max_right _ _
    refine ⟨_, hwrite.trans hs', ⟨?_, hend, trivial, ?_⟩, hcontent',
      hsame.unbuffered.trans h.unbuffered, hsame.text.trans h.text,
      hsame.readable.trans h.readable, hw₁.trans hw.symm, ?_, ?_⟩
    · rw [hcontent']
      exact hend
    · exact hsame.chunk ▸ h.placed.chunk
    · simp only [hfile₁, hpos']
    · simp only [hpos']
  · rw [if_pos hw]
    refine ⟨s, ?_, h⟩
    rw [RandomAccess.writeBy, h.writable, if_pos hw]

theorem perform_holds (h : Holds s c) (call : BufferCall)
    (hsize : c.file.length < maxByteArraySize)
    (hfits : (call.onFile c).2.file.length < maxByteArraySize) : ∃ s',
    call.perform s = some ((call.onFile c).1, s') ∧ Holds s' (call.onFile c).2 := by
  cases call with
  | write data =>
    obtain ⟨s', hs', hholds⟩ := write_holds h data hsize hfits
    exact ⟨s', by rw [BufferCall.perform, hs']; rfl, hholds⟩
  | read n =>
    obtain ⟨s', hs', hholds⟩ := read_holds h n
    exact ⟨s', by rw [BufferCall.perform, hs']; rfl, hholds⟩
  | seek pos =>
    obtain ⟨s', hs', hholds⟩ := seek_holds h pos hfits
    exact ⟨s', by rw [BufferCall.perform, hs']; rfl, hholds⟩
  | atEnd =>
    refine ⟨s, ?_, h⟩
    have hempty : isEmpty s.buffer = true := (isEmpty_eq_true _).mpr h.empty
    have hsize' : Virtual.getSize s = c.file.length := congrArg List.length h.file
    rw [BufferCall.perform, BufferCall.onFile, atEnd, hempty, hsize', h.pos, Bool.true_and]
    congr 3
    rw [decide_eq_decide]
    omega

theorem Cursor.Fits.size {c : Cursor} : ∀ {calls : List BufferCall}, c.Fits calls →
    c.file.length < maxByteArraySize
  | [], h => h
  | _ :: _, h => h.1

theorem run_holds : ∀ (calls : List BufferCall) {s : RandomAccess B Buffer} {c : Cursor},
    Holds s c → c.Fits calls →
    ∃ s', run s calls = some ((c.runBuffer calls).1, s') ∧ Holds s' (c.runBuffer calls).2
  | [], s, c, h, _ => ⟨s, rfl, h⟩
  | call :: calls, s, c, h, hfits => by
    obtain ⟨s₁, hs₁, h₁⟩ := perform_holds h call hfits.1 (Cursor.Fits.size hfits.2)
    obtain ⟨s₂, hs₂, h₂⟩ := run_holds calls h₁ hfits.2
    refine ⟨s₂, ?_, h₂⟩
    rw [run, hs₁]
    simp only [Option.bind_eq_bind, Option.bind_some, hs₂]
    rfl

theorem opened_holds (bytes : Bytes) {chunk : Nat} (hchunk : chunk < maxByteArraySize)
    (flags : OpenMode) (htext : flags.text = false) :
    match Cursor.openBytes bytes flags with
    | none => opened (closed bytes chunk : RandomAccess B Buffer) flags =
        (false, closed bytes chunk)
    | some c => ∃ s, opened (closed bytes chunk : RandomAccess B Buffer) flags = (true, s) ∧
        Holds s c := by
  unfold Cursor.openBytes opened
  generalize (flags.writeOnly || flags.append || flags.truncate) = writable
  have hfile : (if flags.truncate then (⟨[]⟩ : Buffer) else
      (closed bytes chunk : RandomAccess B Buffer).device).bytes =
        if flags.truncate then [] else bytes := by
    split <;> rfl
  by_cases haccess : (flags.readOnly || writable) = true
  · have hrefused : ¬ (!flags.readOnly && !writable) = true := by
      rw [← Bool.not_or, haccess]
      simp
    simp only [if_pos haccess, if_neg hrefused]
    refine ⟨_, rfl, ⟨?_, Nat.zero_le _, trivial, hchunk⟩, content_new _, rfl, htext, rfl, rfl, hfile,
      ?_⟩
    · rw [content_new]
      show (if flags.append then _ else 0) + 0 ≤ List.length _
      split
      · exact Nat.le_refl _
      · exact Nat.zero_le _
    · simp only [hfile]
  · have hrefused : (!flags.readOnly && !writable) = true := by
      rw [← Bool.not_or]
      simpa using haccess
    simp only [if_neg haccess, if_pos hrefused]

/-- A buffer is opened as the file is, and a run on it is the run on the file, as long as a byte
array holds it. -/
theorem buffer_refines {B : Type} [PushQueue B] (bytes : Bytes) (chunk : Nat)
    (hchunk : chunk < maxByteArraySize) (flags : OpenMode) (htext : flags.text = false) :
    match Cursor.openBytes bytes flags with
    | none => opened (closed bytes chunk : RandomAccess B Buffer) flags =
        (false, closed bytes chunk)
    | some c => ∃ s, opened (closed bytes chunk : RandomAccess B Buffer) flags = (true, s) ∧
        s.device.bytes = c.file ∧ s.getPosition = c.pos ∧
        ∀ calls : List BufferCall, c.Fits calls → ∃ s',
          run s calls = some ((c.runBuffer calls).1, s') ∧
          s'.device.bytes = (c.runBuffer calls).2.file ∧
          s'.getPosition = (c.runBuffer calls).2.pos ∧
          Virtual.getSize s' = (c.runBuffer calls).2.file.length := by
  have h := opened_holds (B := B) bytes hchunk flags htext
  split at h
  · exact h
  · obtain ⟨s, hs, hholds⟩ := h
    refine ⟨s, hs, hholds.file, hholds.pos, fun calls hfits => ?_⟩
    obtain ⟨s', hrun, hholds'⟩ := run_holds calls hholds hfits
    exact ⟨s', hrun, hholds'.file, hholds'.pos, congrArg List.length hholds'.file⟩

/-- Two bytes, opened to read and write. -/
theorem buffer_refines_two : ∃ s, opened (closed [1, 2] 16 :
      RandomAccess Ds.RingBuffer.Pushable Buffer) ⟨true, true, false, false, false⟩ = (true, s) ∧
    s.device.bytes = [1, 2] ∧ s.getPosition = 0 ∧
    ∀ calls : List BufferCall, (⟨true, true, [1, 2], 0, none⟩ : Cursor).Fits calls → ∃ s',
      run s calls = some (((⟨true, true, [1, 2], 0, none⟩ : Cursor).runBuffer calls).1, s') ∧
      s'.device.bytes = ((⟨true, true, [1, 2], 0, none⟩ : Cursor).runBuffer calls).2.file ∧
      s'.getPosition = ((⟨true, true, [1, 2], 0, none⟩ : Cursor).runBuffer calls).2.pos ∧
      Virtual.getSize s' =
        ((⟨true, true, [1, 2], 0, none⟩ : Cursor).runBuffer calls).2.file.length :=
  buffer_refines [1, 2] 16 (by decide) ⟨true, true, false, false, false⟩ rfl

/-- A position that no byte array reaches: the gap cannot be allocated. -/
theorem buffer_refines_beyond :
    run (opened (closed [] 16 : RandomAccess Ds.RingBuffer.Pushable Buffer)
      ⟨true, true, false, false, false⟩).2 [.seek 2147483640] = none ∧
    ((⟨true, true, [], 0, none⟩ : Cursor).runBuffer [.seek 2147483640]).2.file.length < 2 ^ 31 := by
  have hlen : ∀ n : Nat, ((⟨true, true, [], 0, none⟩ : Cursor).runBuffer
      [.seek n]).2.file.length = n := by
    intro n
    have hseek : ((⟨true, true, [], 0, none⟩ : Cursor).runBuffer [.seek n]).2 =
        ((⟨true, true, [], 0, none⟩ : Cursor).seekGrowing n).2 := rfl
    rw [hseek, Cursor.seekGrowing, if_neg (by omega)]
    split
    · rename_i hle
      simp only [List.length_nil] at hle ⊢
      omega
    · simp
  constructor
  · have hseek := seek_unallocated (s := (opened (closed [] 16 :
      RandomAccess Ds.RingBuffer.Pushable Buffer) ⟨true, true, false, false, false⟩).2)
      rfl (show _ < (2147483640 : Int) by decide) (by decide)
    rw [run, BufferCall.perform]
    exact congrArg (fun r => (Option.map _ r).bind _) hseek
  have := hlen 2147483640
  rw [show ((2147483640 : Nat) : Int) = 2147483640 from rfl] at this
  rw [this]
  decide

end Buffer

end Libpdk.Io

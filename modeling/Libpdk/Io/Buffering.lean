import Libpdk.Io.IoDeviceRefines
import Libpdk.Ds.RingBufferQueue

/-!
# Buffering is invisible

What a caller sees of a device that implements a byte file, in every run from the
moment it is opened: the replies, the file and the position are those of a cursor,
whatever the chunk size, the open mode and the queue behind the buffer.
-/
namespace Libpdk.Io

open ByteQueue ByteFileDevice

/-- A device that was just opened: it is at its start. -/
abbrev Fresh (D : Type) [ByteFileDevice D] := { d : D // offset d = 0 }

/-- A chunk fits a block. -/
abbrev ChunkSize := { k : Nat // 0 < k ∧ k < maxByteArraySize }

namespace Cursor

def opened (readable writable : Bool) (file : Bytes) : Cursor := ⟨readable, writable, file, 0, none⟩

theorem perform_saved (c : Cursor) {op : Op} (h : op.transactional = false) :
    (c.perform op).2.saved = c.saved := by
  have hread (n : Int) : (c.read n).2.saved = c.saved := by
    rw [Cursor.read]
    split <;> rfl
  have hline (n : Int) : (c.readLine n).2.saved = c.saved := by
    rw [Cursor.readLine]
    split <;> rfl
  cases op with
  | read n => exact hread n
  | readArray n => exact hread _
  | peek n => rfl
  | peekArray n => rfl
  | getChar => exact hread 1
  | readLine n => exact hline n
  | readLineArray n => exact hline _
  | readAll =>
    rw [perform, Cursor.readAll]
    split <;> rfl
  | skip n =>
    rw [perform, Cursor.skip]
    split <;> rfl
  | write data =>
    rw [perform, Cursor.write]
    split <;> rfl
  | seek pos =>
    rw [perform, Cursor.seek]
    split <;> rfl
  | startTransaction => exact absurd h (by simp [Op.transactional])
  | commitTransaction => exact absurd h (by simp [Op.transactional])
  | rollbackTransaction => exact absurd h (by simp [Op.transactional])

theorem run_saved : ∀ (ops : List Op) (c : Cursor), (∀ op ∈ ops, op.transactional = false) →
    (c.run ops).2.saved = c.saved
  | [], _, _ => rfl
  | op :: ops, c, h => by
    have h₁ := perform_saved c (h op (by simp))
    have h₂ := run_saved ops (c.perform op).2 fun op' hop' => h op' (by simp [hop'])
    exact h₂.trans h₁

theorem run_append : ∀ (ops ops' : List Op) (c : Cursor),
    (c.run (ops ++ ops')).2 = ((c.run ops).2.run ops').2
  | [], _, _ => rfl
  | op :: ops, ops', c => run_append ops ops' (c.perform op).2

/-- A transaction that is rolled back leaves the cursor where it was. -/
theorem rolledBack_pos {c : Cursor} (hc : c.saved = none) {ops : List Op}
    (h : ∀ op ∈ ops, op.transactional = false) :
    (c.run (.startTransaction :: ops ++ [.rollbackTransaction])).2.pos = c.pos := by
  have hsaved := run_saved ops c.startTransaction h
  rw [startTransaction, hc] at hsaved
  rw [List.cons_append, run, run_append]
  simp only [perform, startTransaction, hc, Option.isSome_none, Bool.false_eq_true, if_false, run,
    rollbackTransaction]
  simp only [Option.isSome_none, Bool.false_eq_true, if_false] at hsaved
  rw [hsaved]

end Cursor

namespace IoDevice

variable {B D : Type} [ByteQueue B] [ByteFileDevice D]

theorem opened_holds (readable writable unbuffered : Bool) (chunk : ChunkSize) (d : Fresh D) :
    Holds (opened readable writable unbuffered chunk d.1 : IoDevice B D)
      (Cursor.opened readable writable (file d.1)) where
  onFile := ⟨rfl, d.2, Nat.zero_le _, by simp [opened], chunk.2⟩
  pos := rfl
  le := Nat.zero_le _
  readable := rfl
  writable := rfl
  unreadable _ := by simp [opened]
  saved := rfl
  saved_le p hp := absurd hp (by simp [Cursor.opened])

/-- Every run of a device is one of a cursor over its file; where it ends, peeking and a
transaction that is rolled back leave the position as it is. -/
theorem buffering_invisible (readable writable unbuffered : Bool) (chunk : ChunkSize)
    (d : Fresh D) (ops : List Op) :
    let c := (Cursor.opened readable writable (file d.1)).run ops
    ∃ s : IoDevice B D,
      (opened readable writable unbuffered chunk d.1).run ops = some (c.1, s) ∧
      file s.device = c.2.file ∧ s.getPosition = c.2.pos ∧
      (∀ n, ∃ s', s.peekBytes n = some (c.2.peek n, s') ∧ s'.getPosition = s.getPosition) ∧
      (∀ n, ∃ s', s.peekArray n = some (c.2.peekArray n, s') ∧ s'.getPosition = s.getPosition) ∧
      (s.transactionStarted = false → ∀ ops' : List Op, (∀ op ∈ ops', op.transactional = false) →
        ∃ replies s', s.run (.startTransaction :: ops' ++ [.rollbackTransaction]) =
          some (replies, s') ∧ s'.getPosition = s.getPosition) := by
  intro c
  obtain ⟨s, hs, h⟩ := run_holds (B := B) ops (opened_holds readable writable unbuffered chunk d)
  refine ⟨s, hs, h.onFile.file, h.pos, fun n => ?_, fun n => ?_, fun hstarted ops' hops' => ?_⟩
  · obtain ⟨s', hs', h'⟩ := peekBytes_holds h n
    exact ⟨s', hs', h'.pos.trans h.pos.symm⟩
  · obtain ⟨s', hs', h'⟩ := peekArray_holds h n
    exact ⟨s', hs', h'.pos.trans h.pos.symm⟩
  · obtain ⟨s', hs', h'⟩ := run_holds (.startTransaction :: ops' ++ [.rollbackTransaction]) h
    refine ⟨_, s', hs', ?_⟩
    have hsaved : c.2.saved = none := by
      have := h.saved
      rwa [hstarted] at this
    exact h'.pos.trans ((Cursor.rolledBack_pos hsaved hops').trans h.pos.symm)

/-- Peeking at a line in the ring buffer and skipping it, with chunks of three bytes. -/
example :
    ((opened true true false 3 ⟨[104, 105, 10, 33], 0⟩ : IoDevice Ds.RingBuffer.Valid MemoryFile).run
      [.peek 2, .readLine 10, .skip 5]).map Prod.fst =
      some [.bytes (some [104, 105]), .bytes (some [104, 105, 10]), .count (some 1)] := by
  decide

end IoDevice

end Libpdk.Io

import Mathlib.Tactic.Ring

/-!
# The private block of a read-write lock

`ReadWriteLockPrivate::lockForRead` and `lockForWrite` run under the block's
mutex and only give it up inside `m_readerCond.wait` / `m_writerCond.wait`. One
turn of their `while` loop, from the entry or from the return of a wait up to
the next wait or the `return`, is therefore one atomic step: `readTurn` and
`writeTurn`.

The clock only enters through `elapsed > timeout`, which is an input of the
turn (`expired`): a timeout may fire at any turn. A wait may return at any
time, notified or not, so the two `notify` calls change no state here.
-/
namespace Libpdk.Thread

/-- The counters of a block.
mirrors os/thread/internal/ReadWriteLockPrivate.h:29-59 -/
structure LockBlock where
  readerCount : Int
  writerCount : Int
  waitingReaders : Int
  waitingWriters : Int
  deriving DecidableEq, Repr

def LockBlock.zero : LockBlock := ⟨0, 0, 0, 0⟩

/-- How a turn of the loop ends: `return true`, `return false`, or a wait on
the condition variable. -/
inductive Turn where
  | acquired
  | refused
  | waits
  deriving DecidableEq, Repr

/-- `return false` of a turn that finds the lock taken. -/
def givesUp (timeout : Int) (expired : Bool) : Bool :=
  decide (timeout = 0) || (decide (0 < timeout) && expired)

/-- mirrors os/thread/ReadWriteLock.cpp:96-122 -/
def readTurn (timeout : Int) (expired : Bool) (p : LockBlock) : Turn × LockBlock :=
  if p.waitingWriters ≠ 0 ∨ p.writerCount ≠ 0 then
    if givesUp timeout expired then (.refused, p)
    else (.waits, { p with waitingReaders := p.waitingReaders + 1 })
  else (.acquired, { p with readerCount := p.readerCount + 1 })

/-- mirrors os/thread/ReadWriteLock.cpp:124-156 -/
def writeTurn (timeout : Int) (expired : Bool) (p : LockBlock) : Turn × LockBlock :=
  if p.readerCount ≠ 0 ∨ p.writerCount ≠ 0 then
    if givesUp timeout expired then (.refused, p)
    else (.waits, { p with waitingWriters := p.waitingWriters + 1 })
  else (.acquired, { p with writerCount := 1 })

/-- The decrement after a wait of `lockForRead`. -/
def LockBlock.readerBack (p : LockBlock) : LockBlock :=
  { p with waitingReaders := p.waitingReaders - 1 }

/-- The decrement after a wait of `lockForWrite`. -/
def LockBlock.writerBack (p : LockBlock) : LockBlock :=
  { p with waitingWriters := p.waitingWriters - 1 }

/-- Everything a turn of `lockForRead` can do. -/
theorem readTurn_cases (timeout : Int) (expired : Bool) (p : LockBlock) :
    (readTurn timeout expired p = (.acquired, { p with readerCount := p.readerCount + 1 }) ∧
      p.waitingWriters = 0 ∧ p.writerCount = 0) ∨
    (readTurn timeout expired p = (.refused, p) ∧ (p.waitingWriters ≠ 0 ∨ p.writerCount ≠ 0)) ∨
    (readTurn timeout expired p = (.waits, { p with waitingReaders := p.waitingReaders + 1 }) ∧
      (p.waitingWriters ≠ 0 ∨ p.writerCount ≠ 0)) := by
  unfold readTurn
  by_cases h : p.waitingWriters ≠ 0 ∨ p.writerCount ≠ 0
  · rw [if_pos h]
    by_cases hg : givesUp timeout expired
    · exact .inr (.inl ⟨if_pos hg, h⟩)
    · exact .inr (.inr ⟨if_neg hg, h⟩)
  · exact .inl ⟨if_neg h, by omega, by omega⟩

/-- Everything a turn of `lockForWrite` can do. -/
theorem writeTurn_cases (timeout : Int) (expired : Bool) (p : LockBlock) :
    (writeTurn timeout expired p = (.acquired, { p with writerCount := 1 }) ∧
      p.readerCount = 0 ∧ p.writerCount = 0) ∨
    (writeTurn timeout expired p = (.refused, p) ∧ (p.readerCount ≠ 0 ∨ p.writerCount ≠ 0)) ∨
    (writeTurn timeout expired p = (.waits, { p with waitingWriters := p.waitingWriters + 1 }) ∧
      (p.readerCount ≠ 0 ∨ p.writerCount ≠ 0)) := by
  unfold writeTurn
  by_cases h : p.readerCount ≠ 0 ∨ p.writerCount ≠ 0
  · rw [if_pos h]
    by_cases hg : givesUp timeout expired
    · exact .inr (.inl ⟨if_pos hg, h⟩)
    · exact .inr (.inr ⟨if_neg hg, h⟩)
  · exact .inl ⟨if_neg h, by omega, by omega⟩

end Libpdk.Thread

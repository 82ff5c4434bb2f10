import Mathlib.Data.Finset.Card
import Mathlib.Logic.Function.Basic
import Libpdk.Core.Lts
import Libpdk.Thread.LockBlock

/-!
# The non-recursive read-write lock

A lock is one atomic pointer, `m_implPtr`: null (unlocked), a tagged word for
uncontended readers or for an uncontended writer, or a pointer to a private
block taken from a free list that all locks share. Threads take the lock by
compare-and-swap on the word; a thread that has to wait promotes the lock to a
block and waits under the block's mutex; the last unlock of a block stores null
and returns the block.

The model has any number of threads `T`, locks `L` and blocks `B`. One step is
one access to an `m_implPtr` (load, store or compare-and-swap), one access to
the free list, or one critical section of a block's mutex up to the next wait
or to its end. A thread that looks at a block which has been returned and
reused in the meantime is part of the model: `Pc.loop` keeps the pointer the
thread has read, whatever happened to it since.

Counts are unbounded: the `int` of a block and the word itself overflow only
with 2^31 holds at once, which the model leaves out.

`readers`, `writers`, `readQ`, `writeQ` and the owners of a block other than
`free` are history variables. `failed` is set by an assertion that does not
hold.
-/
namespace Libpdk.Thread.Shared

open Libpdk.Thread

variable {T L B : Type} [DecidableEq T] [DecidableEq L] [DecidableEq B]

/-! ## The word -/

/-- The value of `m_implPtr`; `read n` is the word of `n + 1` readers.
mirrors os/thread/ReadWriteLock.cpp:30-39 -/
inductive Impl (B : Type) where
  | null
  | read (n : Nat)
  | write
  | block (b : B)
  deriving DecidableEq, Repr

/-- The pointer as an integer, for blocks at the addresses `addr`. -/
def Impl.word (addr : B → Nat) : Impl B → Nat
  | .null => 0
  | .read n => n <<< 4 ||| 1
  | .write => 2
  | .block b => addr b

/-- mirrors os/thread/ReadWriteLock.cpp:57-60 -/
def isUncontendedLocked : Impl B → Bool
  | .read _ => true
  | .write => true
  | _ => false

/-! ## States -/

inductive Kind where
  | read
  | write
  deriving DecidableEq, Repr

/-- Where a thread is in the code of a lock. -/
inductive Pc (L B : Type) where
  /-- Outside. -/
  | idle
  /-- Before the compare-and-swap of `lockForRead()`. -/
  | fast (l : L)
  /-- Before the first compare-and-swap of `tryLockFor*(timeout)`. -/
  | enter (k : Kind) (l : L) (timeout : Int)
  /-- At the head of the `while (true)` of `tryLockFor*`, with `dptr = d`. -/
  | loop (k : Kind) (l : L) (timeout : Int) (d : Impl B)
  /-- Holds a fresh block `b`, before the compare-and-swap of `d` to it. -/
  | offer (k : Kind) (l : L) (timeout : Int) (b : B) (d : Impl B)
  /-- The compare-and-swap failed and read `d`; before `val->release()`. -/
  | giveBack (k : Kind) (l : L) (timeout : Int) (b : B) (d : Impl B)
  /-- Found the block detached; before `dptr = m_implPtr.loadAcquire()`. -/
  | reload (k : Kind) (l : L) (timeout : Int)
  /-- In a wait of `lockForRead` or `lockForWrite` on block `b`. -/
  | wait (k : Kind) (l : L) (timeout : Int) (b : B)
  /-- Before the load of `unlock()`. -/
  | unlockLoad (l : L)
  /-- At the head of the `while (true)` of `unlock()`, with `dptr = d`. -/
  | unlockLoop (l : L) (d : Impl B)
  /-- Has stored null; before `dptr->release()`. -/
  | unlockFree (l : L) (b : B)
  deriving DecidableEq, Repr

/-- Who has a block: the free list, one thread, or one lock. -/
inductive Owner (T L : Type) where
  | free
  | thread (t : T)
  | lock (l : L)
  deriving DecidableEq, Repr

structure St (T L B : Type) where
  impl : L → Impl B
  block : B → LockBlock
  owner : B → Owner T L
  pc : T → Pc L B
  readers : L → List T
  writers : L → List T
  readQ : B → Finset T
  writeQ : B → Finset T
  failed : Bool

inductive Call (L : Type) where
  | lockForRead (l : L)
  | tryLockForRead (l : L) (timeout : Int)
  | lockForWrite (l : L)
  | tryLockForWrite (l : L) (timeout : Int)
  | unlock (l : L)
  deriving DecidableEq, Repr

/-- `call t c`: thread `t` calls `c`; `go t e b`: `t` takes its next step,
where `e` says whether a timeout is found expired and `b` is the block the free
list hands out, for the steps that ask. -/
inductive Lbl (T L B : Type) where
  | call (t : T) (c : Call L)
  | go (t : T) (expired : Bool) (fresh : B)
  deriving DecidableEq, Repr

def init : St T L B :=
  ⟨fun _ => .null, fun _ => .zero, fun _ => .free, fun _ => .idle, fun _ => [], fun _ => [],
    fun _ => ∅, fun _ => ∅, false⟩

namespace St

def setPc (s : St T L B) (t : T) (p : Pc L B) : St T L B :=
  { s with pc := Function.update s.pc t p }

def setImpl (s : St T L B) (l : L) (d : Impl B) : St T L B :=
  { s with impl := Function.update s.impl l d }

def setBlock (s : St T L B) (b : B) (p : LockBlock) : St T L B :=
  { s with block := Function.update s.block b p }

def setOwner (s : St T L B) (b : B) (o : Owner T L) : St T L B :=
  { s with owner := Function.update s.owner b o }

/-- `PDK_ASSERT(c)`. -/
def check (s : St T L B) (c : Bool) : St T L B := { s with failed := s.failed || !c }

/-- The lock call of `t` on `l` returns true. -/
def got (s : St T L B) (k : Kind) (t : T) (l : L) : St T L B :=
  match k with
  | .read => { s.setPc t .idle with readers := Function.update s.readers l (t :: s.readers l) }
  | .write => { s.setPc t .idle with writers := Function.update s.writers l (t :: s.writers l) }

/-- Thread `t` gives up one hold of `l`. -/
def gaveUp (s : St T L B) (t : T) (l : L) : St T L B :=
  if t ∈ s.writers l then
    { s with writers := Function.update s.writers l ((s.writers l).erase t) }
  else { s with readers := Function.update s.readers l ((s.readers l).erase t) }

def enqueue (s : St T L B) (k : Kind) (t : T) (b : B) : St T L B :=
  match k with
  | .read => { s with readQ := Function.update s.readQ b (insert t (s.readQ b)) }
  | .write => { s with writeQ := Function.update s.writeQ b (insert t (s.writeQ b)) }

def dequeue (s : St T L B) (k : Kind) (t : T) (b : B) : St T L B :=
  match k with
  | .read => { s with readQ := Function.update s.readQ b ((s.readQ b).erase t) }
  | .write => { s with writeQ := Function.update s.writeQ b ((s.writeQ b).erase t) }

end St

/-! ## Steps -/

/-- The turn of `dptr->lockForRead` or `dptr->lockForWrite`. -/
def turn : Kind → Int → Bool → LockBlock → Turn × LockBlock
  | .read => readTurn
  | .write => writeTurn

/-- The assertions behind a successful turn. -/
def turnCheck : Kind → LockBlock → Bool
  | .read, p => decide (p.writerCount = 0)
  | .write, p => decide (p.writerCount = 0) && decide (p.readerCount = 0)

/-- One turn on the fields `p` of block `b`, with its outcome.
mirrors os/thread/ReadWriteLock.cpp:335,394 -/
def afterTurn (s : St T L B) (k : Kind) (t : T) (l : L) (timeout : Int) (b : B) (p : LockBlock) :
    Turn × LockBlock → St T L B
  | (.acquired, q) => ((s.check (turnCheck k p)).setBlock b q).got k t l
  | (.refused, q) => (s.setBlock b q).setPc t .idle
  | (.waits, q) => ((s.setBlock b q).enqueue k t b).setPc t (.wait k l timeout b)

/-- The part of the loop body behind `PDK_ASSERT(!is_uncontended_locked(dptr))`:
the critical section of the block's mutex.
mirrors os/thread/ReadWriteLock.cpp:317-336,381-395 -/
def onBlock (s : St T L B) (k : Kind) (t : T) (l : L) (timeout : Int) (b : B) (expired : Bool) :
    St T L B :=
  if s.impl l ≠ .block b then s.setPc t (.reload k l timeout)
  else afterTurn s k t l timeout b (s.block b) (turn k timeout expired (s.block b))

/-- A compare-and-swap of `m_implPtr` from `d` to the word `d'` that takes the
lock; a failure leaves the value read in `dptr`. -/
def casTake (s : St T L B) (k : Kind) (t : T) (l : L) (timeout : Int) (d d' : Impl B) : St T L B :=
  if s.impl l = d then (s.setImpl l d').got k t l else s.setPc t (.loop k l timeout (s.impl l))

/-- `ReadWriteLockPrivate::allocate()` and the filling of the fresh block.
mirrors os/thread/ReadWriteLock.cpp:230-239,308-310,364-371 -/
def allocate (s : St T L B) (k : Kind) (t : T) (l : L) (timeout : Int) (d : Impl B) (p : LockBlock)
    (fresh : B) : Option (St T L B) :=
  if s.owner fresh = .free then
    some ((((s.check (decide (s.block fresh = .zero))).setOwner fresh (.thread t)).setBlock fresh p).setPc
      t (.offer k l timeout fresh d))
  else none

/-- mirrors os/thread/ReadWriteLock.cpp:287-336 -/
def readLoop (s : St T L B) (t : T) (l : L) (timeout : Int) (expired : Bool) (fresh : B) :
    Impl B → Option (St T L B)
  | .null => some (casTake s .read t l timeout .null (.read 0))
  | .read n => some (casTake (s.check (decide (16 < (16 * n + 1) + 16))) .read t l timeout (.read n)
      (.read (n + 1)))
  | .write =>
    if timeout = 0 then some (s.setPc t .idle)
    else allocate s .read t l timeout .write { LockBlock.zero with writerCount := 1 } fresh
  | .block b => some (onBlock s .read t l timeout b expired)

/-- mirrors os/thread/ReadWriteLock.cpp:356-395 -/
def writeLoop (s : St T L B) (t : T) (l : L) (timeout : Int) (expired : Bool) (fresh : B) :
    Impl B → Option (St T L B)
  | .null => some (casTake s .write t l timeout .null .write)
  | .read n =>
    if timeout = 0 then some (s.setPc t .idle)
    else allocate s .write t l timeout (.read n) { LockBlock.zero with readerCount := n + 1 } fresh
  | .write =>
    if timeout = 0 then some (s.setPc t .idle)
    else allocate s .write t l timeout .write { LockBlock.zero with writerCount := 1 } fresh
  | .block b => some (onBlock s .write t l timeout b expired)

/-- Clears what `tryLockForRead` (the writer count) or `tryLockForWrite` (both
counts) wrote into the block it offered in vain.
mirrors os/thread/ReadWriteLock.cpp:311-315,372-376 -/
def offerFailed (p : LockBlock) : Kind → LockBlock
  | .read => { p with writerCount := 0 }
  | .write => { p with writerCount := 0, readerCount := 0 }

/-- The end of the critical section of `unlock()`.
mirrors os/thread/ReadWriteLock.cpp:437-444 -/
def unlockRest (s : St T L B) (t : T) (l : L) (b : B) : St T L B :=
  if (s.block b).waitingReaders ≠ 0 ∨ (s.block b).waitingWriters ≠ 0 then s.setPc t .idle
  else (((s.check (decide (s.impl l = .block b))).setImpl l .null).setOwner b (.thread t)).setPc t
    (.unlockFree l b)

/-- mirrors os/thread/ReadWriteLock.cpp:425-446 -/
def unlockBlock (s : St T L B) (t : T) (l : L) (b : B) : St T L B :=
  let p := s.block b
  if p.writerCount ≠ 0 then
    unlockRest (((s.check (decide (p.writerCount = 1) && decide (p.readerCount = 0))).gaveUp t
      l).setBlock b { p with writerCount := 0 }) t l b
  else
    let s' := ((s.check (decide (0 < p.readerCount))).gaveUp t l).setBlock b
      { p with readerCount := p.readerCount - 1 }
    if 0 < p.readerCount - 1 then s'.setPc t .idle else unlockRest s' t l b

/-- mirrors os/thread/ReadWriteLock.cpp:400-446 -/
def unlockLoop (s : St T L B) (t : T) (l : L) : Impl B → St T L B
  | .null => s.check false
  | .read 0 =>
    if s.impl l = .read 0 then ((s.gaveUp t l).setImpl l .null).setPc t .idle
    else s.setPc t (.unlockLoop l (s.impl l))
  | .write =>
    if s.impl l = .write then ((s.gaveUp t l).setImpl l .null).setPc t .idle
    else s.setPc t (.unlockLoop l (s.impl l))
  | .read (n + 1) =>
    if s.impl l = .read (n + 1) then ((s.gaveUp t l).setImpl l (.read n)).setPc t .idle
    else s.setPc t (.unlockLoop l (s.impl l))
  | .block b => unlockBlock s t l b

/-- The next step of a thread inside the code of a lock. -/
def go (s : St T L B) (t : T) (expired : Bool) (fresh : B) : Option (St T L B) :=
  match s.pc t with
  | .idle => none
  | .fast l =>
    some (if s.impl l = .null then (s.setImpl l (.read 0)).got .read t l
      else s.setPc t (.enter .read l (-1)))
  | .enter .read l timeout => some (casTake s .read t l timeout .null (.read 0))
  | .enter .write l timeout => some (casTake s .write t l timeout .null .write)
  | .loop .read l timeout d => readLoop s t l timeout expired fresh d
  | .loop .write l timeout d => writeLoop s t l timeout expired fresh d
  | .offer k l timeout b d =>
    some (if s.impl l = d then
        ((s.setImpl l (.block b)).setOwner b (.lock l)).setPc t (.loop k l timeout (.block b))
      else (s.setBlock b (offerFailed (s.block b) k)).setPc t (.giveBack k l timeout b (s.impl l)))
  | .giveBack k l timeout b d =>
    some (((s.check (decide (s.block b = .zero))).setOwner b .free).setPc t (.loop k l timeout d))
  | .reload k l timeout => some (s.setPc t (.loop k l timeout (s.impl l)))
  | .wait .read l timeout b =>
    some (afterTurn (s.dequeue .read t b) .read t l timeout b (s.block b).readerBack
      (readTurn timeout expired (s.block b).readerBack))
  | .wait .write l timeout b =>
    some (afterTurn (s.dequeue .write t b) .write t l timeout b (s.block b).writerBack
      (writeTurn timeout expired (s.block b).writerBack))
  | .unlockLoad l => some (s.setPc t (.unlockLoop l (s.impl l)))
  | .unlockLoop l d => some (unlockLoop s t l d)
  | .unlockFree _ b =>
    some (((s.check (decide (s.block b = .zero))).setOwner b .free).setPc t .idle)

/-- A thread inside a lock's code makes no call, and it only unlocks what it holds. -/
def call (s : St T L B) (t : T) (c : Call L) : Option (St T L B) :=
  if s.pc t = .idle then
    match c with
    | .lockForRead l => some (s.setPc t (.fast l))
    | .tryLockForRead l timeout => some (s.setPc t (.enter .read l timeout))
    | .lockForWrite l => some (s.setPc t (.enter .write l (-1)))
    | .tryLockForWrite l timeout => some (s.setPc t (.enter .write l timeout))
    | .unlock l =>
      if t ∈ s.readers l ∨ t ∈ s.writers l then some (s.setPc t (.unlockLoad l)) else none
  else none

def step (s : St T L B) : Lbl T L B → Option (St T L B)
  | .call t c => call s t c
  | .go t expired fresh => go s t expired fresh

def lts (T L B : Type) [DecidableEq T] [DecidableEq L] [DecidableEq B] : Lts (St T L B) (Lbl T L B) :=
  .ofStep (· = init) step

end Libpdk.Thread.Shared

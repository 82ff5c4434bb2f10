import Mathlib.Logic.Function.Basic
import Libpdk.Core.Lts
import Libpdk.Thread.PoolQueue

/-!
# The thread pool

`ThreadPool` with its worker threads. Every public call holds `m_mutex` from
its first to its last line, and a worker gives the mutex up only to run a task,
to wait on `m_runnableReady` and to leave `run()`. The steps are therefore the
calls (`start`, `tryStart`, `tryTake`, `clear`, `setMaxThreadCount`,
`reserveThread`, `releaseThread`) and, for a worker `t`,

* `enterRun t`: a thread that `Thread::start` has started takes the mutex;
* `finishTask t`: `runnable->run()` has returned and the mutex is taken again;
* `wake t`: the `wait_for` returns, notified or not;
* `finish t`: after the end of `run()` the thread has marked itself finished.

A worker is its place in the list of all threads; no thread leaves that list
(`reset` is only called by `waitForDone`). A run of a task that throws ends the
program and is no step.

A runnable is any value of `R`. `mRef` is `m_ref`, `-1` when the runnable is not
to be deleted; `deleted` counts its deletions. The caller of `start` and
`tryStart` owns the runnable, so it has not been deleted. `log` is a history of
what became of each submission; it decides nothing.
-/
namespace Libpdk.Thread.Pool

variable {R : Type} [DecidableEq R]

/-- Where a worker is. `loop`: about to enter the loop of `run()`. `running x a`:
inside `runnable->run()`, with the local `autoDelete`. `exiting`: out of the loop,
still running for `Thread::start`. `finished`: `Thread::start` starts it again. -/
inductive Pc (R : Type) where
  | loop
  | running (x : Task R) (autoDelete : Bool)
  | waiting
  | exiting
  | finished
  deriving DecidableEq, Repr

structure Worker (R : Type) where
  pc : Pc R
  runnable : Option (Task R)
  deriving DecidableEq, Repr

/-- `m_allThreads`, `m_waitingThreads`, `m_expiredThreads` and the threads. -/
structure Threads (R : Type) where
  all : List Nat
  waiting : List Nat
  expired : List Nat
  worker : Nat → Worker R

/-- The runnables. -/
structure Objects (R : Type) where
  mRef : R → Int
  deleted : R → Nat

structure Log (R : Type) where
  submitted : List (Task R)
  done : List (Task R)
  taken : List (Task R)
  cleared : List (Task R)

/-- mirrors os/thread/internal/ThreadPoolPrivate.h:146-158 -/
structure St (R : Type) where
  queue : Queue R
  threads : Threads R
  maxThreadCount : Int
  reservedThreads : Int
  activeThreads : Int
  objects : Objects R
  log : Log R

inductive Lbl (R : Type) where
  | start (r : R) (priority : Int)
  | tryStart (r : R)
  | tryTake (r : R)
  | clear
  | setMaxThreadCount (n : Int)
  | reserveThread
  | releaseThread
  | enterRun (t : Nat)
  | finishTask (t : Nat)
  | wake (t : Nat)
  | finish (t : Nat)
  deriving DecidableEq, Repr

/-- A new pool, and the runnables as `setAutoDelete` has left them. -/
def init (auto : R → Bool) (maxThreadCount : Int) : St R where
  queue := ⟨[], 0, []⟩
  threads := ⟨[], [], [], fun _ => ⟨.finished, none⟩⟩
  maxThreadCount := maxThreadCount
  reservedThreads := 0
  activeThreads := 0
  objects := ⟨fun r => if auto r then 0 else -1, fun _ => 0⟩
  log := ⟨[], [], [], []⟩

/-! ## Reference counts -/

namespace Objects

/-- mirrors os/thread/Runnable.h:44-47 -/
def autoDelete (o : Objects R) (r : R) : Bool := decide (o.mRef r ≠ -1)

def addRef (o : Objects R) (r : R) (n : Int) : Objects R :=
  { o with mRef := Function.update o.mRef r (o.mRef r + n) }

/-- `if (autoDelete()) ++m_ref;` -/
def incRef (o : Objects R) (r : R) : Objects R := if o.autoDelete r then o.addRef r 1 else o

/-- `if (autoDelete()) --m_ref;` -/
def decRef (o : Objects R) (r : R) : Objects R := if o.autoDelete r then o.addRef r (-1) else o

/-- `if (autoDelete && !--m_ref) delete runnable;` -/
def deref (o : Objects R) (auto : Bool) (r : R) : Objects R :=
  if auto then
    if o.mRef r - 1 = 0 then
      { o.addRef r (-1) with deleted := Function.update o.deleted r (o.deleted r + 1) }
    else o.addRef r (-1)
  else o

end Objects

namespace Threads

def set (th : Threads R) (t : Nat) (w : Worker R) : Threads R :=
  { th with worker := Function.update th.worker t w }

def setPc (th : Threads R) (t : Nat) (pc : Pc R) : Threads R :=
  th.set t { th.worker t with pc := pc }

/-- `m_waitingThreads.pop_front(); thread->m_runnableReady.notify_one();` when
some thread is waiting. -/
def notifyFront (th : Threads R) : Threads R := { th with waiting := th.waiting.tail }

/-- The threads after `startThread`.
mirrors os/thread/ThreadPool.cpp:239-253 -/
def startThread (th : Threads R) (x : Task R) : Threads R :=
  { th with all := th.all ++ [th.all.length] }.set th.all.length ⟨.loop, some x⟩

/-- `Thread::start` does nothing to a thread that is still running.
mirrors os/thread/_platform/ThreadUnix.cpp:497-508 -/
def started (pc : Pc R) : Pc R :=
  match pc with
  | .finished => .loop
  | pc => pc

/-- The restart of the first expired thread.
mirrors os/thread/ThreadPool.cpp:168-180 -/
def restart (th : Threads R) (t : Nat) (x : Task R) : Threads R :=
  { th with expired := th.expired.tail }.set t ⟨started (th.worker t).pc, some x⟩

end Threads

/-! ## `ThreadPoolPrivate` -/

/-- How `tryStart` gets a task to a thread. -/
inductive Route where
  | fresh
  | recycle
  | restart (t : Nat)
  deriving DecidableEq, Repr

namespace St

/-- mirrors os/thread/ThreadPool.cpp:209-215 -/
def getActiveThreadCount (s : St R) : Int :=
  s.threads.all.length - s.threads.expired.length - s.threads.waiting.length + s.reservedThreads

/-- mirrors os/thread/ThreadPool.cpp:233-237 -/
def tooManyThreadsActive (s : St R) : Bool :=
  decide (s.maxThreadCount < s.getActiveThreadCount) &&
    decide (1 < s.getActiveThreadCount - s.reservedThreads)

/-- mirrors os/thread/ThreadPool.cpp:192-207 -/
def enqueueTask (s : St R) (x : Task R) (priority : Int) : St R :=
  { s with objects := s.objects.incRef x.runnable, queue := s.queue.enqueue x priority }

/-- The tests of `tryStart`; `none` is its `return false`.
mirrors os/thread/ThreadPool.cpp:148-185 -/
def route (s : St R) : Option Route :=
  if s.threads.all = [] then some .fresh
  else if s.maxThreadCount ≤ s.getActiveThreadCount then none
  else
    match s.threads.waiting, s.threads.expired with
    | _ :: _, _ => some .recycle
    | [], t :: _ => some (.restart t)
    | [], [] => some .fresh

/-- mirrors os/thread/ThreadPool.cpp:148-185 and 239-253 -/
def tryStart (s : St R) (x : Task R) : Option (St R) :=
  match s.route with
  | none => none
  | some .fresh =>
    some { s with threads := s.threads.startThread x, activeThreads := s.activeThreads + 1,
                  objects := s.objects.incRef x.runnable }
  | some .recycle => some { s.enqueueTask x 0 with threads := s.threads.notifyFront }
  | some (.restart t) =>
    some { s with threads := s.threads.restart t x, activeThreads := s.activeThreads + 1,
                  objects := s.objects.incRef x.runnable }

/-- One turn of the loop of `tryToStartMoreThreads`; `none` leaves the loop.
mirrors os/thread/ThreadPool.cpp:217-231 -/
def moreStep (s : St R) : Option (St R) :=
  match s.queue.pages with
  | [] => none
  | page :: _ =>
    page.first.bind fun x =>
      (s.tryStart x).map fun s' => { s' with queue := s'.queue.popPage page.id }

def moreLoop : Nat → St R → St R
  | 0, s => s
  | n + 1, s =>
    match s.moreStep with
    | none => s
    | some s' => moreLoop n s'

/-- Every turn adds an active thread, and all but the first need room for one
(`tryToStartMoreThreads_stops`). -/
def moreTurns (s : St R) : Nat := (s.maxThreadCount - s.getActiveThreadCount).toNat + 2

def tryToStartMoreThreads (s : St R) : St R := moreLoop s.moreTurns s

/-! ## The worker -/

/-- `m_expiredThreads.push_back(this); registerThreadInactive(); break;`
mirrors os/thread/ThreadPool.cpp:130-134 -/
def expire (s : St R) (t : Nat) : St R :=
  { s with threads := { s.threads.setPc t .exiting with expired := s.threads.expired ++ [t] },
           activeThreads := s.activeThreads - 1 }

/-- `m_waitingThreads.push_back(this); registerThreadInactive();` and the wait.
mirrors os/thread/ThreadPool.cpp:110-118 -/
def awaitWork (s : St R) (t : Nat) : St R :=
  { s with threads := { s.threads.setPc t .waiting with waiting := s.threads.waiting ++ [t] },
           activeThreads := s.activeThreads - 1 }

/-- From the end of a task, or from a start without one, to the next task, the
wait or the end.
mirrors os/thread/ThreadPool.cpp:87-134 -/
def lookForWork (s : St R) (t : Nat) : St R :=
  if s.tooManyThreadsActive then s.expire t
  else
    match s.queue.pages with
    | [] => s.awaitWork t
    | page :: _ =>
      match page.first with
      | none => s
      | some x =>
        { s with queue := s.queue.popPage page.id,
                 threads := s.threads.setPc t (.running x (s.objects.autoDelete x.runnable)) }

/-- The head of the outer loop.
mirrors os/thread/ThreadPool.cpp:65-72 -/
def takeRunnable (s : St R) (t : Nat) : St R :=
  match (s.threads.worker t).runnable with
  | some x =>
    { s with threads := s.threads.set t ⟨.running x (s.objects.autoDelete x.runnable), none⟩ }
  | none => s.lookForWork t

/-- After `runnable->run()`.
mirrors os/thread/ThreadPool.cpp:82-86 -/
def finishTask (s : St R) (t : Nat) (x : Task R) (autoDelete : Bool) : St R :=
  lookForWork { s with objects := s.objects.deref autoDelete x.runnable,
                       threads := s.threads.setPc t .loop,
                       log := { s.log with done := s.log.done ++ [x] } } t

/-- mirrors os/thread/ThreadPool.cpp:117-135 -/
def wake (s : St R) (t : Nat) : St R :=
  if t ∈ s.threads.waiting then
    expire { s with threads := { s.threads with waiting := s.threads.waiting.erase t },
                    activeThreads := s.activeThreads + 1 } t
  else takeRunnable { s with threads := s.threads.setPc t .loop,
                             activeThreads := s.activeThreads + 1 } t

/-! ## The calls -/

/-- The next submission of a runnable. -/
def nextTask (s : St R) (r : R) : Task R := ⟨r, s.log.submitted.length⟩

def submit (s : St R) (x : Task R) : St R :=
  { s with log := { s.log with submitted := s.log.submitted ++ [x] } }

/-- mirrors os/thread/ThreadPool.cpp:367-383 -/
def start (s : St R) (r : R) (priority : Int) : St R :=
  match (s.submit (s.nextTask r)).tryStart (s.nextTask r) with
  | some s' => s'
  | none =>
    { (s.submit (s.nextTask r)).enqueueTask (s.nextTask r) priority with
      threads := s.threads.notifyFront }

/-- mirrors os/thread/ThreadPool.cpp:385-397 -/
def tryStartCall (s : St R) (r : R) : St R :=
  if s.threads.all ≠ [] ∧ s.maxThreadCount ≤ s.getActiveThreadCount then s
  else ((s.submit (s.nextTask r)).tryStart (s.nextTask r)).getD s

/-- mirrors os/thread/ThreadPool.cpp:326-352 -/
def tryTake (s : St R) (r : R) : St R :=
  match s.queue.tryTake r with
  | none => s
  | some (x, queue) =>
    { s with queue := queue, objects := s.objects.decRef r,
             log := { s.log with taken := s.log.taken ++ [x] } }

/-- One turn of the loop of `clear`. -/
def clearOne (o : Objects R) (x : Task R) : Objects R := o.deref (o.autoDelete x.runnable) x.runnable

/-- mirrors os/thread/ThreadPool.cpp:296-309 -/
def clear (s : St R) : St R :=
  { s with objects := s.queue.tasks.foldl clearOne s.objects, queue := s.queue.deleteAll,
           log := { s.log with cleared := s.log.cleared ++ s.queue.tasks } }

/-- mirrors os/thread/ThreadPool.cpp:420-429 -/
def setMaxThreadCount (s : St R) (n : Int) : St R :=
  if n = s.maxThreadCount then s
  else tryToStartMoreThreads { s with maxThreadCount := n }

/-- mirrors os/thread/ThreadPool.cpp:457-463 -/
def releaseThread (s : St R) : St R :=
  tryToStartMoreThreads { s with reservedThreads := s.reservedThreads - 1 }

end St

def step (s : St R) : Lbl R → Option (St R)
  | .start r priority => if s.objects.deleted r = 0 then some (s.start r priority) else none
  | .tryStart r => if s.objects.deleted r = 0 then some (s.tryStartCall r) else none
  | .tryTake r => some (s.tryTake r)
  | .clear => some s.clear
  | .setMaxThreadCount n => some (s.setMaxThreadCount n)
  | .reserveThread => some { s with reservedThreads := s.reservedThreads + 1 }
  | .releaseThread => some s.releaseThread
  | .enterRun t => if (s.threads.worker t).pc = .loop then some (s.takeRunnable t) else none
  | .finishTask t =>
    match (s.threads.worker t).pc with
    | .running x autoDelete => some (s.finishTask t x autoDelete)
    | _ => none
  | .wake t => if (s.threads.worker t).pc = .waiting then some (s.wake t) else none
  | .finish t =>
    if (s.threads.worker t).pc = .exiting then
      some { s with threads := s.threads.setPc t .finished }
    else none

/-- The pool with runnables `auto` and a first limit `maxThreadCount`, which
`getIdealThreadCount()` gives. -/
def pool (auto : R → Bool) (maxThreadCount : Int) : Lts (St R) (Lbl R) :=
  .ofStep (· = init auto maxThreadCount) step

/-! ## Where the submissions are -/

/-- A task handed to a thread that is about to enter its loop. -/
def Worker.assigned (w : Worker R) : List (Task R) :=
  match w.pc with
  | .loop => w.runnable.toList
  | _ => []

def Worker.current (w : Worker R) : List (Task R) :=
  match w.pc with
  | .running x _ => [x]
  | _ => []

def Threads.assigned (th : Threads R) : List (Task R) :=
  th.all.flatMap fun t => (th.worker t).assigned

def Threads.running (th : Threads R) : List (Task R) :=
  th.all.flatMap fun t => (th.worker t).current

/-- The submissions that are queued, assigned or running. -/
def St.pending (s : St R) : List (Task R) :=
  s.queue.tasks ++ s.threads.assigned ++ s.threads.running

/-- The submissions of a runnable among `xs`. -/
def countOf (r : R) (xs : List (Task R)) : Nat := tally (fun x => decide (x.runnable = r)) xs

/-- No task is lost, run twice or leaked. -/
structure Sound (auto : R → Bool) (s : St R) : Prop where
  /-- Every submission is in exactly one of the six places, once. -/
  placed : (s.pending ++ s.log.done ++ s.log.taken ++ s.log.cleared).Perm s.log.submitted
  distinct : s.log.submitted.Nodup
  /-- The queue holds no deleted page. -/
  live : ∀ page ∈ s.queue.pages, page.id ∉ s.queue.freed
  /-- `m_ref` counts the pending submissions. -/
  refCount : ∀ r, auto r = true → s.objects.mRef r = countOf r s.pending
  deleted_once : ∀ r, s.objects.deleted r ≤ 1
  /-- A runnable submitted once is deleted once it is done or cleared. -/
  deleted_iff : ∀ r, auto r = true → countOf r s.log.submitted ≤ 1 →
    s.objects.deleted r = countOf r s.log.done + countOf r s.log.cleared

end Libpdk.Thread.Pool

import Mathlib.Data.List.AList
import Mathlib.Logic.Function.Basic
import Libpdk.Core.Lts
import Libpdk.Thread.LockBlock

/-!
# The recursive read-write lock

`ReadWriteLock(RecursionMode::Recursion)` forwards every call to
`ReadWriteLockPrivate::recursiveLockForRead`, `recursiveLockForWrite` and
`recursiveUnlock`, which keep the owners in `m_currentWriter` and
`m_currentReaders`. Any number of threads `T` call them; each entry and each
return from a condition wait is one step under `m_mutex`.

`m_currentWriter` has no initialiser (`ReadWriteLockPrivate.h:32-39`): a new
lock may remember any handle, or a value that is no thread's handle (`none`).

`readHold` and `writeHold` are history variables: what each thread holds
according to the results the calls gave it. They decide nothing in the code's
steps except that a thread only unlocks what it holds.

## Result

`recursiveUnlock` ends a writer's last unlock with `m_writerCount = 0;` where
`m_currentWriter` should be cleared, so the lock keeps remembering a writer
that holds nothing. Such a thread is let in for write next to the readers, and
its unlock of a read lock is taken for an unlock of the write lock
(`recursive_excludes_false`). `StaleFree` is the condition on a step under
which neither happens; in every run whose steps all meet it, conflicting
holders are excluded and the four fields describe the holders
(`recursive_lock_sound`).
-/
namespace Libpdk.Thread.Recursive

open Libpdk.Thread

variable {T : Type} [DecidableEq T]

/-- Where a thread is: outside the lock, or in a wait of the two loops. -/
inductive Pc where
  | idle
  | waitRead (timeout : Int)
  | waitWrite (timeout : Int)
  deriving DecidableEq, Repr

/-- mirrors os/thread/internal/ReadWriteLockPrivate.h:29-59 -/
structure St (T : Type) [DecidableEq T] where
  block : LockBlock
  currentWriter : Option T
  currentReaders : AList fun _ : T => Int
  pc : T → Pc
  readHold : T → Nat
  writeHold : T → Nat
  locked : T → Nat
  unlocked : T → Nat

inductive Call where
  | lockForRead (timeout : Int)
  | lockForWrite (timeout : Int)
  | unlock
  deriving DecidableEq, Repr

/-- `enter t c e`: thread `t` enters call `c`; `wake t e`: the wait of `t`
returns. `e` says whether a timeout found expired in that step. The blocking
calls pass timeout `-1`, `tryLockForRead()` and `tryLockForWrite()` pass `0`. -/
inductive Lbl (T : Type) where
  | enter (t : T) (c : Call) (expired : Bool)
  | wake (t : T) (expired : Bool)

def init (w : Option T) : St T :=
  ⟨.zero, w, ∅, fun _ => .idle, fun _ => 0, fun _ => 0, fun _ => 0, fun _ => 0⟩

def bump (f : T → Nat) (t : T) : T → Nat := Function.update f t (f t + 1)

def drop (f : T → Nat) (t : T) : T → Nat := Function.update f t (f t - 1)

/-- The history of a successful lock for read. -/
def St.gotRead (s : St T) (t : T) : St T :=
  { s with pc := Function.update s.pc t .idle, readHold := bump s.readHold t,
           locked := bump s.locked t }

/-- The history of a successful lock for write. -/
def St.gotWrite (s : St T) (t : T) : St T :=
  { s with pc := Function.update s.pc t .idle, writeHold := bump s.writeHold t,
           locked := bump s.locked t }

/-- The history of an unlock: the write hold goes first. -/
def St.gaveBack (s : St T) (t : T) : St T :=
  if 0 < s.writeHold t then
    { s with writeHold := drop s.writeHold t, unlocked := bump s.unlocked t }
  else { s with readHold := drop s.readHold t, unlocked := bump s.unlocked t }

/-- What `recursiveLockForRead` does with the end of a turn of `lockForRead`.
mirrors os/thread/ReadWriteLock.cpp:177-181 -/
def afterRead (s : St T) (self : T) (timeout : Int) : Turn × LockBlock → St T
  | (.acquired, p) =>
    { s with block := p, currentReaders := s.currentReaders.insert self 1 }.gotRead self
  | (.refused, p) => { s with block := p, pc := Function.update s.pc self .idle }
  | (.waits, p) => { s with block := p, pc := Function.update s.pc self (.waitRead timeout) }

/-- mirrors os/thread/ReadWriteLock.cpp:167-182 -/
def recursiveLockForRead (s : St T) (self : T) (timeout : Int) (expired : Bool) : St T :=
  match s.currentReaders.lookup self with
  | some n => { s with currentReaders := s.currentReaders.insert self (n + 1) }.gotRead self
  | none => afterRead s self timeout (readTurn timeout expired s.block)

/-- mirrors os/thread/ReadWriteLock.cpp:193-197 -/
def afterWrite (s : St T) (self : T) (timeout : Int) : Turn × LockBlock → St T
  | (.acquired, p) => { s with block := p, currentWriter := some self }.gotWrite self
  | (.refused, p) => { s with block := p, pc := Function.update s.pc self .idle }
  | (.waits, p) => { s with block := p, pc := Function.update s.pc self (.waitWrite timeout) }

/-- mirrors os/thread/ReadWriteLock.cpp:184-198 -/
def recursiveLockForWrite (s : St T) (self : T) (timeout : Int) (expired : Bool) : St T :=
  if s.currentWriter = some self then
    { s with block := { s.block with writerCount := s.block.writerCount + 1 } }.gotWrite self
  else afterWrite s self timeout (writeTurn timeout expired s.block)

/-- The fields after `recursiveUnlock`; the closing `unlock(locker)` only
notifies.
mirrors os/thread/ReadWriteLock.cpp:200-228 -/
def recursiveUnlock (s : St T) (self : T) : St T :=
  if s.currentWriter = some self then
    let left := s.block.writerCount - 1
    { s with block := { s.block with writerCount := if 0 < left then left else 0 } }
  else
    match s.currentReaders.lookup self with
    | none => s
    | some n =>
      if n - 1 ≤ 0 then
        { s with currentReaders := s.currentReaders.erase self,
                 block := { s.block with readerCount := s.block.readerCount - 1 } }
      else { s with currentReaders := s.currentReaders.insert self (n - 1) }

/-- A thread inside a wait enters no call, and it only unlocks what it holds. -/
def step (s : St T) : Lbl T → Option (St T)
  | .enter t c expired =>
    if s.pc t = .idle then
      match c with
      | .lockForRead timeout => some (recursiveLockForRead s t timeout expired)
      | .lockForWrite timeout => some (recursiveLockForWrite s t timeout expired)
      | .unlock =>
        if 0 < s.readHold t + s.writeHold t then some ((recursiveUnlock s t).gaveBack t) else none
    else none
  | .wake t expired =>
    match s.pc t with
    | .idle => none
    | .waitRead timeout =>
      some (afterRead s t timeout (readTurn timeout expired s.block.readerBack))
    | .waitWrite timeout =>
      some (afterWrite s t timeout (writeTurn timeout expired s.block.writerBack))

def lts (T : Type) [DecidableEq T] : Lts (St T) (Lbl T) :=
  .ofStep (fun s => ∃ w, s = init w) step

/-! ## What the claim asks of a state -/

/-- No two threads hold the lock for write, and none holds it for read next to
another thread's write hold. -/
def Excludes (s : St T) : Prop :=
  ∀ t u, t ≠ u → 0 < s.writeHold t → s.writeHold u = 0 ∧ s.readHold u = 0

/-- The entry of `m_currentReaders` for a thread with `n` read holds. -/
def entryOf (n : Nat) : Option Int := if n = 0 then none else some n

@[simp] theorem entryOf_zero : entryOf 0 = none := rfl

theorem entryOf_pos {n : Nat} (h : 0 < n) : entryOf n = some (n : Int) := if_neg (by omega)

/-- The write holds of `t` that a remembered writer `w` with count `n` stands for. -/
def writesOf (w : Option T) (n : Int) (t : T) : Int := if w = some t then n else 0

theorem writesOf_same (t : T) (n : Int) : writesOf (some t) n t = n := if_pos rfl

theorem writesOf_other {w : Option T} {t : T} (h : w ≠ some t) (n : Int) : writesOf w n t = 0 :=
  if_neg h

theorem writesOf_ne {t u : T} (h : u ≠ t) (n : Int) : writesOf (some t) n u = 0 :=
  writesOf_other (fun e => h (Option.some.inj e).symm) n

theorem writesOf_zero (w : Option T) (t : T) : writesOf w 0 t = 0 := by
  unfold writesOf
  split <;> rfl

/-- The four fields describe exactly the holders: the remembered writer with
the writer count, the table of readers, and the number of its keys. -/
structure Describes (s : St T) : Prop where
  writer : ∀ t, (s.writeHold t : Int) = writesOf s.currentWriter s.block.writerCount t
  readers : ∀ t, s.currentReaders.lookup t = entryOf (s.readHold t)
  readerCount : s.block.readerCount = s.currentReaders.keys.length

/-- A thread that has unlocked as often as it locked is in none of the fields. -/
def Balanced (s : St T) : Prop :=
  ∀ t, s.locked t = s.unlocked t →
    s.currentReaders.lookup t = none ∧ (s.currentWriter = some t → s.block.writerCount = 0)

def Sound (s : St T) : Prop := Excludes s ∧ Describes s ∧ Balanced s

/-- The step does not act on a stale `m_currentWriter`: a thread the lock
remembers as its writer does not unlock while the writer count is 0, and does
not enter `lockForWrite` while the writer count is 0 and there are readers. -/
def StaleFree (s : St T) : Lbl T → Prop
  | .enter t .unlock _ => s.currentWriter = some t → 0 < s.block.writerCount
  | .enter t (.lockForWrite _) _ =>
    s.currentWriter = some t → 0 < s.block.writerCount ∨ s.block.readerCount = 0
  | _ => True

instance (s : St T) (l : Lbl T) : Decidable (StaleFree s l) := by
  unfold StaleFree
  split <;> infer_instance

/-! ## Invariant -/

structure Inv (s : St T) : Prop extends Describes s where
  nonneg : 0 ≤ s.block.writerCount
  exclusive : 0 < s.block.writerCount → s.block.readerCount = 0
  balance : ∀ t, s.readHold t + s.writeHold t + s.unlocked t = s.locked t

omit [DecidableEq T] in
theorem keys_length_pos {m : AList fun _ : T => Int} {t : T} (h : t ∈ m) :
    0 < m.keys.length :=
  List.length_pos_of_mem (AList.mem_keys.mp h)

theorem keys_length_insert_old {m : AList fun _ : T => Int} {t : T} (h : t ∈ m) (n : Int) :
    (m.insert t n).keys.length = m.keys.length := by
  have hpos := keys_length_pos h
  rw [AList.keys_insert, List.length_cons, List.length_erase_of_mem (AList.mem_keys.mp h)]
  omega

theorem keys_length_insert_new {m : AList fun _ : T => Int} {t : T} (h : t ∉ m) (n : Int) :
    (m.insert t n).keys.length = m.keys.length + 1 := by
  rw [AList.keys_insert, List.length_cons, List.erase_of_not_mem (fun hk => h (AList.mem_keys.mpr hk))]

theorem keys_length_erase {m : AList fun _ : T => Int} {t : T} (h : t ∈ m) :
    ((m.erase t).keys.length : Int) = m.keys.length - 1 := by
  have hpos := keys_length_pos h
  rw [AList.keys_erase, List.length_erase_of_mem (AList.mem_keys.mp h)]
  omega

theorem bump_same (f : T → Nat) (t : T) : bump f t t = f t + 1 := by simp [bump]

theorem bump_other (f : T → Nat) {t u : T} (h : u ≠ t) : bump f t u = f u := by simp [bump, h]

theorem drop_same (f : T → Nat) (t : T) : drop f t t = f t - 1 := by simp [drop]

theorem drop_other (f : T → Nat) {t u : T} (h : u ≠ t) : drop f t u = f u := by simp [drop, h]

/-- A key of the table is a thread that holds the lock for read. -/
theorem Describes.mem_iff {s : St T} (h : Describes s) (t : T) :
    t ∈ s.currentReaders ↔ 0 < s.readHold t := by
  rw [← AList.lookup_isSome, h.readers t]
  rcases Nat.eq_zero_or_pos (s.readHold t) with e | e
  · simp [e]
  · simp [entryOf_pos e, e]

/-- With a positive writer count nobody holds the lock for read. -/
theorem Inv.no_reader {s : St T} (h : Inv s) (hw : 0 < s.block.writerCount) (t : T) :
    s.readHold t = 0 := by
  by_contra hr
  have hmem := (h.mem_iff t).mpr (by omega)
  have hlen := keys_length_pos hmem
  have hcount := h.readerCount
  have hzero := h.exclusive hw
  omega

theorem Inv.init (w : Option T) : Inv (init w) where
  writer t := (writesOf_zero w t).symm
  readers t := by simp [Recursive.init]
  readerCount := by simp [Recursive.init, LockBlock.zero]
  nonneg := by simp [Recursive.init, LockBlock.zero]
  exclusive := by simp [Recursive.init, LockBlock.zero]
  balance t := by simp [Recursive.init]

/-- Steps that touch neither the counts, the owners nor the history. -/
theorem Inv.frame {s s' : St T} (h : Inv s) (hw : s'.block.writerCount = s.block.writerCount)
    (hr : s'.block.readerCount = s.block.readerCount) (hcw : s'.currentWriter = s.currentWriter)
    (hcr : s'.currentReaders = s.currentReaders) (hrh : s'.readHold = s.readHold)
    (hwh : s'.writeHold = s.writeHold) (hl : s'.locked = s.locked)
    (hu : s'.unlocked = s.unlocked) : Inv s' where
  writer t := by rw [hwh, hcw, hw]; exact h.writer t
  readers t := by rw [hcr, hrh]; exact h.readers t
  readerCount := by rw [hr, hcr]; exact h.readerCount
  nonneg := by rw [hw]; exact h.nonneg
  exclusive := by rw [hw, hr]; exact h.exclusive
  balance t := by rw [hrh, hwh, hl, hu]; exact h.balance t

/-- A new reader: no writer holds the lock and the table gets a key. -/
theorem Inv.new_reader {s : St T} (h : Inv s) {t : T} {p : LockBlock}
    (hnew : s.currentReaders.lookup t = none) (hw : s.block.writerCount = 0)
    (hpw : p.writerCount = s.block.writerCount) (hpr : p.readerCount = s.block.readerCount + 1) :
    Inv ({ s with block := p, currentReaders := s.currentReaders.insert t 1 }.gotRead t) := by
  have hmem : t ∉ s.currentReaders := AList.lookup_eq_none.mp hnew
  have hzero : s.readHold t = 0 := by
    have := mt (h.mem_iff t).mpr hmem
    omega
  refine ⟨⟨?_, ?_, ?_⟩, ?_, ?_, ?_⟩ <;> simp only [St.gotRead]
  · intro u
    rw [hpw]
    exact h.writer u
  · intro u
    by_cases hu : u = t
    · subst hu
      rw [AList.lookup_insert, bump_same, hzero, entryOf_pos Nat.one_pos]
      rfl
    · rw [AList.lookup_insert_ne hu, bump_other _ hu]
      exact h.readers u
  · rw [hpr, h.readerCount, keys_length_insert_new hmem]
    omega
  · rw [hpw]; exact h.nonneg
  · intro hpos
    omega
  · intro u
    have hb := h.balance u
    by_cases hu : u = t
    · subst hu
      rw [bump_same, bump_same]
      omega
    · rw [bump_other _ hu, bump_other _ hu]
      exact hb

/-- A reader that locks again. -/
theorem Inv.again_reader {s : St T} (h : Inv s) {t : T} {n : Int}
    (hold : s.currentReaders.lookup t = some n) :
    Inv ({ s with currentReaders := s.currentReaders.insert t (n + 1) }.gotRead t) := by
  have hmem : t ∈ s.currentReaders := by rw [← AList.lookup_isSome, hold]; rfl
  have hpos := (h.mem_iff t).mp hmem
  have hn : n = s.readHold t := by
    have := h.readers t
    rw [hold, entryOf_pos hpos] at this
    exact Option.some.inj this
  refine ⟨⟨h.writer, ?_, ?_⟩, h.nonneg, h.exclusive, ?_⟩ <;> simp only [St.gotRead]
  · intro u
    by_cases hu : u = t
    · subst hu
      rw [AList.lookup_insert, bump_same, entryOf_pos (Nat.succ_pos _), hn]
      rfl
    · rw [AList.lookup_insert_ne hu, bump_other _ hu]
      exact h.readers u
  · rw [keys_length_insert_old hmem]
    exact h.readerCount
  · intro u
    have hb := h.balance u
    by_cases hu : u = t
    · subst hu
      rw [bump_same, bump_same]
      omega
    · rw [bump_other _ hu, bump_other _ hu]
      exact hb

/-- A writer's lock: `t` is the remembered writer afterwards, and either held
the lock for write already or there is no reader. -/
theorem Inv.write {s : St T} (h : Inv s) {t : T} {p : LockBlock}
    (hcw : s.currentWriter = some t ∨ s.block.writerCount = 0)
    (hr : 0 < s.block.writerCount ∨ s.block.readerCount = 0)
    (hpw : p.writerCount = s.block.writerCount + 1) (hpr : p.readerCount = s.block.readerCount) :
    Inv ({ s with block := p, currentWriter := some t }.gotWrite t) := by
  have hnn := h.nonneg
  have hex := h.exclusive
  have hwt := h.writer
  refine ⟨⟨?_, h.readers, ?_⟩, ?_, ?_, ?_⟩ <;> simp only [St.gotWrite]
  · intro u
    have := hwt u
    by_cases hu : u = t
    · subst hu
      rw [bump_same, writesOf_same, hpw]
      rcases hcw with hcw | hcw
      · rw [hcw, writesOf_same] at this
        omega
      · rw [hcw, writesOf_zero] at this
        omega
    · rw [bump_other _ hu, writesOf_ne hu, this]
      rcases hcw with hcw | hcw
      · rw [hcw, writesOf_ne hu]
      · rw [hcw, writesOf_zero]
  · rw [hpr]; exact h.readerCount
  · omega
  · intro _
    rcases hr with hr | hr
    · rw [hpr]; exact hex hr
    · rw [hpr]; exact hr
  · intro u
    have hb := h.balance u
    by_cases hu : u = t
    · subst hu
      rw [bump_same, bump_same]
      omega
    · rw [bump_other _ hu, bump_other _ hu]
      exact hb

theorem Inv.afterRead {s : St T} (h : Inv s) (t : T) (timeout : Int) (expired : Bool)
    {p : LockBlock} (hnew : s.currentReaders.lookup t = none)
    (hpw : p.writerCount = s.block.writerCount) (hpr : p.readerCount = s.block.readerCount) :
    Inv (afterRead s t timeout (readTurn timeout expired p)) := by
  rcases readTurn_cases timeout expired p with ⟨e, _, hw⟩ | ⟨e, _⟩ | ⟨e, _⟩ <;> rw [e]
  · exact h.new_reader hnew (by omega) hpw (by simp only; omega)
  · exact h.frame hpw hpr rfl rfl rfl rfl rfl rfl
  · exact h.frame hpw hpr rfl rfl rfl rfl rfl rfl

theorem Inv.afterWrite {s : St T} (h : Inv s) (t : T) (timeout : Int) (expired : Bool)
    {p : LockBlock} (hpw : p.writerCount = s.block.writerCount)
    (hpr : p.readerCount = s.block.readerCount) :
    Inv (afterWrite s t timeout (writeTurn timeout expired p)) := by
  rcases writeTurn_cases timeout expired p with ⟨e, hr, hw⟩ | ⟨e, _⟩ | ⟨e, _⟩ <;> rw [e]
  · exact h.write (.inr (by omega)) (.inr (by omega)) (by simp only; omega) hpr
  · exact h.frame hpw hpr rfl rfl rfl rfl rfl rfl
  · exact h.frame hpw hpr rfl rfl rfl rfl rfl rfl

/-- An unlock by the writer, with a positive writer count. -/
theorem Inv.unlock_writer {s : St T} (h : Inv s) {t : T} (hcw : s.currentWriter = some t)
    (hpos : 0 < s.block.writerCount) : Inv ((recursiveUnlock s t).gaveBack t) := by
  have hwt := h.writer
  have hwr : (s.writeHold t : Int) = s.block.writerCount := by rw [hwt t, hcw, writesOf_same]
  have hrest : ∀ u, u ≠ t → s.writeHold u = 0 := by
    intro u hu
    have := hwt u
    rw [hcw, writesOf_ne hu] at this
    omega
  -- both branches store `m_writerCount - 1`
  have hleft : (if 0 < s.block.writerCount - 1 then s.block.writerCount - 1 else 0) =
      s.block.writerCount - 1 := by
    split <;> omega
  have hcount : (recursiveUnlock s t) =
      { s with block := { s.block with writerCount := s.block.writerCount - 1 } } := by
    simp only [recursiveUnlock, hcw, if_true, hleft]
  rw [hcount, St.gaveBack, if_pos (show 0 < s.writeHold t by omega)]
  refine ⟨⟨?_, h.readers, h.readerCount⟩, by simp only; omega, ?_, ?_⟩ <;> simp only
  · intro u
    by_cases hu : u = t
    · subst hu
      rw [drop_same, hcw, writesOf_same]
      omega
    · rw [drop_other _ hu, hrest u hu, hcw, writesOf_ne hu]
      rfl
  · intro _
    exact h.exclusive hpos
  · intro u
    have hb := h.balance u
    by_cases hu : u = t
    · subst hu
      rw [drop_same, bump_same]
      omega
    · rw [drop_other _ hu, bump_other _ hu]
      exact hb

/-- An unlock by a thread the lock does not remember as its writer. -/
theorem Inv.unlock_reader {s : St T} (h : Inv s) {t : T} (hcw : s.currentWriter ≠ some t)
    (hheld : 0 < s.readHold t + s.writeHold t) : Inv ((recursiveUnlock s t).gaveBack t) := by
  have hwz : s.writeHold t = 0 := by
    have := h.writer t
    rw [writesOf_other hcw] at this
    omega
  have hrp : 0 < s.readHold t := by omega
  have hlook : s.currentReaders.lookup t = some (s.readHold t : Int) := by
    rw [h.readers t, entryOf_pos hrp]
  have hmem := (h.mem_iff t).mpr hrp
  have hbal : ∀ u, drop s.readHold t u + s.writeHold u + bump s.unlocked t u = s.locked u := by
    intro u
    have hb := h.balance u
    by_cases hu : u = t
    · subst hu
      rw [drop_same, bump_same]
      omega
    · rw [drop_other _ hu, bump_other _ hu]
      exact hb
  have hother : ∀ u, u ≠ t → s.currentReaders.lookup u = entryOf (drop s.readHold t u) := by
    intro u hu
    rw [drop_other _ hu]
    exact h.readers u
  simp only [recursiveUnlock, if_neg hcw, hlook]
  split
  · rename_i hlast
    simp only [St.gaveBack, hwz, lt_irrefl, if_false]
    refine ⟨⟨h.writer, ?_, ?_⟩, h.nonneg, ?_, hbal⟩ <;> simp only
    · intro u
      by_cases hu : u = t
      · subst hu
        rw [AList.lookup_erase, drop_same, show s.readHold u - 1 = 0 by omega, entryOf_zero]
      · rw [AList.lookup_erase_ne hu]
        exact hother u hu
    · rw [keys_length_erase hmem, h.readerCount]
    · intro hpos
      exact absurd (h.no_reader hpos t) (by omega)
  · rename_i hmore
    simp only [St.gaveBack, hwz, lt_irrefl, if_false]
    refine ⟨⟨h.writer, ?_, ?_⟩, h.nonneg, h.exclusive, hbal⟩ <;> simp only
    · intro u
      by_cases hu : u = t
      · subst hu
        rw [AList.lookup_insert, drop_same, entryOf_pos (by omega)]
        congr 1
        omega
      · rw [AList.lookup_insert_ne hu]
        exact hother u hu
    · rw [keys_length_insert_old hmem]
      exact h.readerCount

/-- A thread in a wait of `lockForRead` is not in the table of readers. -/
def WaitersOut (s : St T) : Prop :=
  ∀ t timeout, s.pc t = .waitRead timeout → s.currentReaders.lookup t = none

theorem WaitersOut.afterRead {s : St T} (h : WaitersOut s) (t : T) (timeout : Int)
    (hnew : s.currentReaders.lookup t = none) (r : Turn × LockBlock) :
    WaitersOut (afterRead s t timeout r) := by
  intro u o hu
  obtain ⟨turn, p⟩ := r
  cases turn <;> simp only [Recursive.afterRead, St.gotRead] at hu ⊢ <;> by_cases hut : u = t
  · subst hut; simp at hu
  · rw [Function.update_of_ne hut] at hu
    rw [AList.lookup_insert_ne hut]
    exact h u o hu
  · subst hut; exact hnew
  · rw [Function.update_of_ne hut] at hu
    exact h u o hu
  · subst hut; exact hnew
  · rw [Function.update_of_ne hut] at hu
    exact h u o hu

theorem WaitersOut.afterWrite {s : St T} (h : WaitersOut s) (t : T) (timeout : Int)
    (r : Turn × LockBlock) : WaitersOut (afterWrite s t timeout r) := by
  intro u o hu
  obtain ⟨turn, p⟩ := r
  cases turn <;> simp only [Recursive.afterWrite, St.gotWrite] at hu ⊢ <;> by_cases hut : u = t
  all_goals first
    | (subst hut; simp at hu)
    | (rw [Function.update_of_ne hut] at hu; exact h u o hu)

@[simp] theorem gaveBack_pc (s : St T) (t : T) : (s.gaveBack t).pc = s.pc := by
  unfold St.gaveBack
  split <;> rfl

@[simp] theorem gaveBack_currentReaders (s : St T) (t : T) :
    (s.gaveBack t).currentReaders = s.currentReaders := by
  unfold St.gaveBack
  split <;> rfl

@[simp] theorem recursiveUnlock_pc (s : St T) (t : T) : (recursiveUnlock s t).pc = s.pc := by
  unfold recursiveUnlock
  split
  · rfl
  · split
    · rfl
    · split <;> rfl

theorem recursiveUnlock_lookup (s : St T) {t u : T} (h : u ≠ t) :
    (recursiveUnlock s t).currentReaders.lookup u = s.currentReaders.lookup u := by
  unfold recursiveUnlock
  split
  · rfl
  · split
    · rfl
    · split
      · exact AList.lookup_erase_ne h
      · exact AList.lookup_insert_ne h

/-- An unlock moves no thread, and only rewrites the entry of its own thread. -/
theorem WaitersOut.unlock {s : St T} (h : WaitersOut s) {t : T} (hidle : s.pc t = .idle) :
    WaitersOut ((recursiveUnlock s t).gaveBack t) := by
  intro u o hu
  rw [gaveBack_pc, recursiveUnlock_pc] at hu
  have hne : u ≠ t := by
    rintro rfl
    rw [hidle] at hu
    cases hu
  rw [gaveBack_currentReaders, recursiveUnlock_lookup s hne]
  exact h u o hu

def Full (s : St T) : Prop := Inv s ∧ WaitersOut s

theorem full_enter {s s' : St T} {t : T} {c : Call} {expired : Bool} (h : Full s)
    (hst : step s (.enter t c expired) = some s') (hok : StaleFree s (.enter t c expired)) :
    Full s' := by
  obtain ⟨hi, hw⟩ := h
  simp only [step] at hst
  split at hst
  · rename_i hidle
    cases c with
    | lockForRead timeout =>
      simp only [Option.some.injEq] at hst
      subst hst
      unfold recursiveLockForRead
      split
      · rename_i n hn
        refine ⟨hi.again_reader hn, ?_⟩
        intro u o hu
        simp only [St.gotRead] at hu ⊢
        by_cases hut : u = t
        · subst hut; simp at hu
        · rw [Function.update_of_ne hut] at hu
          rw [AList.lookup_insert_ne hut]
          exact hw u o hu
      · rename_i hn
        exact ⟨hi.afterRead t timeout expired hn rfl rfl, hw.afterRead t timeout hn _⟩
    | lockForWrite timeout =>
      simp only [Option.some.injEq] at hst
      subst hst
      unfold recursiveLockForWrite
      split
      · rename_i hcw
        have hinv := hi.write (t := t) (p := { s.block with writerCount := s.block.writerCount + 1 })
          (.inl hcw) (hok hcw) rfl rfl
        refine ⟨by rw [← hcw] at hinv; exact hinv, ?_⟩
        intro u o hu
        simp only [St.gotWrite] at hu ⊢
        by_cases hut : u = t
        · subst hut; simp at hu
        · rw [Function.update_of_ne hut] at hu
          exact hw u o hu
      · exact ⟨hi.afterWrite t timeout expired rfl rfl, hw.afterWrite t timeout _⟩
    | unlock =>
      simp only at hst
      split at hst
      · rename_i hheld
        simp only [Option.some.injEq] at hst
        subst hst
        refine ⟨?_, hw.unlock hidle⟩
        by_cases hcw : s.currentWriter = some t
        · exact hi.unlock_writer hcw (hok hcw)
        · exact hi.unlock_reader hcw hheld
      · cases hst
  · cases hst

theorem full_wake {s s' : St T} {t : T} {expired : Bool} (h : Full s)
    (hst : step s (.wake t expired) = some s') : Full s' := by
  obtain ⟨hi, hw⟩ := h
  simp only [step] at hst
  split at hst
  · cases hst
  · rename_i timeout hpc
    simp only [Option.some.injEq] at hst
    subst hst
    have hn := hw t timeout hpc
    exact ⟨hi.afterRead t timeout expired hn rfl rfl, hw.afterRead t timeout hn _⟩
  · rename_i timeout hpc
    simp only [Option.some.injEq] at hst
    subst hst
    exact ⟨hi.afterWrite t timeout expired rfl rfl, hw.afterWrite t timeout _⟩

theorem full_inductive : ((lts T).restrict StaleFree).Inductive Full where
  init := by
    rintro s ⟨w, rfl⟩
    exact ⟨.init w, fun t o h => by simp [Recursive.init] at h⟩
  step := by
    rintro s l s' h ⟨hst, hok⟩
    cases l with
    | enter t c expired => exact full_enter h hst hok
    | wake t expired => exact full_wake h hst

theorem Inv.sound {s : St T} (h : Inv s) : Sound s := by
  refine ⟨?_, h.toDescribes, ?_⟩
  · intro t u hne hpos
    have hwt := h.writer t
    by_cases hcw : s.currentWriter = some t
    · have hu := h.writer u
      rw [hcw, writesOf_ne hne.symm] at hu
      rw [hcw, writesOf_same] at hwt
      exact ⟨by omega, h.no_reader (by omega) u⟩
    · rw [writesOf_other hcw] at hwt
      omega
  · intro t ht
    have hb := h.balance t
    refine ⟨by rw [h.readers t, show s.readHold t = 0 by omega, entryOf_zero], fun hcw => ?_⟩
    have hwt := h.writer t
    rw [hcw, writesOf_same] at hwt
    omega

/-! ## Results -/

/-- In every run of any number of threads whose steps are all `StaleFree`,
every state excludes conflicting holders and is described by the four fields. -/
theorem recursive_lock_sound (s : St T) (hr : ((lts T).restrict StaleFree).Reachable s) : Sound s :=
  (full_inductive.reachable s hr).1.sound

def lockRead (t : Nat) : Lbl Nat := .enter t (.lockForRead (-1)) false
def lockWrite (t : Nat) : Lbl Nat := .enter t (.lockForWrite (-1)) false
def unlock (t : Nat) : Lbl Nat := .enter t .unlock false

/-- Thread 1 writes, unlocks and comes back for write while thread 2 reads. -/
def staleWriter : List (Lbl Nat) := [lockWrite 1, unlock 1, lockRead 2, lockWrite 1]

theorem staleWriter_result :
    (Lts.exec step (init none) staleWriter).map (fun s => (s.writeHold 1, s.readHold 2)) =
      some (1, 1) := by
  decide

/-- Without `StaleFree` a reachable state has a writer and a reader. -/
theorem recursive_excludes_false : ¬ ∀ s, (lts Nat).Reachable s → Sound s := by
  intro h
  have hres := staleWriter_result
  rw [Option.map_eq_some_iff] at hres
  obtain ⟨s, hs, hv⟩ := hres
  obtain ⟨hex, -, -⟩ := h s ⟨init none, staleWriter, ⟨none, rfl⟩, Lts.run_of_exec hs⟩
  simp only [Prod.mk.injEq] at hv
  have := (hex 1 2 (by decide) (by omega)).2
  omega

/-- A writer that locks twice and unlocks twice, next to a reader that has to wait. -/
def goodRun : List (Lbl Nat) :=
  [lockWrite 1, lockRead 2, lockWrite 1, unlock 1, unlock 1, .wake 2 false, unlock 2]

theorem goodRun_sound : ∃ s, Lts.execOk step StaleFree (init none) goodRun = some s ∧ Sound s := by
  have hsome : (Lts.execOk step StaleFree (init none) goodRun).isSome := by decide
  obtain ⟨s, hs⟩ := Option.isSome_iff_exists.mp hsome
  exact ⟨s, hs, recursive_lock_sound s ⟨init none, goodRun, ⟨none, rfl⟩, Lts.run_of_execOk hs⟩⟩

end Libpdk.Thread.Recursive

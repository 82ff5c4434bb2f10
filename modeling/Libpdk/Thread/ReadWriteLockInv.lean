import Libpdk.Thread.ReadWriteLock

/-!
# Mutual exclusion of the non-recursive read-write lock

One invariant over the three representations of a lock, the blocks and the
threads (`Inv`), split by the object it speaks about:

* `LockInv`: what the word of a lock says about its holders, and, for a lock
  with a block, that the block's counts are the numbers of holders and that
  somebody holds or waits;
* `BlockInv`: a block belongs to one lock, to one thread or to the free list;
  its waiting counts are the numbers of threads in its waits; a free block is
  all zero;
* `PcInv`: what a thread relies on where it stands.

A step touches few objects: `Inv.frame` reduces its preservation to the lock,
the block and the thread it touches.
-/
set_option linter.unusedSectionVars false

namespace Libpdk.Thread.Shared

open Libpdk.Thread

variable {T L B : Type} [DecidableEq T] [DecidableEq L] [DecidableEq B]

/-- The holders of `l`, counted by the numbers `r` and `w`. -/
structure Counted (s : St T L B) (l : L) (r w : Int) : Prop where
  readers : r = (s.readers l).length
  writers : w = (s.writers l).length
  exclusive : s.writers l = [] ∨ ((s.writers l).length = 1 ∧ s.readers l = [])

def LockInv (s : St T L B) (l : L) : Prop :=
  match s.impl l with
  | .null => Counted s l 0 0
  | .read n => Counted s l (n + 1) 0
  | .write => Counted s l 0 1
  | .block b => s.owner b = .lock l ∧ Counted s l (s.block b).readerCount (s.block b).writerCount ∧
      (s.readers l ≠ [] ∨ s.writers l ≠ [] ∨ (s.readQ b).Nonempty ∨ (s.writeQ b).Nonempty)

def queue (s : St T L B) : Kind → B → Finset T
  | .read, b => s.readQ b
  | .write, b => s.writeQ b

structure BlockInv (s : St T L B) (b : B) : Prop where
  attached : ∀ l, s.owner b = .lock l → s.impl l = .block b
  waitingReaders : (s.block b).waitingReaders = (s.readQ b).card
  waitingWriters : (s.block b).waitingWriters = (s.writeQ b).card
  detached : (∀ l, s.owner b ≠ .lock l) → s.readQ b = ∅ ∧ s.writeQ b = ∅
  free : s.owner b = .free → s.block b = .zero
  waits : ∀ k u, u ∈ queue s k b → ∃ l timeout, s.pc u = .wait k l timeout b

/-- The fields of a fresh block, filled for the word `d` it is to replace. -/
def Filled (k : Kind) (d : Impl B) (p : LockBlock) : Prop :=
  match d with
  | .read n => k = .write ∧ p = { LockBlock.zero with readerCount := n + 1 }
  | .write => p = { LockBlock.zero with writerCount := 1 }
  | _ => False

def Holds (s : St T L B) (t : T) (l : L) : Prop := t ∈ s.readers l ∨ t ∈ s.writers l

def PcInv (s : St T L B) (t : T) : Prop :=
  match s.pc t with
  | .offer k _ _ b d => s.owner b = .thread t ∧ Filled k d (s.block b)
  | .giveBack _ _ _ b _ => s.owner b = .thread t ∧ s.block b = .zero
  | .unlockFree _ b => s.owner b = .thread t ∧ s.block b = .zero
  | .wait k l _ b => s.owner b = .lock l ∧ t ∈ queue s k b
  | .unlockLoad l => Holds s t l
  | .unlockLoop l d => Holds s t l ∧ d ≠ .null ∧ ∀ b, d = .block b → s.impl l = .block b
  | _ => True

structure Inv (s : St T L B) : Prop where
  noFail : s.failed = false
  lock : ∀ l, LockInv s l
  block : ∀ b, BlockInv s b
  pc : ∀ t, PcInv s t

/-! ## What a lock's word says -/

/-- The numbers of holders that the word of `l`, or its block, records. -/
def counts (s : St T L B) (l : L) : Int × Int :=
  match s.impl l with
  | .null => (0, 0)
  | .read n => (n + 1, 0)
  | .write => (0, 1)
  | .block b => ((s.block b).readerCount, (s.block b).writerCount)

theorem LockInv.counted {s : St T L B} {l : L} (h : LockInv s l) :
    Counted s l (counts s l).1 (counts s l).2 := by
  unfold LockInv at h
  unfold counts
  split at h
  · exact h
  · exact h
  · exact h
  · exact h.2.1

theorem Counted.no_readers {s : St T L B} {l : L} {w : Int} (h : Counted s l 0 w) :
    s.readers l = [] := by
  have := h.readers
  exact List.length_eq_zero_iff.mp (by omega)

theorem Counted.no_writers {s : St T L B} {l : L} {r : Int} (h : Counted s l r 0) :
    s.writers l = [] := by
  have := h.writers
  exact List.length_eq_zero_iff.mp (by omega)

theorem Counted.free {s : St T L B} {l : L} (h : Counted s l 0 0) (t : T) : ¬ Holds s t l := by
  simp [Holds, h.no_readers, h.no_writers]

theorem LockInv.not_null {s : St T L B} {l : L} (h : LockInv s l) {t : T} (ht : Holds s t l) :
    s.impl l ≠ .null := by
  intro e
  have hc := h.counted
  simp only [counts, e] at hc
  exact hc.free t ht

/-! ## Frame -/

/-- Nothing about the lock `l` changes. -/
structure SameLock (s s' : St T L B) (l : L) : Prop where
  impl : s'.impl l = s.impl l
  readers : s'.readers l = s.readers l
  writers : s'.writers l = s.writers l

/-- Nothing about the block `b` changes. -/
structure SameBlock (s s' : St T L B) (b : B) : Prop where
  block : s'.block b = s.block b
  owner : s'.owner b = s.owner b
  readQ : s'.readQ b = s.readQ b
  writeQ : s'.writeQ b = s.writeQ b

/-- What a step of thread `t` that touches only the locks in `tl` and the
blocks in `tb` leaves to the others. -/
structure Touches (s s' : St T L B) (t : T) (tl : L → Prop) (tb : B → Prop) : Prop where
  pc : ∀ u, u ≠ t → s'.pc u = s.pc u
  lock : ∀ l, ¬ tl l → SameLock s s' l
  block : ∀ b, ¬ tb b → SameBlock s s' b
  /-- A touched block belongs to a touched lock, to `t` or to the free list. -/
  owner : ∀ b, tb b → (∃ l, tl l ∧ s.owner b = .lock l) ∨ s.owner b = .thread t ∨ s.owner b = .free
  /-- `t` leaves a wait only of a touched block. -/
  waits : ∀ k l timeout b, s.pc t = .wait k l timeout b → tb b
  /-- A touched lock keeps an untouched block. -/
  keeps : ∀ l b, tl l → ¬ tb b → s.impl l = .block b → s'.impl l = .block b
  /-- The other threads keep their holds, and a held lock its block. -/
  holds : ∀ l u, tl l → u ≠ t → Holds s u l →
    Holds s' u l ∧ ∀ b, s.impl l = .block b → s'.impl l = .block b
  /-- The other threads stay in their waits. -/
  queue : ∀ k b u, tb b → u ≠ t → u ∈ queue s k b → u ∈ queue s' k b ∧ s'.owner b = s.owner b

theorem SameLock.counted {s s' : St T L B} {l : L} (h : SameLock s s' l) {r w : Int}
    (hc : Counted s l r w) : Counted s' l r w := by
  obtain ⟨h1, h2, h3⟩ := hc
  exact ⟨by rw [h.readers]; exact h1, by rw [h.writers]; exact h2,
    by rw [h.readers, h.writers]; exact h3⟩

theorem SameBlock.queue {s s' : St T L B} {b : B} (h : SameBlock s s' b) (k : Kind) :
    queue s' k b = queue s k b := by
  cases k
  · exact h.readQ
  · exact h.writeQ

section Frame

variable {s s' : St T L B} {t : T} {tl : L → Prop} {tb : B → Prop}

/-- The block of an untouched lock is untouched. -/
theorem Touches.block_of_lock (f : Touches s s' t tl tb) (h : Inv s) {l : L} (hl : ¬ tl l) {b : B}
    (hb : s.impl l = .block b) : ¬ tb b := by
  intro htb
  have hown : s.owner b = .lock l := by
    have := h.lock l
    simp only [LockInv, hb] at this
    exact this.1
  rcases f.owner b htb with ⟨l', hl', e⟩ | e | e
  · rw [hown] at e
    cases e
    exact hl hl'
  · rw [hown] at e; cases e
  · rw [hown] at e; cases e

theorem Touches.lockInv (f : Touches s s' t tl tb) (h : Inv s) {l : L} (hl : ¬ tl l) :
    LockInv s' l := by
  have hs := f.lock l hl
  have hi := h.lock l
  unfold LockInv at hi ⊢
  rw [hs.impl]
  split at hi
  · exact hs.counted hi
  · exact hs.counted hi
  · exact hs.counted hi
  · rename_i b hb
    have hsb := f.block b (f.block_of_lock h hl hb)
    obtain ⟨h1, h2, h3⟩ := hi
    refine ⟨by rw [hsb.owner]; exact h1, by rw [hsb.block]; exact hs.counted h2, ?_⟩
    rw [hs.readers, hs.writers, hsb.readQ, hsb.writeQ]
    exact h3

theorem Touches.blockInv (f : Touches s s' t tl tb) (h : Inv s) {b : B} (hb : ¬ tb b) :
    BlockInv s' b := by
  have hs := f.block b hb
  have hi := h.block b
  refine ⟨?_, ?_, ?_, ?_, ?_, ?_⟩
  · intro l hl
    rw [hs.owner] at hl
    have himpl := hi.attached l hl
    by_cases htl : tl l
    · exact f.keeps l b htl hb himpl
    · rw [(f.lock l htl).impl]; exact himpl
  · rw [hs.block, hs.readQ]; exact hi.waitingReaders
  · rw [hs.block, hs.writeQ]; exact hi.waitingWriters
  · rw [hs.owner, hs.readQ, hs.writeQ]; exact hi.detached
  · rw [hs.owner, hs.block]; exact hi.free
  · intro k u hu
    rw [hs.queue] at hu
    obtain ⟨l, o, hpc⟩ := hi.waits k u hu
    have hne : u ≠ t := by
      rintro rfl
      exact hb (f.waits k l o b hpc)
    exact ⟨l, o, by rw [f.pc u hne]; exact hpc⟩

/-- A block that another thread holds is untouched. -/
theorem Touches.private_block (f : Touches s s' t tl tb) {u : T} (hu : u ≠ t) {b : B}
    (hb : s.owner b = .thread u) : SameBlock s s' b := by
  apply f.block
  intro htb
  rcases f.owner b htb with ⟨l, -, e⟩ | e | e
  · rw [hb] at e; cases e
  · rw [hb] at e; cases e; exact hu rfl
  · rw [hb] at e; cases e

theorem Touches.holds_other (f : Touches s s' t tl tb) {u : T} (hu : u ≠ t) {l : L}
    (hh : Holds s u l) : Holds s' u l ∧ ∀ b, s.impl l = .block b → s'.impl l = .block b := by
  by_cases htl : tl l
  · exact f.holds l u htl hu hh
  · have hs := f.lock l htl
    refine ⟨?_, fun b hb => by rw [hs.impl]; exact hb⟩
    unfold Holds at hh ⊢
    rw [hs.readers, hs.writers]
    exact hh

theorem Touches.pcInv (f : Touches s s' t tl tb) (h : Inv s) {u : T} (hu : u ≠ t) :
    PcInv s' u := by
  have hi := h.pc u
  unfold PcInv at hi ⊢
  rw [f.pc u hu]
  split at hi
  · have hs := f.private_block hu hi.1
    exact ⟨by rw [hs.owner]; exact hi.1, by rw [hs.block]; exact hi.2⟩
  · have hs := f.private_block hu hi.1
    exact ⟨by rw [hs.owner]; exact hi.1, by rw [hs.block]; exact hi.2⟩
  · have hs := f.private_block hu hi.1
    exact ⟨by rw [hs.owner]; exact hi.1, by rw [hs.block]; exact hi.2⟩
  · rename_i k l o b hpc
    by_cases htb : tb b
    · obtain ⟨h1, h2⟩ := f.queue k b u htb hu hi.2
      exact ⟨by rw [h2]; exact hi.1, h1⟩
    · have hs := f.block b htb
      exact ⟨by rw [hs.owner]; exact hi.1, by rw [hs.queue]; exact hi.2⟩
  · exact (f.holds_other hu hi).1
  · obtain ⟨h1, h2⟩ := f.holds_other hu hi.1
    exact ⟨h1, hi.2.1, fun b hb => h2 b (hi.2.2 b hb)⟩
  · exact trivial

theorem Inv.frame (h : Inv s) (f : Touches s s' t tl tb) (hfail : s'.failed = false)
    (hlock : ∀ l, tl l → LockInv s' l) (hblock : ∀ b, tb b → BlockInv s' b) (hpc : PcInv s' t) :
    Inv s' where
  noFail := hfail
  lock l := (em (tl l)).elim (hlock l) (f.lockInv h)
  block b := (em (tb b)).elim (hblock b) (f.blockInv h)
  pc u := (em (u = t)).elim (fun e => e ▸ hpc) (f.pcInv h)

end Frame

/-! ## Fields after an update -/

section Fields

variable (s : St T L B) (t : T) (l : L) (b : B) (k : Kind)

@[simp] theorem got_impl : (s.got k t l).impl = s.impl := by cases k <;> rfl
@[simp] theorem got_block : (s.got k t l).block = s.block := by cases k <;> rfl
@[simp] theorem got_owner : (s.got k t l).owner = s.owner := by cases k <;> rfl
@[simp] theorem got_readQ : (s.got k t l).readQ = s.readQ := by cases k <;> rfl
@[simp] theorem got_writeQ : (s.got k t l).writeQ = s.writeQ := by cases k <;> rfl
@[simp] theorem got_failed : (s.got k t l).failed = s.failed := by cases k <;> rfl
@[simp] theorem got_pc : (s.got k t l).pc = Function.update s.pc t .idle := by cases k <;> rfl

@[simp] theorem gaveUp_impl : (s.gaveUp t l).impl = s.impl := by unfold St.gaveUp; split <;> rfl
@[simp] theorem gaveUp_block : (s.gaveUp t l).block = s.block := by unfold St.gaveUp; split <;> rfl
@[simp] theorem gaveUp_owner : (s.gaveUp t l).owner = s.owner := by unfold St.gaveUp; split <;> rfl
@[simp] theorem gaveUp_readQ : (s.gaveUp t l).readQ = s.readQ := by unfold St.gaveUp; split <;> rfl
@[simp] theorem gaveUp_writeQ : (s.gaveUp t l).writeQ = s.writeQ := by
  unfold St.gaveUp; split <;> rfl
@[simp] theorem gaveUp_failed : (s.gaveUp t l).failed = s.failed := by
  unfold St.gaveUp; split <;> rfl
@[simp] theorem gaveUp_pc : (s.gaveUp t l).pc = s.pc := by unfold St.gaveUp; split <;> rfl

theorem got_readers (l' : L) : (s.got k t l).readers l' =
    if l' = l ∧ k = .read then t :: s.readers l' else s.readers l' := by
  cases k <;> by_cases h : l' = l <;> simp [St.got, St.setPc, h]

theorem got_writers (l' : L) : (s.got k t l).writers l' =
    if l' = l ∧ k = .write then t :: s.writers l' else s.writers l' := by
  cases k <;> by_cases h : l' = l <;> simp [St.got, St.setPc, h]

theorem gaveUp_readers (l' : L) : (s.gaveUp t l).readers l' =
    if l' = l ∧ t ∉ s.writers l then (s.readers l').erase t else s.readers l' := by
  unfold St.gaveUp
  by_cases h : l' = l <;> split <;> simp_all

theorem gaveUp_writers (l' : L) : (s.gaveUp t l).writers l' =
    if l' = l ∧ t ∈ s.writers l then (s.writers l').erase t else s.writers l' := by
  unfold St.gaveUp
  by_cases h : l' = l <;> split <;> simp_all

end Fields

/-- A successful call keeps the holds of the others. -/
theorem Holds.got {s : St T L B} {u : T} {l : L} (h : Holds s u l) (k : Kind) (t : T) (l' : L) :
    Holds (s.got k t l') u l := by
  unfold Holds at h ⊢
  rw [got_readers, got_writers]
  split <;> split <;> simp_all <;> tauto

/-- Giving up keeps the holds of the others. -/
theorem Holds.gaveUp {s : St T L B} {u t : T} {l : L} (h : Holds s u l) (hu : u ≠ t) (l' : L) :
    Holds (s.gaveUp t l') u l := by
  unfold Holds at h ⊢
  rw [gaveUp_readers, gaveUp_writers]
  split <;> split <;> simp_all [List.mem_erase_of_ne]

/-! ## Steps of one thread -/

section Steps

variable {s : St T L B} {t : T}

/-- A step that only moves the thread. -/
theorem Inv.move (h : Inv s) (hw : ∀ k l o b, s.pc t ≠ .wait k l o b) {p : Pc L B}
    (hp : PcInv (s.setPc t p) t) : Inv (s.setPc t p) := by
  refine h.frame (show Touches s _ t (fun _ => False) (fun _ => False) from ?_) h.noFail ?_ ?_ hp
  · refine ⟨?_, ?_, ?_, ?_, ?_, ?_, ?_, ?_⟩
    · intro u hu; simp [St.setPc, hu]
    · intro _ _; exact ⟨rfl, rfl, rfl⟩
    · intro _ _; exact ⟨rfl, rfl, rfl, rfl⟩
    · intro _ hf; exact hf.elim
    · intro k l o b e; exact hw k l o b e
    · intro _ _ hf; exact hf.elim
    · intro _ _ hf; exact hf.elim
    · intro _ _ _ hf; exact hf.elim
  · intro _ hf; exact hf.elim
  · intro _ hf; exact hf.elim

/-- Steps on the word of one lock and the holds of `t` in it; no block is touched. -/
theorem Inv.onWord (h : Inv s) {s' : St T L B} {l : L} (hw : ∀ k l o b, s.pc t ≠ .wait k l o b)
    (hnb : ∀ b, s.impl l ≠ .block b) (hpc : ∀ u, u ≠ t → s'.pc u = s.pc u)
    (himpl : ∀ l', l' ≠ l → s'.impl l' = s.impl l')
    (hr : ∀ l', l' ≠ l → s'.readers l' = s.readers l')
    (hwr : ∀ l', l' ≠ l → s'.writers l' = s.writers l')
    (hblock : s'.block = s.block) (howner : s'.owner = s.owner) (hrq : s'.readQ = s.readQ)
    (hwq : s'.writeQ = s.writeQ) (hfail : s'.failed = false)
    (hholds : ∀ u, u ≠ t → Holds s u l → Holds s' u l) (hlock : LockInv s' l)
    (hself : PcInv s' t) : Inv s' := by
  refine h.frame (show Touches s _ t (· = l) (fun _ => False) from ?_) hfail ?_ ?_ hself
  · refine ⟨hpc, fun l' hl => ⟨himpl l' hl, hr l' hl, hwr l' hl⟩, ?_, ?_, ?_, ?_, ?_, ?_⟩
    · intro b _; exact ⟨by rw [hblock], by rw [howner], by rw [hrq], by rw [hwq]⟩
    · intro _ hf; exact hf.elim
    · intro k l o b e; exact hw k l o b e
    · rintro l' b rfl _ hb; exact absurd hb (hnb b)
    · rintro l' u rfl hu hh
      exact ⟨hholds u hu hh, fun b hb => absurd hb (hnb b)⟩
    · intro _ _ _ hf; exact hf.elim
  · rintro l' rfl; exact hlock
  · intro _ hf; exact hf.elim

/-- Steps on one block that `t` has or takes from the free list. -/
theorem Inv.onPrivate (h : Inv s) {s' : St T L B} {b : B} (hw : ∀ k l o b, s.pc t ≠ .wait k l o b)
    (hown : s.owner b = .thread t ∨ s.owner b = .free)
    (hpc : ∀ u, u ≠ t → s'.pc u = s.pc u) (himpl : s'.impl = s.impl)
    (hr : s'.readers = s.readers) (hwr : s'.writers = s.writers)
    (hblock : ∀ b', b' ≠ b → s'.block b' = s.block b')
    (howner : ∀ b', b' ≠ b → s'.owner b' = s.owner b') (hrq : s'.readQ = s.readQ)
    (hwq : s'.writeQ = s.writeQ) (hfail : s'.failed = false)
    (hown' : s'.owner b = .thread t ∨ s'.owner b = .free ∧ s'.block b = .zero)
    (hcount : (s'.block b).waitingReaders = 0 ∧ (s'.block b).waitingWriters = 0)
    (hself : PcInv s' t) : Inv s' := by
  have hd : ∀ l, s.owner b ≠ .lock l := by
    intro l e
    rcases hown with e' | e' <;> rw [e'] at e <;> cases e
  obtain ⟨hq1, hq2⟩ := (h.block b).detached hd
  have hqe : ∀ k, queue s k b = ∅ := by intro k; cases k <;> assumption
  refine h.frame (show Touches s _ t (fun _ => False) (· = b) from ?_) hfail ?_ ?_ hself
  · refine ⟨hpc, ?_, ?_, ?_, ?_, ?_, ?_, ?_⟩
    · intro l _; exact ⟨by rw [himpl], by rw [hr], by rw [hwr]⟩
    · intro b' hb; exact ⟨hblock b' hb, howner b' hb, by rw [hrq], by rw [hwq]⟩
    · rintro b' rfl; exact .inr hown
    · intro k l o b' e; exact absurd e (hw k l o b')
    · intro _ _ hf; exact hf.elim
    · intro _ _ hf; exact hf.elim
    · rintro k b' u rfl _ hu
      rw [hqe] at hu
      simp at hu
  · intro _ hf; exact hf.elim
  · rintro b' rfl
    refine ⟨?_, by rw [hrq, hq1, hcount.1]; rfl, by rw [hwq, hq2, hcount.2]; rfl, ?_, ?_, ?_⟩
    · intro l e
      rcases hown' with e' | ⟨e', -⟩ <;> rw [e'] at e <;> cases e
    · intro _; rw [hrq, hwq]; exact ⟨hq1, hq2⟩
    · intro e
      rcases hown' with e' | ⟨-, e'⟩
      · rw [e'] at e; cases e
      · exact e'
    · intro k u hu
      have hq : queue s' k b' = queue s k b' := by cases k <;> simp only [queue, hrq, hwq]
      rw [hq, hqe] at hu
      simp at hu

/-- A critical section on the block `b` of the lock `l` that leaves it attached. -/
theorem Inv.onAttached (h : Inv s) {s' : St T L B} {l : L} {b : B} (hb : s.impl l = .block b)
    (hw : ∀ k l' o b', s.pc t = .wait k l' o b' → b' = b)
    (hpc : ∀ u, u ≠ t → s'.pc u = s.pc u) (himpl : s'.impl = s.impl) (howner : s'.owner = s.owner)
    (hr : ∀ l', l' ≠ l → s'.readers l' = s.readers l')
    (hwr : ∀ l', l' ≠ l → s'.writers l' = s.writers l')
    (hblock : ∀ b', b' ≠ b → s'.block b' = s.block b')
    (hq : ∀ k b', b' ≠ b → queue s' k b' = queue s k b') (hfail : s'.failed = false)
    (hholds : ∀ u, u ≠ t → Holds s u l → Holds s' u l)
    (hqb : ∀ k u, u ≠ t → (u ∈ queue s' k b ↔ u ∈ queue s k b))
    (hqt : ∀ k, t ∈ queue s' k b → ∃ l' o, s'.pc t = .wait k l' o b)
    (hcount : Counted s' l (s'.block b).readerCount (s'.block b).writerCount)
    (hsome : s'.readers l ≠ [] ∨ s'.writers l ≠ [] ∨ (s'.readQ b).Nonempty ∨ (s'.writeQ b).Nonempty)
    (hwaitR : (s'.block b).waitingReaders = (s'.readQ b).card)
    (hwaitW : (s'.block b).waitingWriters = (s'.writeQ b).card) (hself : PcInv s' t) : Inv s' := by
  have hown : s.owner b = .lock l := by
    have := h.lock l
    simp only [LockInv, hb] at this
    exact this.1
  refine h.frame (show Touches s _ t (· = l) (· = b) from ?_) hfail ?_ ?_ hself
  · refine ⟨hpc, ?_, ?_, ?_, ?_, ?_, ?_, ?_⟩
    · intro l' hl; exact ⟨by rw [himpl], hr l' hl, hwr l' hl⟩
    · intro b' hb'; exact ⟨hblock b' hb', by rw [howner], hq .read b' hb', hq .write b' hb'⟩
    · rintro b' rfl; exact .inl ⟨l, rfl, hown⟩
    · exact hw
    · intro l' b' _ _ e; rw [himpl]; exact e
    · rintro l' u rfl hu hh; exact ⟨hholds u hu hh, fun b' e => by rw [himpl]; exact e⟩
    · rintro k b' u rfl hu hm; exact ⟨(hqb k u hu).mpr hm, by rw [howner]⟩
  · rintro l' rfl
    simp only [LockInv, himpl, hb]
    exact ⟨by rw [howner]; exact hown, hcount, hsome⟩
  · rintro b' rfl
    refine ⟨?_, hwaitR, hwaitW, ?_, ?_, ?_⟩
    · intro l' e
      rw [howner] at e
      rw [himpl]
      exact (h.block b').attached l' e
    · intro hd
      exact absurd (by rw [howner]; exact hown) (hd l)
    · intro e
      rw [howner, hown] at e
      cases e
    · intro k u hu
      by_cases hut : u = t
      · subst hut; exact hqt k hu
      · obtain ⟨l', o, e⟩ := (h.block b').waits k u ((hqb k u hut).mp hu)
        exact ⟨l', o, by rw [hpc u hut]; exact e⟩

end Steps

/-- Everything a turn can do, for either kind of caller. -/
theorem turn_cases (k : Kind) (timeout : Int) (expired : Bool) (p : LockBlock) :
    (turn k timeout expired p = (.acquired, match k with
        | .read => { p with readerCount := p.readerCount + 1 }
        | .write => { p with writerCount := 1 }) ∧ p.writerCount = 0 ∧
      (k = .write → p.readerCount = 0)) ∨
    (turn k timeout expired p = (.refused, p) ∧
      (p.readerCount ≠ 0 ∨ p.writerCount ≠ 0 ∨ p.waitingWriters ≠ 0)) ∨
    turn k timeout expired p = (.waits, match k with
      | .read => { p with waitingReaders := p.waitingReaders + 1 }
      | .write => { p with waitingWriters := p.waitingWriters + 1 }) := by
  cases k with
  | read =>
    rcases readTurn_cases timeout expired p with ⟨e, h1, h2⟩ | ⟨e, h⟩ | ⟨e, -⟩
    · exact .inl ⟨e, h2, fun hk => by cases hk⟩
    · exact .inr (.inl ⟨e, by omega⟩)
    · exact .inr (.inr e)
  | write =>
    rcases writeTurn_cases timeout expired p with ⟨e, h1, h2⟩ | ⟨e, h⟩ | ⟨e, -⟩
    · exact .inl ⟨e, h2, fun _ => h1⟩
    · exact .inr (.inl ⟨e, by omega⟩)
    · exact .inr (.inr e)

/-- The state a turn starts from: `s`, or `s` after `t` left its wait on `b`. -/
structure Entered (s s₁ : St T L B) (t : T) (b : B) (p : LockBlock) : Prop where
  pc : s₁.pc = s.pc
  impl : s₁.impl = s.impl
  owner : s₁.owner = s.owner
  readers : s₁.readers = s.readers
  writers : s₁.writers = s.writers
  block : s₁.block = s.block
  failed : s₁.failed = s.failed
  other : ∀ k b', b' ≠ b → queue s₁ k b' = queue s k b'
  stay : ∀ k u, u ≠ t → (u ∈ queue s₁ k b ↔ u ∈ queue s k b)
  out : ∀ k, t ∉ queue s₁ k b
  readerCount : p.readerCount = (s.block b).readerCount
  writerCount : p.writerCount = (s.block b).writerCount
  waitingReaders : p.waitingReaders = (s₁.readQ b).card
  waitingWriters : p.waitingWriters = (s₁.writeQ b).card

theorem Inv.afterTurn {s s₁ : St T L B} {t : T} (h : Inv s) {k : Kind} {l : L} {b : B}
    {p : LockBlock} (hb : s.impl l = .block b) (he : Entered s s₁ t b p)
    (hw : ∀ k l' o b', s.pc t = .wait k l' o b' → b' = b) (timeout : Int) (expired : Bool) :
    Inv (afterTurn s₁ k t l timeout b p (turn k timeout expired p)) := by
  have hlock := h.lock l
  simp only [LockInv, hb] at hlock
  obtain ⟨hown, hcount, hsome⟩ := hlock
  obtain ⟨e1, e2, e3, e4, e5, e6, e7, hother, hstay, hout, hrc, hwc, hwr, hww⟩ := he
  rcases turn_cases k timeout expired p with ⟨e, hw0, hr0⟩ | ⟨e, hne⟩ | e <;> rw [e] <;>
    simp only [Shared.afterTurn]
  · have hnow : s.writers l = [] := by
      have := hcount.writers
      exact List.length_eq_zero_iff.mp (by omega)
    have hrd := hcount.readers
    have hcheck : turnCheck k p = true := by
      cases k
      · simp [turnCheck, hw0]
      · simp [turnCheck, hw0, hr0 rfl]
    refine h.onAttached (t := t) hb hw ?_ (by simp [St.setBlock, St.check, e2])
      (by simp [St.setBlock, St.check, e3]) ?_ ?_ ?_ ?_ ?_ ?_ ?_ ?_ ?_ ?_ ?_ ?_ ?_
    · intro u hu; simp [St.setBlock, St.check, e1, hu]
    · intro l' hl'; rw [got_readers]; simp [St.setBlock, St.check, e4, hl']
    · intro l' hl'; rw [got_writers]; simp [St.setBlock, St.check, e5, hl']
    · intro b' hb'; simp [St.setBlock, St.check, e6, hb']
    · intro k' b' hb'
      rw [← hother k' b' hb']
      cases k' <;> simp [queue, St.setBlock, St.check]
    · simp [St.setBlock, St.check, hcheck, e7, h.noFail]
    · intro u hu hh
      apply Holds.got
      unfold Holds at hh ⊢
      simpa [St.setBlock, St.check, e4, e5] using hh
    · intro k' u hu
      rw [← hstay k' u hu]
      cases k' <;> simp [queue, St.setBlock, St.check]
    · intro k' hm
      refine absurd ?_ (hout k')
      cases k' <;> simpa [queue, St.setBlock, St.check] using hm
    · cases k
      · refine ⟨?_, ?_, ?_⟩
        · rw [got_readers]; simp [St.setBlock, St.check, e4]; omega
        · rw [got_writers]; simp [St.setBlock, St.check, e5, hnow, hw0]
        · rw [got_writers]; simp [St.setBlock, St.check, e5, hnow]
      · have hnor : s.readers l = [] := List.length_eq_zero_iff.mp (by have := hr0 rfl; omega)
        refine ⟨?_, ?_, ?_⟩
        · rw [got_readers]; simp [St.setBlock, St.check, e4, hnor, hr0 rfl]
        · rw [got_writers]; simp [St.setBlock, St.check, e5, hnow]
        · rw [got_writers, got_readers]; simp [St.setBlock, St.check, e4, e5, hnow, hnor]
    · cases k
      · left; rw [got_readers]; simp [St.setBlock, St.check]
      · right; left; rw [got_writers]; simp [St.setBlock, St.check]
    · cases k <;> simp [St.setBlock, St.check, hwr]
    · cases k <;> simp [St.setBlock, St.check, hww]
    · simp [PcInv]
  · refine h.onAttached (t := t) hb hw ?_ (by simp [St.setBlock, St.setPc, e2])
      (by simp [St.setBlock, St.setPc, e3]) ?_ ?_ ?_ ?_ ?_ ?_ ?_ ?_ ?_ ?_ ?_ ?_ ?_
    · intro u hu; simp [St.setBlock, St.setPc, e1, hu]
    · intro l' hl'; simp [St.setBlock, St.setPc, e4]
    · intro l' hl'; simp [St.setBlock, St.setPc, e5]
    · intro b' hb'; simp [St.setBlock, St.setPc, e6, hb']
    · intro k' b' hb'
      rw [← hother k' b' hb']
      cases k' <;> rfl
    · simp [St.setBlock, St.setPc, e7, h.noFail]
    · intro u hu hh
      unfold Holds at hh ⊢
      simpa [St.setBlock, St.setPc, e4, e5] using hh
    · intro k' u hu
      rw [← hstay k' u hu]
      cases k' <;> rfl
    · intro k' hm
      refine absurd ?_ (hout k')
      cases k' <;> exact hm
    · obtain ⟨h1, h2, h3⟩ := hcount
      refine ⟨?_, ?_, ?_⟩ <;> simp only [St.setBlock, St.setPc, Function.update_self, e4, e5]
      · rw [hrc]; exact h1
      · rw [hwc]; exact h2
      · exact h3
    · simp only [St.setBlock, St.setPc, e4, e5]
      have h1 := hcount.readers
      have h2 := hcount.writers
      rcases hne with hne | hne | hne
      · left
        intro e0
        rw [e0] at h1
        simp at h1
        omega
      · right; left
        intro e0
        rw [e0] at h2
        simp at h2
        omega
      · right; right; right
        rw [← Finset.card_pos]
        omega
    · simp [St.setBlock, St.setPc, hwr]
    · simp [St.setBlock, St.setPc, hww]
    · simp [PcInv, St.setPc]
  · refine h.onAttached (t := t) hb hw ?_ ?_ ?_ ?_ ?_ ?_ ?_ ?_ ?_ ?_ ?_ ?_ ?_ ?_ ?_ ?_
    · intro u hu; cases k <;> simp [St.enqueue, St.setBlock, St.setPc, e1, hu]
    · cases k <;> simp [St.enqueue, St.setBlock, St.setPc, e2]
    · cases k <;> simp [St.enqueue, St.setBlock, St.setPc, e3]
    · intro l' hl'; cases k <;> simp [St.enqueue, St.setBlock, St.setPc, e4]
    · intro l' hl'; cases k <;> simp [St.enqueue, St.setBlock, St.setPc, e5]
    · intro b' hb'; cases k <;> simp [St.enqueue, St.setBlock, St.setPc, e6, hb']
    · intro k' b' hb'
      rw [← hother k' b' hb']
      cases k <;> cases k' <;> simp [queue, St.enqueue, St.setBlock, St.setPc, hb']
    · cases k <;> simp [St.enqueue, St.setBlock, St.setPc, e7, h.noFail]
    · intro u hu hh
      unfold Holds at hh ⊢
      cases k <;> simpa [St.enqueue, St.setBlock, St.setPc, e4, e5] using hh
    · intro k' u hu
      rw [← hstay k' u hu]
      cases k <;> cases k' <;> simp [queue, St.enqueue, St.setBlock, St.setPc, hu]
    · intro k' hm
      have hk : k' = k := by
        by_contra hk
        refine absurd ?_ (hout k')
        cases k <;> cases k' <;> simp_all [queue, St.enqueue, St.setBlock, St.setPc]
      subst hk
      exact ⟨l, timeout, by simp [St.setPc]⟩
    · obtain ⟨h1, h2, h3⟩ := hcount
      cases k <;> refine ⟨?_, ?_, ?_⟩ <;>
        simp only [St.enqueue, St.setBlock, St.setPc, Function.update_self, e4, e5]
      all_goals first
        | (rw [hrc]; exact h1)
        | (rw [hwc]; exact h2)
        | exact h3
    · cases k <;> simp [St.enqueue, St.setBlock, St.setPc, Finset.insert_nonempty]
    · have := hout .read
      cases k <;> simp_all [queue, St.enqueue, St.setBlock, St.setPc]
    · have := hout .write
      cases k <;> simp_all [queue, St.enqueue, St.setBlock, St.setPc]
    · cases k <;> simp [PcInv, queue, St.enqueue, St.setBlock, St.setPc, e3, hown]

end Libpdk.Thread.Shared

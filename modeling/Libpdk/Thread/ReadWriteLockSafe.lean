import Libpdk.Thread.ReadWriteLockInv

/-!
# Every step of the non-recursive read-write lock keeps the invariant

One lemma for each kind of step, from the frame lemmas of the invariant, then
the step lemma (`Inv.go`, `Inv.call`) and what it gives for every reachable
state (`shared_lock_sound`): a writer excludes everybody else, the counts are
the numbers of holds, no assertion fails, a block goes back to the free list
only when nobody holds or waits on it, and a lock nobody holds or waits for is
null.
-/
set_option linter.unusedSectionVars false

namespace Libpdk.Thread.Shared

open Libpdk.Thread

variable {T L B : Type} [DecidableEq T] [DecidableEq L] [DecidableEq B]

/-! ## One lemma for each kind of step -/

section StepLemmas

variable {s : St T L B} {t : T} {l : L}

theorem check_of (s : St T L B) {c : Bool} (hc : c = true) : s.check c = s := by
  subst hc
  simp [St.check]

/-- The compare-and-swaps that take a lock without a block. -/
inductive Takes : Kind → Impl B → Impl B → Prop
  | first : Takes .read .null (.read 0)
  | more (n : Nat) : Takes .read (.read n) (.read (n + 1))
  | write : Takes .write .null .write

theorem Inv.take (h : Inv s) {k : Kind} {d d' : Impl B} (hT : Takes k d d') (hd : s.impl l = d)
    (hw : ∀ k l o b, s.pc t ≠ .wait k l o b) : Inv ((s.setImpl l d').got k t l) := by
  have hlock := h.lock l
  simp only [LockInv, hd] at hlock
  refine h.onWord (t := t) (l := l) hw ?_ ?_ ?_ ?_ ?_ (by simp [St.setImpl]) (by simp [St.setImpl])
    (by simp [St.setImpl]) (by simp [St.setImpl]) (by simp [St.setImpl, h.noFail]) ?_ ?_ ?_
  · intro b hb
    rw [hd] at hb
    cases hT <;> cases hb
  · intro u hu; simp [St.setImpl, hu]
  · intro l' hl'; simp [St.setImpl, hl']
  · intro l' hl'; rw [got_readers]; simp [St.setImpl, hl']
  · intro l' hl'; rw [got_writers]; simp [St.setImpl, hl']
  · intro u _ hh
    exact Holds.got (s := s.setImpl l d') hh k t l
  · cases hT with
    | first =>
      have hr := Counted.no_readers hlock
      have hwr := Counted.no_writers hlock
      simp only [LockInv, got_impl, St.setImpl, Function.update_self]
      refine ⟨?_, ?_, ?_⟩ <;> simp [got_readers, got_writers, hr, hwr]
    | more n =>
      have hr := hlock.readers
      have hwr := Counted.no_writers hlock
      simp only [LockInv, got_impl, St.setImpl, Function.update_self]
      refine ⟨?_, ?_, ?_⟩ <;> simp [got_readers, got_writers, hwr]
      omega
    | write =>
      have hr := Counted.no_readers hlock
      have hwr := Counted.no_writers hlock
      simp only [LockInv, got_impl, St.setImpl, Function.update_self]
      refine ⟨?_, ?_, ?_⟩ <;> simp [got_readers, got_writers, hr, hwr]
  · simp [PcInv]

theorem Inv.casTake (h : Inv s) {k : Kind} {d d' : Impl B} (hT : Takes k d d') (timeout : Int)
    (hw : ∀ k l o b, s.pc t ≠ .wait k l o b) : Inv (casTake s k t l timeout d d') := by
  unfold Shared.casTake
  split
  · exact h.take hT ‹_› hw
  · exact h.move hw (by simp [PcInv, St.setPc])

/-- A block taken from the free list and filled for the word it is to replace. -/
theorem Inv.allocate (h : Inv s) {k : Kind} {timeout : Int} {d : Impl B} {p : LockBlock} {fresh : B}
    {s' : St T L B} (hp : Filled k d p) (hz : p.waitingReaders = 0 ∧ p.waitingWriters = 0)
    (hw : ∀ k l o b, s.pc t ≠ .wait k l o b)
    (hs : allocate s k t l timeout d p fresh = some s') : Inv s' := by
  unfold Shared.allocate at hs
  split at hs
  · rename_i hfree
    cases hs
    rw [check_of s (by simp [(h.block fresh).free hfree])]
    refine h.onPrivate (t := t) hw (.inr hfree) ?_ rfl rfl rfl ?_ ?_ rfl rfl h.noFail ?_ ?_ ?_
    · intro u hu; simp [St.setPc, St.setBlock, St.setOwner, hu]
    · intro b' hb'; simp [St.setPc, St.setBlock, St.setOwner, hb']
    · intro b' hb'; simp [St.setPc, St.setBlock, St.setOwner, hb']
    · left; simp [St.setPc, St.setBlock, St.setOwner]
    · simpa [St.setPc, St.setBlock] using hz
    · simpa [PcInv, St.setPc, St.setBlock, St.setOwner] using hp
  · cases hs

/-- The compare-and-swap that puts a block into the lock, and its failure. -/
theorem Inv.offer (h : Inv s) {k : Kind} {timeout : Int} {b : B} {d : Impl B}
    (hpc : s.pc t = .offer k l timeout b d) :
    Inv (if s.impl l = d then
        ((s.setImpl l (.block b)).setOwner b (.lock l)).setPc t (.loop k l timeout (.block b))
      else (s.setBlock b (offerFailed (s.block b) k)).setPc t (.giveBack k l timeout b (s.impl l))) := by
  have hw : ∀ k l o b, s.pc t ≠ .wait k l o b := by intro k l o b e; rw [hpc] at e; cases e
  have hi := h.pc t
  simp only [PcInv, hpc] at hi
  obtain ⟨hown, hfill⟩ := hi
  have hd : ∀ l, s.owner b ≠ .lock l := by intro l' e; rw [hown] at e; cases e
  obtain ⟨hq1, hq2⟩ := (h.block b).detached hd
  have hqe : ∀ k, queue s k b = ∅ := by intro k; cases k <;> assumption
  have hz1 := (h.block b).waitingReaders
  have hz2 := (h.block b).waitingWriters
  simp only [hq1, hq2, Finset.card_empty] at hz1 hz2
  split
  · rename_i himpl
    have hnb : ∀ b', s.impl l ≠ .block b' := by
      intro b' e
      rw [← himpl, e] at hfill
      exact hfill
    have hlock := h.lock l
    refine h.frame (show Touches s _ t (· = l) (· = b) from ?_) h.noFail ?_ ?_
      (by simp [PcInv, St.setPc])
    · refine ⟨?_, ?_, ?_, ?_, ?_, ?_, ?_, ?_⟩
      · intro u hu; simp [St.setPc, St.setImpl, St.setOwner, hu]
      · intro l' hl'; exact ⟨by simp [St.setPc, St.setImpl, St.setOwner, hl'], rfl, rfl⟩
      · intro b' hb'; exact ⟨rfl, by simp [St.setPc, St.setImpl, St.setOwner, hb'], rfl, rfl⟩
      · rintro b' rfl; exact .inr (.inl hown)
      · intro k' l' o b' e; exact absurd e (hw k' l' o b')
      · rintro l' b' rfl _ e; exact absurd e (hnb b')
      · rintro l' u rfl _ hh; exact ⟨hh, fun b' e => absurd e (hnb b')⟩
      · rintro k' b' u rfl _ hu; rw [hqe] at hu; simp at hu
    · rintro l' rfl
      have hc : Counted s l' (s.block b).readerCount (s.block b).writerCount ∧
          (s.readers l' ≠ [] ∨ s.writers l' ≠ []) := by
        unfold LockInv at hlock
        rw [himpl] at hlock
        unfold Filled at hfill
        split at hfill
        · obtain ⟨-, hf⟩ := hfill
          rw [hf]
          refine ⟨hlock, .inl fun e => ?_⟩
          have := hlock.readers
          rw [e] at this
          simp at this
          omega
        · rw [hfill]
          refine ⟨hlock, .inr fun e => ?_⟩
          have := hlock.writers
          rw [e] at this
          simp at this
        · exact hfill.elim
      obtain ⟨⟨h1, h2, h3⟩, h4⟩ := hc
      simp only [LockInv, St.setPc, St.setImpl, St.setOwner, Function.update_self]
      exact ⟨trivial, ⟨h1, h2, h3⟩, by rcases h4 with h4 | h4 <;> simp [h4]⟩
    · rintro b' rfl
      refine ⟨?_, (h.block b').waitingReaders, (h.block b').waitingWriters, fun _ => ⟨hq1, hq2⟩,
        ?_, ?_⟩
      · intro l' e
        simp only [St.setPc, St.setImpl, St.setOwner, Function.update_self, Owner.lock.injEq] at e
        subst e
        simp [St.setPc, St.setImpl, St.setOwner]
      · intro e
        simp [St.setPc, St.setImpl, St.setOwner] at e
      · intro k' u hu
        have : queue s k' b' = ∅ := hqe k'
        cases k' <;> simp_all [queue, St.setPc, St.setImpl, St.setOwner]
  · refine h.onPrivate (t := t) hw (.inl hown) ?_ rfl rfl rfl ?_ ?_ rfl rfl h.noFail ?_ ?_ ?_
    · intro u hu; simp [St.setPc, St.setBlock, hu]
    · intro b' hb'; simp [St.setPc, St.setBlock, hb']
    · intro b' _; rfl
    · left; simpa [St.setPc, St.setBlock] using hown
    · cases k <;> simp [St.setPc, St.setBlock, offerFailed, hz1, hz2]
    · simp only [PcInv, St.setPc, St.setBlock, Function.update_self]
      refine ⟨hown, ?_⟩
      unfold Filled at hfill
      split at hfill
      · obtain ⟨rfl, hf⟩ := hfill
        simp [hf, offerFailed, LockBlock.zero]
      · cases k <;> simp [hfill, offerFailed, LockBlock.zero]
      · exact hfill.elim

/-- The return of a block that the thread holds and that is all zero. -/
theorem Inv.release (h : Inv s) {b : B} {p : Pc L B} (hw : ∀ k l o b, s.pc t ≠ .wait k l o b)
    (hown : s.owner b = .thread t) (hzero : s.block b = .zero)
    (hp : PcInv (((s.setOwner b .free)).setPc t p) t) :
    Inv (((s.check (decide (s.block b = .zero))).setOwner b .free).setPc t p) := by
  rw [check_of s (by simp [hzero])]
  refine h.onPrivate (t := t) hw (.inl hown) ?_ rfl rfl rfl ?_ ?_ rfl rfl h.noFail ?_ ?_ hp
  · intro u hu; simp [St.setPc, St.setOwner, hu]
  · intro b' _; rfl
  · intro b' hb'; simp [St.setPc, St.setOwner, hb']
  · right; simpa [St.setPc, St.setOwner] using hzero
  · simp [St.setPc, St.setOwner, hzero, LockBlock.zero]

/-- A thread in no wait is in no queue. -/
theorem Inv.not_queued (h : Inv s) (hw : ∀ k l o b, s.pc t ≠ .wait k l o b) (k : Kind) (b : B) :
    t ∉ queue s k b := by
  intro hm
  obtain ⟨l, o, e⟩ := (h.block b).waits k t hm
  exact hw k l o b e

/-- The critical section of the loop body of `tryLockForRead` and `tryLockForWrite`. -/
theorem Inv.onBlock (h : Inv s) {k : Kind} {timeout : Int} {b : B} (expired : Bool)
    (hw : ∀ k l o b, s.pc t ≠ .wait k l o b) : Inv (onBlock s k t l timeout b expired) := by
  unfold Shared.onBlock
  split
  · exact h.move hw (by simp [PcInv, St.setPc])
  · rename_i himpl
    simp only [ne_eq, Decidable.not_not] at himpl
    refine h.afterTurn himpl ?_ (fun k' l' o b' e => absurd e (hw k' l' o b')) timeout expired
    exact ⟨rfl, rfl, rfl, rfl, rfl, rfl, rfl, fun _ _ _ => rfl, fun _ _ _ => Iff.rfl,
      fun k' => h.not_queued hw k' b, rfl, rfl, (h.block b).waitingReaders,
      (h.block b).waitingWriters⟩

/-- A thread that comes back from a wait has left the queue and its count. -/
theorem Inv.entered (h : Inv s) {k : Kind} {timeout : Int} {b : B}
    (hpc : s.pc t = .wait k l timeout b) : Entered s (s.dequeue k t b) t b (match k with
      | .read => (s.block b).readerBack
      | .write => (s.block b).writerBack) := by
  have hi := h.pc t
  simp only [PcInv, hpc] at hi
  obtain ⟨-, hm⟩ := hi
  have hout : ∀ k', k' ≠ k → t ∉ queue s k' b := by
    intro k' hk hm'
    obtain ⟨l', o, e⟩ := (h.block b).waits k' t hm'
    rw [hpc] at e
    cases e
    exact hk rfl
  have hr := (h.block b).waitingReaders
  have hwr := (h.block b).waitingWriters
  have hcard := Finset.card_erase_add_one hm
  cases k with
  | read =>
    have hno := hout .write (by decide)
    refine ⟨rfl, rfl, rfl, rfl, rfl, rfl, rfl, ?_, ?_, ?_, rfl, rfl, ?_, hwr⟩
    · intro k' b' hb'; cases k' <;> simp [queue, St.dequeue, hb']
    · intro k' u hu; cases k' <;> simp [queue, St.dequeue, hu]
    · intro k'
      cases k' with
      | read => simp [queue, St.dequeue]
      | write => exact hno
    · simp only [queue] at hcard
      simp only [LockBlock.readerBack, St.dequeue, Function.update_self]
      omega
  | write =>
    have hno := hout .read (by decide)
    refine ⟨rfl, rfl, rfl, rfl, rfl, rfl, rfl, ?_, ?_, ?_, rfl, rfl, hr, ?_⟩
    · intro k' b' hb'; cases k' <;> simp [queue, St.dequeue, hb']
    · intro k' u hu; cases k' <;> simp [queue, St.dequeue, hu]
    · intro k'
      cases k' with
      | read => exact hno
      | write => simp [queue, St.dequeue]
    · simp only [queue] at hcard
      simp only [LockBlock.writerBack, St.dequeue, Function.update_self]
      omega

theorem Inv.wake (h : Inv s) {k : Kind} {timeout : Int} {b : B} (expired : Bool)
    (hpc : s.pc t = .wait k l timeout b) : Inv (Shared.afterTurn (s.dequeue k t b) k t l timeout b
      (match k with
        | .read => (s.block b).readerBack
        | .write => (s.block b).writerBack)
      (turn k timeout expired (match k with
        | .read => (s.block b).readerBack
        | .write => (s.block b).writerBack))) := by
  have hi := h.pc t
  simp only [PcInv, hpc] at hi
  refine h.afterTurn ((h.block b).attached l hi.1) (h.entered hpc) ?_ timeout expired
  intro k' l' o b' e
  rw [hpc] at e
  cases e
  rfl

/-- The state in the middle of `unlock()` on a block: `t` has given up its
hold, and the counts of the block say so. -/
structure Released (s s' : St T L B) (t : T) (l : L) (b : B) : Prop where
  pc : s'.pc = s.pc
  impl : s'.impl = s.impl
  owner : s'.owner = s.owner
  readQ : s'.readQ = s.readQ
  writeQ : s'.writeQ = s.writeQ
  failed : s'.failed = s.failed
  readers : ∀ l', l' ≠ l → s'.readers l' = s.readers l'
  writers : ∀ l', l' ≠ l → s'.writers l' = s.writers l'
  block : ∀ b', b' ≠ b → s'.block b' = s.block b'
  holds : ∀ u, u ≠ t → Holds s u l → Holds s' u l
  counted : Counted s' l (s'.block b).readerCount (s'.block b).writerCount
  waitingReaders : (s'.block b).waitingReaders = (s.block b).waitingReaders
  waitingWriters : (s'.block b).waitingWriters = (s.block b).waitingWriters

theorem Released.stays {s' : St T L B} {b : B} (hr : Released s s' t l b) (h : Inv s)
    (hb : s.impl l = .block b) (hw : ∀ k l o b, s.pc t ≠ .wait k l o b)
    (hsome : s'.readers l ≠ [] ∨ s'.writers l ≠ [] ∨ (s'.readQ b).Nonempty ∨ (s'.writeQ b).Nonempty) :
    Inv (s'.setPc t .idle) := by
  obtain ⟨e1, e2, e3, e4, e5, e6, e7, e8, e9, hholds, hc, w1, w2⟩ := hr
  refine h.onAttached (t := t) hb (fun k l' o b' e => absurd e (hw k l' o b')) ?_ e2 e3 e7 e8 e9
    ?_ (e6.trans h.noFail) hholds ?_ ?_ ⟨hc.readers, hc.writers, hc.exclusive⟩ hsome ?_ ?_
    (by simp [PcInv, St.setPc])
  · intro u hu; simp [St.setPc, e1, hu]
  · intro k b' _; cases k <;> simp [queue, St.setPc, e4, e5]
  · intro k u _; cases k <;> simp [queue, St.setPc, e4, e5]
  · intro k hm
    refine absurd ?_ (h.not_queued hw k b)
    cases k <;> simpa [queue, St.setPc, e4, e5] using hm
  · simp only [St.setPc, w1, e4]; exact (h.block b).waitingReaders
  · simp only [St.setPc, w2, e5]; exact (h.block b).waitingWriters

/-- The last unlock: the lock is null again and the block is all zero. -/
theorem Released.detaches {s' : St T L B} {b : B} (hr : Released s s' t l b) (h : Inv s)
    (hb : s.impl l = .block b) (hw : ∀ k l o b, s.pc t ≠ .wait k l o b)
    (hz : s'.block b = .zero) :
    Inv (((s'.setImpl l .null).setOwner b (.thread t)).setPc t (.unlockFree l b)) := by
  obtain ⟨e1, e2, e3, e4, e5, e6, e7, e8, e9, hholds, hc, w1, w2⟩ := hr
  have hown : s.owner b = .lock l := by
    have := h.lock l
    simp only [LockInv, hb] at this
    exact this.1
  have hq1 : s.readQ b = ∅ := by
    have := (h.block b).waitingReaders
    rw [← w1, hz] at this
    exact Finset.card_eq_zero.mp (by simp only [LockBlock.zero] at this; omega)
  have hq2 : s.writeQ b = ∅ := by
    have := (h.block b).waitingWriters
    rw [← w2, hz] at this
    exact Finset.card_eq_zero.mp (by simp only [LockBlock.zero] at this; omega)
  have hqe : ∀ k, queue s k b = ∅ := by intro k; cases k <;> assumption
  rw [hz] at hc
  -- nobody else holds the lock, so nobody relies on its block
  have hnone : ∀ u, u ≠ t → ¬ Holds s u l := fun u hu hh => hc.free u (hholds u hu hh)
  refine h.frame (show Touches s _ t (· = l) (· = b) from ?_) (e6.trans h.noFail) ?_ ?_ ?_
  · refine ⟨?_, ?_, ?_, ?_, ?_, ?_, ?_, ?_⟩
    · intro u hu; simp [St.setPc, St.setImpl, St.setOwner, e1, hu]
    · intro l' hl'
      exact ⟨by simp [St.setPc, St.setImpl, St.setOwner, e2, hl'], e7 l' hl', e8 l' hl'⟩
    · intro b' hb'
      exact ⟨e9 b' hb', by simp [St.setPc, St.setImpl, St.setOwner, e3, hb'],
        by simp [St.setPc, St.setImpl, St.setOwner, e4],
        by simp [St.setPc, St.setImpl, St.setOwner, e5]⟩
    · rintro b' rfl; exact .inl ⟨l, rfl, hown⟩
    · intro k l' o b' e; exact absurd e (hw k l' o b')
    · rintro l' b' rfl hb' e
      rw [hb] at e
      cases e
      exact absurd rfl hb'
    · rintro l' u rfl hu hh; exact absurd hh (hnone u hu)
    · rintro k b' u rfl _ hu; rw [hqe] at hu; simp at hu
  · rintro l' rfl
    simp only [LockInv, St.setPc, St.setImpl, St.setOwner, Function.update_self]
    exact ⟨hc.readers, hc.writers, hc.exclusive⟩
  · rintro b' rfl
    have hqe' : ∀ k, queue s' k b' = ∅ := by
      intro k
      have := hqe k
      cases k <;> simpa [queue, e4, e5] using this
    refine ⟨?_, ?_, ?_, ?_, ?_, ?_⟩
    · intro l' e; simp [St.setPc, St.setImpl, St.setOwner] at e
    · simp [St.setPc, St.setImpl, St.setOwner, hz, e4, hq1, LockBlock.zero]
    · simp [St.setPc, St.setImpl, St.setOwner, hz, e5, hq2, LockBlock.zero]
    · intro _; exact ⟨hqe' .read, hqe' .write⟩
    · intro e; simp [St.setPc, St.setImpl, St.setOwner] at e
    · intro k u hu
      have hu' : u ∈ queue s' k b' := by cases k <;> exact hu
      rw [hqe'] at hu'
      simp at hu'
  · simp only [PcInv, St.setPc, St.setImpl, St.setOwner, Function.update_self]
    exact ⟨trivial, hz⟩

theorem Released.unlockRest {s' : St T L B} {b : B} (hr : Released s s' t l b) (h : Inv s)
    (hb : s.impl l = .block b) (hw : ∀ k l o b, s.pc t ≠ .wait k l o b)
    (hz : (s'.block b).readerCount = 0 ∧ (s'.block b).writerCount = 0) :
    Inv (unlockRest s' t l b) := by
  unfold Shared.unlockRest
  split
  · rename_i hwait
    refine hr.stays h hb hw ?_
    rw [hr.waitingReaders, hr.waitingWriters, (h.block b).waitingReaders,
      (h.block b).waitingWriters, ← hr.readQ, ← hr.writeQ] at hwait
    rcases hwait with hwait | hwait
    · exact .inr (.inr (.inl (Finset.card_pos.mp (by omega))))
    · exact .inr (.inr (.inr (Finset.card_pos.mp (by omega))))
  · rename_i hwait
    rw [check_of s' (by simp [hr.impl, hb])]
    refine hr.detaches h hb hw ?_
    rcases hp : s'.block b with ⟨r, w, wr, ww⟩
    simp only [hp, LockBlock.zero, LockBlock.mk.injEq] at hz hwait ⊢
    omega

theorem Inv.unlockBlock (h : Inv s) {b : B} (hb : s.impl l = .block b) (hh : Holds s t l)
    (hw : ∀ k l o b, s.pc t ≠ .wait k l o b) : Inv (unlockBlock s t l b) := by
  have hlock := h.lock l
  simp only [LockInv, hb] at hlock
  obtain ⟨hown, hc, -⟩ := hlock
  unfold Shared.unlockBlock
  simp only
  split
  · rename_i hwc
    have hwl := hc.writers
    have hne : s.writers l ≠ [] := by
      intro e
      rw [e] at hwl
      simp at hwl
      exact hwc hwl
    obtain ⟨h1, hnr⟩ : (s.writers l).length = 1 ∧ s.readers l = [] :=
      hc.exclusive.resolve_left hne
    have hmem : t ∈ s.writers l := by
      rcases hh with hh | hh
      · rw [hnr] at hh; simp at hh
      · exact hh
    have hempty : (s.writers l).erase t = [] := by
      apply List.length_eq_zero_iff.mp
      rw [List.length_erase_of_mem hmem, h1]
    have hrl := hc.readers
    rw [hnr] at hrl
    rw [check_of s (by simp at hrl ⊢; omega)]
    refine Released.unlockRest (s := s) ⟨?_, ?_, ?_, ?_, ?_, ?_, ?_, ?_, ?_, ?_, ?_, ?_, ?_⟩ h hb hw ?_
    any_goals simp [St.setBlock]
    · intro l' hl'; rw [gaveUp_readers]; simp [hl']
    · intro l' hl'; rw [gaveUp_writers]; simp [hl']
    · intro b' hb'; simp [hb']
    · intro u hu hhu; exact hhu.gaveUp hu l
    · refine ⟨?_, ?_, ?_⟩ <;> simp [gaveUp_readers, gaveUp_writers, hmem, hempty, hnr]
      simpa using hrl
    · simpa using hrl
  · rename_i hwc
    simp only [ne_eq, Decidable.not_not] at hwc
    have hnw : s.writers l = [] := Counted.no_writers (hwc ▸ hc)
    have hmem : t ∈ s.readers l := by
      rcases hh with hh | hh
      · exact hh
      · rw [hnw] at hh; simp at hh
    have hrl := hc.readers
    have hpos := List.length_pos_of_mem hmem
    rw [check_of s (by simp; omega)]
    have hrel : Released s ((s.gaveUp t l).setBlock b
        { s.block b with readerCount := (s.block b).readerCount - 1 }) t l b := by
      refine ⟨?_, ?_, ?_, ?_, ?_, ?_, ?_, ?_, ?_, ?_, ?_, ?_, ?_⟩
      any_goals simp [St.setBlock]
      · intro l' hl'; rw [gaveUp_readers]; simp [hl']
      · intro l' hl'; rw [gaveUp_writers]; simp [hl']
      · intro b' hb'; simp [hb']
      · intro u hu hhu; exact hhu.gaveUp hu l
      · refine ⟨?_, ?_, ?_⟩
        · rw [gaveUp_readers]
          simp [hnw, List.length_erase_of_mem hmem]
          omega
        · rw [gaveUp_writers]
          simp [hnw, hwc]
        · rw [gaveUp_writers]
          simp [hnw]
    split
    · refine hrel.stays h hb hw (.inl ?_)
      have hrc := hrel.counted.readers
      intro e
      rw [e] at hrc
      simp [St.setBlock] at hrc
      omega
    · refine hrel.unlockRest h hb hw ?_
      simp only [St.setBlock, Function.update_self]
      omega

/-- The compare-and-swaps that give up a hold of a lock without a block. -/
inductive Drops : Impl B → Impl B → Prop
  | last : Drops (.read 0) .null
  | write : Drops .write .null
  | one (n : Nat) : Drops (.read (n + 1)) (.read n)

theorem Inv.drop (h : Inv s) {d d' : Impl B} (hD : Drops d d') (hd : s.impl l = d)
    (hh : Holds s t l) (hw : ∀ k l o b, s.pc t ≠ .wait k l o b) :
    Inv (((s.gaveUp t l).setImpl l d').setPc t .idle) := by
  have hlock := h.lock l
  simp only [LockInv, hd] at hlock
  refine h.onWord (t := t) (l := l) hw ?_ ?_ ?_ ?_ ?_ ?_ ?_ ?_ ?_ ?_ ?_ ?_ ?_
  any_goals simp [St.setImpl, St.setPc, h.noFail]
  · intro b hb
    rw [hd] at hb
    cases hD <;> cases hb
  · intro u hu; simp [hu]
  · intro l' hl'; simp [hl']
  · intro l' hl'; rw [gaveUp_readers]; simp [hl']
  · intro l' hl'; rw [gaveUp_writers]; simp [hl']
  · intro u hu hhu; exact hhu.gaveUp hu l
  · cases hD with
    | last =>
      have hnw := Counted.no_writers hlock
      have hrl := hlock.readers
      have hmem : t ∈ s.readers l := hh.resolve_right (by simp [hnw])
      simp only [LockInv, Function.update_self]
      refine ⟨?_, ?_, ?_⟩ <;> simp [gaveUp_readers, gaveUp_writers, hnw,
        List.length_erase_of_mem hmem]
      simp at hrl
      omega
    | write =>
      have hnr := Counted.no_readers hlock
      have hwl := hlock.writers
      have hmem : t ∈ s.writers l := hh.resolve_left (by simp [hnr])
      have hempty : (s.writers l).erase t = [] := by
        apply List.length_eq_zero_iff.mp
        rw [List.length_erase_of_mem hmem]
        omega
      simp only [LockInv, Function.update_self]
      refine ⟨?_, ?_, ?_⟩ <;> simp [gaveUp_readers, gaveUp_writers, hnr, hmem, hempty]
    | one n =>
      have hnw := Counted.no_writers hlock
      have hrl := hlock.readers
      have hmem : t ∈ s.readers l := hh.resolve_right (by simp [hnw])
      simp only [LockInv, Function.update_self]
      refine ⟨?_, ?_, ?_⟩ <;> simp [gaveUp_readers, gaveUp_writers, hnw,
        List.length_erase_of_mem hmem]
      omega
  · simp [PcInv]

/-- `unlock()` keeps looking: the pointer it read is not null, and a block it
read stays, since the thread holds the lock. -/
theorem Inv.look (h : Inv s) (hh : Holds s t l) (hw : ∀ k l o b, s.pc t ≠ .wait k l o b) :
    Inv (s.setPc t (.unlockLoop l (s.impl l))) := by
  refine h.move hw ?_
  simp only [PcInv, St.setPc, Function.update_self]
  exact ⟨hh, (h.lock l).not_null hh, fun _ e => e⟩

theorem Inv.unlockLoop (h : Inv s) {d : Impl B} (hpc : s.pc t = .unlockLoop l d) :
    Inv (unlockLoop s t l d) := by
  have hw : ∀ k l o b, s.pc t ≠ .wait k l o b := by intro k l o b e; rw [hpc] at e; cases e
  have hi := h.pc t
  simp only [PcInv, hpc] at hi
  obtain ⟨hh, hnn, hblock⟩ := hi
  unfold Shared.unlockLoop
  split
  · exact absurd rfl hnn
  · split
    · exact h.drop .last ‹_› hh hw
    · exact h.look hh hw
  · split
    · exact h.drop .write ‹_› hh hw
    · exact h.look hh hw
  · rename_i n
    split
    · exact h.drop (.one n) ‹_› hh hw
    · exact h.look hh hw
  · exact h.unlockBlock (hblock _ rfl) hh hw

theorem Inv.readLoop (h : Inv s) {timeout : Int} {expired : Bool} {fresh : B} {d : Impl B}
    {s' : St T L B} (hw : ∀ k l o b, s.pc t ≠ .wait k l o b)
    (hs : readLoop s t l timeout expired fresh d = some s') : Inv s' := by
  unfold Shared.readLoop at hs
  split at hs
  · cases hs; exact h.casTake .first timeout hw
  · rename_i n
    rw [check_of s (by simp)] at hs
    cases hs
    exact h.casTake (.more n) timeout hw
  · split at hs
    · cases hs; exact h.move hw (by simp [PcInv, St.setPc])
    · exact h.allocate (d := .write) rfl ⟨rfl, rfl⟩ hw hs
  · cases hs; exact h.onBlock expired hw

theorem Inv.writeLoop (h : Inv s) {timeout : Int} {expired : Bool} {fresh : B} {d : Impl B}
    {s' : St T L B} (hw : ∀ k l o b, s.pc t ≠ .wait k l o b)
    (hs : writeLoop s t l timeout expired fresh d = some s') : Inv s' := by
  unfold Shared.writeLoop at hs
  split at hs
  · cases hs; exact h.casTake .write timeout hw
  · rename_i n
    split at hs
    · cases hs; exact h.move hw (by simp [PcInv, St.setPc])
    · exact h.allocate (d := .read n) ⟨rfl, rfl⟩ ⟨rfl, rfl⟩ hw hs
  · split at hs
    · cases hs; exact h.move hw (by simp [PcInv, St.setPc])
    · exact h.allocate (d := .write) rfl ⟨rfl, rfl⟩ hw hs
  · cases hs; exact h.onBlock expired hw

theorem Inv.go (h : Inv s) {expired : Bool} {fresh : B} {s' : St T L B}
    (hs : go s t expired fresh = some s') : Inv s' := by
  have hi := h.pc t
  unfold Shared.go at hs
  cases hpc : s.pc t with
  | wait k l timeout b =>
    rw [hpc] at hs
    cases k <;> cases hs
    · exact h.wake (k := .read) expired hpc
    · exact h.wake (k := .write) expired hpc
  | idle => rw [hpc] at hs; cases hs
  | fast l =>
    have hw : ∀ k l o b, s.pc t ≠ .wait k l o b := by simp [hpc]
    rw [hpc] at hs
    cases hs
    split
    · exact h.take .first ‹_› hw
    · exact h.move hw (by simp [PcInv, St.setPc])
  | enter k l timeout =>
    have hw : ∀ k l o b, s.pc t ≠ .wait k l o b := by simp [hpc]
    rw [hpc] at hs
    cases k <;> cases hs
    · exact h.casTake .first timeout hw
    · exact h.casTake .write timeout hw
  | loop k l timeout d =>
    have hw : ∀ k l o b, s.pc t ≠ .wait k l o b := by simp [hpc]
    rw [hpc] at hs
    cases k
    · exact h.readLoop hw hs
    · exact h.writeLoop hw hs
  | offer k l timeout b d =>
    rw [hpc] at hs
    cases hs
    exact h.offer hpc
  | giveBack k l timeout b d =>
    have hw : ∀ k l o b, s.pc t ≠ .wait k l o b := by simp [hpc]
    rw [hpc] at hs
    cases hs
    simp only [PcInv, hpc] at hi
    exact h.release hw hi.1 hi.2 (by simp [PcInv, St.setPc])
  | reload k l timeout =>
    have hw : ∀ k l o b, s.pc t ≠ .wait k l o b := by simp [hpc]
    rw [hpc] at hs
    cases hs
    exact h.move hw (by simp [PcInv, St.setPc])
  | unlockLoad l =>
    have hw : ∀ k l o b, s.pc t ≠ .wait k l o b := by simp [hpc]
    rw [hpc] at hs
    cases hs
    simp only [PcInv, hpc] at hi
    exact h.look hi hw
  | unlockLoop l d =>
    rw [hpc] at hs
    cases hs
    exact h.unlockLoop hpc
  | unlockFree l b =>
    have hw : ∀ k l o b, s.pc t ≠ .wait k l o b := by simp [hpc]
    rw [hpc] at hs
    cases hs
    simp only [PcInv, hpc] at hi
    exact h.release hw hi.1 hi.2 (by simp [PcInv, St.setPc])

theorem Inv.call (h : Inv s) {c : Call L} {s' : St T L B} (hs : call s t c = some s') : Inv s' := by
  unfold Shared.call at hs
  split at hs
  · rename_i hpc
    have hw : ∀ k l o b, s.pc t ≠ .wait k l o b := by simp [hpc]
    cases c with
    | unlock l =>
      simp only at hs
      split at hs
      · rename_i hh
        cases hs
        exact h.move hw (by simp only [PcInv, St.setPc, Function.update_self]; exact hh)
      · cases hs
    | _ => cases hs; exact h.move hw (by simp [PcInv, St.setPc])
  · cases hs

end StepLemmas

theorem inv_init : Inv (init : St T L B) where
  noFail := rfl
  lock _ := ⟨rfl, rfl, .inl rfl⟩
  block b := by
    refine ⟨fun l e => ?_, rfl, rfl, fun _ => ⟨rfl, rfl⟩, fun _ => rfl, fun k u hu => ?_⟩
    · cases e
    · cases k <;> simp [queue, init] at hu
  pc _ := trivial

theorem inv_inductive : (lts T L B).Inductive Inv where
  init := by rintro s rfl; exact inv_init
  step s l s' h hs := by
    cases l with
    | call t c => exact h.call hs
    | go t expired fresh => exact h.go hs

/-! ## Results -/

/-- Thread `t` is in a wait for `l`. -/
def WaitsFor (s : St T L B) (t : T) (l : L) : Prop :=
  ∃ k timeout b, s.pc t = .wait k l timeout b

/-- What a state of the locks has to guarantee. -/
structure Sound (s : St T L B) : Prop where
  /-- A writer holds the lock alone. -/
  alone : ∀ l t, t ∈ s.writers l → ∀ u, u ≠ t → ¬ Holds s u l
  exclusive : ∀ l, s.writers l = [] ∨ ((s.writers l).length = 1 ∧ s.readers l = [])
  /-- The word or the block counts the read holds, that is the reading threads
  where each holds once. -/
  readCount : ∀ l, (counts s l).1 = (s.readers l).length
  readThreads : ∀ l, (s.readers l).Nodup → (counts s l).1 = (s.readers l).toFinset.card
  writeCount : ∀ l, (counts s l).2 = (s.writers l).length
  asserts : s.failed = false
  /-- Nobody holds, waits on or points to a block of the free list. -/
  freeBlock : ∀ b, s.owner b = .free → s.block b = .zero ∧ (∀ l, s.impl l ≠ .block b) ∧
    ∀ u k l timeout, s.pc u ≠ .wait k l timeout b
  null : ∀ l, (∀ t, ¬ Holds s t l ∧ ¬ WaitsFor s t l) → s.impl l = .null

theorem Inv.alone {s : St T L B} (h : Inv s) {l : L} {t u : T} (ht : t ∈ s.writers l)
    (hu : u ≠ t) : ¬ Holds s u l := by
  rcases (h.lock l).counted.exclusive with he | ⟨h1, hr⟩
  · rw [he] at ht
    simp at ht
  · obtain ⟨w, hw⟩ := List.length_eq_one_iff.mp h1
    rw [hw] at ht
    simp only [List.mem_singleton] at ht
    subst ht
    simpa [Holds, hr, hw] using hu

theorem Inv.freeBlock {s : St T L B} (h : Inv s) {b : B} (hb : s.owner b = .free) :
    s.block b = .zero ∧ (∀ l, s.impl l ≠ .block b) ∧ ∀ u k l timeout, s.pc u ≠ .wait k l timeout b := by
  refine ⟨(h.block b).free hb, fun l e => ?_, fun u k l o e => ?_⟩
  · have hl := h.lock l
    simp only [LockInv, e] at hl
    rw [hb] at hl
    cases hl.1
  · have hu := h.pc u
    simp only [PcInv, e] at hu
    rw [hb] at hu
    cases hu.1

/-- Somebody holds or waits for a lock that is not null. -/
theorem Inv.null {s : St T L B} (h : Inv s) {l : L} (hn : ∀ t, ¬ Holds s t l ∧ ¬ WaitsFor s t l) :
    s.impl l = .null := by
  have hr : s.readers l = [] := List.eq_nil_iff_forall_not_mem.mpr fun t ht => (hn t).1 (.inl ht)
  have hw : s.writers l = [] := List.eq_nil_iff_forall_not_mem.mpr fun t ht => (hn t).1 (.inr ht)
  have hl := h.lock l
  unfold LockInv at hl
  split at hl
  · assumption
  · have := hl.readers
    rw [hr] at this
    simp at this
    omega
  · have := hl.writers
    rw [hw] at this
    simp at this
  · rename_i b hb
    obtain ⟨hown, -, hsome⟩ := hl
    -- a thread in a queue of the block waits for the lock that has the block
    have hq : ∀ k u, u ∉ queue s k b := by
      intro k u hu
      obtain ⟨l', o, e⟩ := (h.block b).waits k u hu
      have hpc := h.pc u
      simp only [PcInv, e, hown, Owner.lock.injEq] at hpc
      obtain ⟨rfl, -⟩ := hpc
      exact (hn u).2 ⟨k, o, b, e⟩
    rcases hsome with e | e | ⟨u, hu⟩ | ⟨u, hu⟩
    · exact absurd hr e
    · exact absurd hw e
    · exact absurd hu (hq .read u)
    · exact absurd hu (hq .write u)

theorem Inv.sound {s : St T L B} (h : Inv s) : Sound s where
  alone _ _ ht _ hu := h.alone ht hu
  exclusive l := (h.lock l).counted.exclusive
  readCount l := (h.lock l).counted.readers
  readThreads l hnd := by
    rw [List.toFinset_card_of_nodup hnd]
    exact (h.lock l).counted.readers
  writeCount l := (h.lock l).counted.writers
  asserts := h.noFail
  freeBlock _ hb := h.freeBlock hb
  null _ hn := h.null hn

/-- Every reachable state of any number of threads, locks and blocks is sound. -/
theorem shared_lock_sound (s : St T L B) (hr : (lts T L B).Reachable s) : Sound s :=
  (inv_inductive.reachable s hr).sound

def goN (t n : Nat) : List (Lbl Nat Nat Nat) := List.replicate n (.go t false 7)

/-- Thread 2 wants to write while thread 1 reads: it puts block 7 into the lock
and waits; after the unlock of thread 1 it is woken, writes and returns the block. -/
def promotedRun : List (Lbl Nat Nat Nat) :=
  [.call 1 (.lockForRead 0)] ++ goN 1 1 ++ [.call 2 (.lockForWrite 0)] ++ goN 2 4 ++
    [.call 1 (.unlock 0)] ++ goN 1 2 ++ goN 2 1

theorem promotedRun_sound : ∃ s, Lts.exec step init promotedRun = some s ∧
    (s.impl 0 = .block 7 ∧ s.writers 0 = [2]) ∧ Sound s := by
  have hval : (Lts.exec step init promotedRun).map (fun s => (s.impl 0, s.writers 0)) =
      some (.block 7, [2]) := by decide
  rw [Option.map_eq_some_iff] at hval
  obtain ⟨s, hs, hv⟩ := hval
  simp only [Prod.mk.injEq] at hv
  exact ⟨s, hs, hv, shared_lock_sound s ⟨init, promotedRun, rfl, Lts.run_of_exec hs⟩⟩

end Libpdk.Thread.Shared

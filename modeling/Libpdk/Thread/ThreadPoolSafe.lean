import Libpdk.Thread.ThreadPoolInv

/-!
# No task is lost, run twice or leaked

`Inv` holds in every state that a run reaches whose steps all meet `steady`
(`inv_step`), and it gives `Sound` (`thread_pool_sound`).

`steady` leaves out three defects.

* `tryToStartMoreThreads` hands a queued task to `tryStart`, which counts it in
  `m_ref` again: a runnable that deletes itself is never deleted
  (`requeued_leaks`).
* There, `tryStart` may put the task back into the queue for a waiting thread,
  with priority 0. In front of a page of negative priority this makes a new
  first page, and `pop_front` then removes that one: the task is lost and the
  deleted page stays in the queue (`requeued_lost`).
* `tryStart` restarts an expired thread that may not have left `run()` yet.
  `Thread::start` does nothing then, and the task is never run
  (`restarted_lost`).
-/
namespace Libpdk.Thread.Pool

variable {R : Type} [DecidableEq R] {auto : R → Bool}

set_option linter.unusedSectionVars false

/-! ## The condition -/

namespace St

/-- The thread that `tryStart` would restart has finished. -/
def restartReady (s : St R) : Bool :=
  match s.route with
  | some (.restart t) => decide ((s.threads.worker t).pc = .finished)
  | _ => true

/-- A turn of `tryToStartMoreThreads` moves a runnable that does not delete
itself, and does not move the last task of a page of negative priority to a
waiting thread. -/
def moveReady (s : St R) : Bool :=
  s.restartReady &&
    match s.queue.pages with
    | [] => true
    | page :: _ =>
      page.first.all (fun x => !s.objects.autoDelete x.runnable) &&
        !(decide (s.route = some .recycle) && decide (page.priority < 0) && page.pop.isFinished)

/-- Every turn of the loop is ready. -/
def movesReady : Nat → St R → Bool
  | 0, _ => true
  | n + 1, s =>
    match s.moreStep with
    | none => true
    | some s' => s.moveReady && movesReady n s'

end St

def steady (s : St R) : Lbl R → Bool
  | .start _ _ => s.restartReady
  | .tryStart _ => s.restartReady
  | .setMaxThreadCount n =>
    decide (n = s.maxThreadCount) ||
      St.movesReady { s with maxThreadCount := n }.moreTurns { s with maxThreadCount := n }
  | .releaseThread =>
    St.movesReady { s with reservedThreads := s.reservedThreads - 1 }.moreTurns
      { s with reservedThreads := s.reservedThreads - 1 }
  | _ => true

/-! ## The invariant -/

structure Inv (auto : R → Bool) (s : St R) : Prop where
  queue : s.queue.Ok
  threads : s.threads.Ok auto
  books : Books auto (fun p => tally p s.pending) s.objects s.log

theorem St.tally_pending (s : St R) (p : Task R → Bool) :
    tally p s.pending = tally p s.queue.tasks + tally p s.threads.held := by
  rw [pending, Threads.held, List.append_assoc, tally_append]

theorem inv_init (auto : R → Bool) (maxThreadCount : Int) : Inv auto (init auto maxThreadCount) := by
  refine ⟨⟨?_, List.nodup_nil, List.Pairwise.nil, ?_, ?_, ?_⟩,
    ⟨List.nodup_nil, ?_, ?_, List.nodup_nil, ?_, List.nodup_nil, ?_, ?_, ?_, ?_⟩,
    ⟨?_, ?_, rfl, ?_, ?_, ?_⟩⟩
  all_goals simp [init, St.pending, Queue.tasks, Threads.assigned, Threads.running, countOf]

/-! ## `tryStart` -/

theorem St.route_restart {s : St R} {t : Nat} (h : s.route = some (.restart t)) :
    ∃ rest, s.threads.expired = t :: rest := by
  unfold route at h
  split at h
  · cases h
  · split at h
    · cases h
    · split at h
      · cases h
      · next rest _ he =>
        cases h
        exact ⟨rest, he⟩
      · cases h

/-- Whatever its route, `tryStart` makes the task pending once more, and counts
it. -/
theorem tryStart_spec {s s' : St R} {x : Task R} (hq : s.queue.Ok) (ht : s.threads.Ok auto)
    (hready : s.restartReady = true) (h : s.tryStart x = some s') :
    s'.queue.Ok ∧ s'.threads.Ok auto ∧ s'.objects = s.objects.incRef x.runnable ∧
      s'.log = s.log ∧ (∀ p, tally p s'.pending = tally p s.pending + tally p [x]) ∧
      (s'.queue = s.queue ∨ s'.queue = s.queue.enqueue x 0 ∧ s.route = some .recycle) := by
  unfold St.tryStart at h
  cases hroute : s.route with
  | none =>
    rw [hroute] at h
    cases h
  | some route =>
    rw [hroute] at h
    cases route with
    | fresh =>
      cases h
      obtain ⟨hok, htally⟩ := ht.startThread x
      refine ⟨hq, hok, rfl, rfl, fun p => ?_, .inl rfl⟩
      rw [St.tally_pending, St.tally_pending]
      have := htally p
      show tally p s.queue.tasks + tally p (s.threads.startThread x).held = _
      omega
    | recycle =>
      cases h
      refine ⟨hq.enqueue x 0, ht.notifyFront, rfl, rfl, fun p => ?_, .inr ⟨rfl, rfl⟩⟩
      rw [St.tally_pending, St.tally_pending]
      have := s.queue.tally_enqueue x 0 p
      show tally p (s.queue.enqueue x 0).tasks + tally p s.threads.held = _
      omega
    | restart t =>
      cases h
      obtain ⟨rest, he⟩ := St.route_restart hroute
      have hpc : (s.threads.worker t).pc = .finished := by
        unfold St.restartReady at hready
        rw [hroute] at hready
        simpa using hready
      obtain ⟨hok, htally⟩ := ht.restart x he hpc
      refine ⟨hq, hok, rfl, rfl, fun p => ?_, .inl rfl⟩
      rw [St.tally_pending, St.tally_pending]
      have := htally p
      show tally p s.queue.tasks + tally p (s.threads.restart t x).held = _
      omega

/-! ## `tryToStartMoreThreads` -/

theorem St.moreStep_some {s s' : St R} (h : s.moreStep = some s') :
    ∃ page rest x s₁, s.queue.pages = page :: rest ∧ page.first = some x ∧
      s.tryStart x = some s₁ ∧ s' = { s₁ with queue := s₁.queue.popPage page.id } := by
  unfold moreStep at h
  cases hpages : s.queue.pages with
  | nil =>
    rw [hpages] at h
    cases h
  | cons page rest =>
    rw [hpages] at h
    simp only [Option.bind_eq_some_iff, Option.map_eq_some_iff] at h
    obtain ⟨x, hx, s₁, hs₁, rfl⟩ := h
    exact ⟨page, rest, x, s₁, rfl, hx, hs₁, rfl⟩

theorem inv_moreStep {s s' : St R} (h : Inv auto s) (hready : s.moveReady = true)
    (hstep : s.moreStep = some s') : Inv auto s' := by
  obtain ⟨page, rest, x, s₁, hpages, hx, hs₁, rfl⟩ := St.moreStep_some hstep
  unfold St.moveReady at hready
  rw [Bool.and_eq_true] at hready
  obtain ⟨hrestart, hready⟩ := hready
  simp only [hpages, hx, Option.all_some, Bool.and_eq_true, Bool.not_eq_true'] at hready
  obtain ⟨hauto, hlast⟩ := hready
  have hpage : page ∈ s.queue.pages := by rw [hpages]; simp
  obtain ⟨hq, ht, hobjects, hlog, htally, hqueue⟩ := tryStart_spec h.queue h.threads hrestart hs₁
  have hobjects' : s₁.objects = s.objects := by
    rw [hobjects, Objects.incRef, hauto]
    rfl
  -- the page is still there, with `x` at its head, and in front if this finishes it
  have hstill : ∃ page' ∈ s₁.queue.pages, page'.id = page.id ∧ page'.first = some x ∧
      (page'.pop.isFinished = true → ∃ rest, s₁.queue.pages = page' :: rest) := by
    rcases hqueue with he | ⟨he, hroute⟩
    · rw [he]
      exact ⟨page, hpage, rfl, hx, fun _ => ⟨rest, hpages⟩⟩
    · obtain ⟨page', hmem, hid, hfirst, hsame⟩ := Queue.enqueue_mem h.queue hpage x 0
      rw [he]
      refine ⟨page', hmem, hid, hfirst.trans hx, fun hfin => ?_⟩
      by_cases hneg : page.priority < 0
      · rcases hsame with rfl | hzero
        · rw [hroute, hfin] at hlast
          simp [hneg] at hlast
        · omega
      · obtain ⟨front, rest', hfront, hid'⟩ :=
          Queue.enqueue_front (x := x) hpages (Int.not_lt.mp hneg)
        have hd := (h.queue.enqueue x 0).distinct
        have : front = page' :=
          List.inj_on_of_nodup_map hd (by rw [hfront]; simp) hmem (hid'.trans hid.symm)
        exact ⟨rest', this ▸ hfront⟩
  obtain ⟨page', hmem, hid, hfirst, hfront⟩ := hstill
  obtain ⟨hok, y, hy, hpop⟩ := Queue.popPage_spec hq hmem hfront
  rw [hid] at hok hpop
  have hxy : x = y := Option.some.inj (hfirst.symm.trans hy)
  subst hxy
  refine ⟨hok, ht, ?_⟩
  show Books auto _ s₁.objects s₁.log
  rw [hobjects', hlog]
  refine h.books.congr fun p => ?_
  have hbefore := htally p
  have hafter := hpop p
  rw [St.tally_pending] at hbefore ⊢
  show tally p (s₁.queue.popPage page.id).tasks + tally p s₁.threads.held = _
  omega

theorem inv_moreLoop :
    ∀ {n : Nat} {s : St R}, Inv auto s → St.movesReady n s = true → Inv auto (St.moreLoop n s)
  | 0, _, h, _ => h
  | n + 1, s, h, hready => by
    unfold St.movesReady at hready
    unfold St.moreLoop
    cases hstep : s.moreStep with
    | none => exact h
    | some s' =>
      rw [hstep] at hready
      simp only [Bool.and_eq_true] at hready
      exact inv_moreLoop (inv_moreStep h hready.1 hstep) hready.2

/-! ## The worker -/

/-- A worker at the head of its loop with no task finds one, waits or expires. -/
theorem inv_lookForWork {s : St R} {t : Nat} (h : Inv auto s)
    (hpc : (s.threads.worker t).pc = .loop) (hnone : (s.threads.worker t).runnable = none) :
    Inv auto (s.lookForWork t) := by
  have ht : t ∈ s.threads.all := h.threads.known t (by rw [hpc]; simp)
  have hnw : t ∉ s.threads.waiting := h.threads.not_waiting (by rw [hpc]; simp)
  have hne : t ∉ s.threads.expired := h.threads.not_expired (by rw [hpc]; simp) (by rw [hpc]; simp)
  have hheld : (s.threads.worker t).held = [] := by
    simp [Worker.held, Worker.assigned, Worker.current, hpc, hnone]
  unfold St.lookForWork
  split
  · obtain ⟨hok, htally⟩ := h.threads.expire ht hnw hne hheld hnone
    refine ⟨h.queue, hok, h.books.congr fun p => ?_⟩
    rw [St.tally_pending, St.tally_pending]
    exact congrArg _ (htally p)
  · cases hpages : s.queue.pages with
    | nil =>
      obtain ⟨hok, htally⟩ := h.threads.awaitWork ht hnw hne hheld hnone
      refine ⟨h.queue, hok, h.books.congr fun p => ?_⟩
      rw [St.tally_pending, St.tally_pending]
      exact congrArg _ (htally p)
    | cons page rest =>
      have hpage : page ∈ s.queue.pages := by rw [hpages]; simp
      obtain ⟨hok, x, hx, hpop⟩ := Queue.popPage_spec h.queue hpage fun _ => ⟨rest, hpages⟩
      simp only [hx]
      obtain ⟨hth, htally⟩ := h.threads.move (t := t)
        (w := { s.threads.worker t with pc := .running x (s.objects.autoDelete x.runnable) })
        (.inl hpc) (.inr hnone) fun y a hy => by
          cases hy
          exact h.books.autoDelete _
      refine ⟨hok, hth, h.books.congr fun p => ?_⟩
      rw [St.tally_pending, St.tally_pending]
      have hbefore := htally p
      have hafter := hpop p
      have hnew : ({ s.threads.worker t with
          pc := .running x (s.objects.autoDelete x.runnable) } : Worker R).held = [x] := rfl
      rw [hheld, hnew, tally_nil] at hbefore
      show tally p (s.queue.popPage page.id).tasks + tally p (s.threads.set t _).held = _
      omega

theorem inv_takeRunnable {s : St R} {t : Nat} (h : Inv auto s)
    (hpc : (s.threads.worker t).pc = .loop) : Inv auto (s.takeRunnable t) := by
  unfold St.takeRunnable
  cases hx : (s.threads.worker t).runnable with
  | none => exact inv_lookForWork h hpc hx
  | some x =>
    obtain ⟨hth, htally⟩ := h.threads.move (t := t)
      (w := ⟨.running x (s.objects.autoDelete x.runnable), none⟩) (.inl hpc) (.inr rfl)
      fun y a hy => by
        cases hy
        exact h.books.autoDelete _
    refine ⟨h.queue, hth, h.books.congr fun p => ?_⟩
    rw [St.tally_pending, St.tally_pending]
    have hbefore := htally p
    have hold : (s.threads.worker t).held = [x] := by
      simp [Worker.held, Worker.assigned, Worker.current, hpc, hx]
    have hnew : (⟨.running x (s.objects.autoDelete x.runnable), none⟩ : Worker R).held = [x] := rfl
    rw [hold, hnew] at hbefore
    show tally p s.queue.tasks + tally p (s.threads.set t _).held = _
    omega

theorem inv_finishTask {s : St R} {t : Nat} {x : Task R} {a : Bool} (h : Inv auto s)
    (hpc : (s.threads.worker t).pc = .running x a) : Inv auto (s.finishTask t x a) := by
  have hnone : (s.threads.worker t).runnable = none := by
    cases hx : (s.threads.worker t).runnable with
    | none => rfl
    | some y =>
      have := h.threads.handed t y hx
      rw [hpc] at this
      cases this
  obtain ⟨hth, htally⟩ := h.threads.move (t := t) (w := { s.threads.worker t with pc := .loop })
    (.inr ⟨x, a, hpc⟩) (.inl rfl) fun y b hy => by cases hy
  have hold : (s.threads.worker t).held = [x] := by
    simp [Worker.held, Worker.assigned, Worker.current, hpc]
  have hnew : ({ s.threads.worker t with pc := .loop } : Worker R).held = [] := by
    simp [Worker.held, Worker.assigned, Worker.current, hnone]
  have hflag : a = auto x.runnable := h.threads.flag t x a hpc
  refine inv_lookForWork ⟨h.queue, hth, ?_⟩ (by simp [Threads.setPc]) (by simp [Threads.setPc, hnone])
  rw [hflag]
  refine h.books.drop (fun p => ?_) rfl rfl (fun p => ?_)
  · have hbefore := htally p
    rw [hold, hnew, tally_nil] at hbefore
    rw [St.tally_pending, St.tally_pending]
    show _ = tally p [x] + (tally p s.queue.tasks + tally p (s.threads.set t _).held)
    omega
  · show tally p (s.log.done ++ [x]) + tally p s.log.cleared = _
    rw [tally_append]
    omega

theorem inv_wake {s : St R} {t : Nat} (h : Inv auto s)
    (hpc : (s.threads.worker t).pc = .waiting) : Inv auto (s.wake t) := by
  have ht : t ∈ s.threads.all := h.threads.known t (by rw [hpc]; simp)
  have hne : t ∉ s.threads.expired := h.threads.not_expired (by rw [hpc]; simp) (by rw [hpc]; simp)
  obtain ⟨hheld, hnone⟩ := h.threads.idle_held (t := t) (by rw [hpc]; simp) (by rw [hpc]; simp)
  unfold St.wake
  split
  · have hnw : t ∉ s.threads.waiting.erase t := h.threads.waiting_distinct.not_mem_erase
    obtain ⟨hok, htally⟩ := (h.threads.stopWaiting t).expire (t := t) ht hnw hne hheld hnone
    refine ⟨h.queue, hok, h.books.congr fun p => ?_⟩
    rw [St.tally_pending, St.tally_pending]
    exact congrArg _ (htally p)
  · next hnw =>
    have hth : (s.threads.setPc t .loop).Ok auto :=
      h.threads.set ht (fun hin => absurd hin hnw) (fun hin => absurd hin hne) (fun _ _ => rfl)
        (fun _ _ hx => by cases hx)
    refine inv_takeRunnable ⟨h.queue, hth, h.books.congr fun p => ?_⟩ (by simp [Threads.setPc])
    rw [St.tally_pending, St.tally_pending]
    have htally := Threads.tally_held_set _ p { s.threads.worker t with pc := .loop }
      h.threads.distinct ht
    have hnew : ({ s.threads.worker t with pc := .loop } : Worker R).held = [] := by
      simp [Worker.held, Worker.assigned, Worker.current, hnone]
    rw [hheld, hnew, tally_nil] at htally
    show tally p s.queue.tasks + tally p (s.threads.set t _).held = _
    omega

theorem inv_finish {s : St R} {t : Nat} (h : Inv auto s)
    (hpc : (s.threads.worker t).pc = .exiting) :
    Inv auto { s with threads := s.threads.setPc t .finished } := by
  have ht : t ∈ s.threads.all := h.threads.known t (by rw [hpc]; simp)
  obtain ⟨hheld, hnone⟩ := h.threads.idle_held (t := t) (by rw [hpc]; simp) (by rw [hpc]; simp)
  have hth : (s.threads.setPc t .finished).Ok auto :=
    h.threads.set ht (fun hin => absurd hin (h.threads.not_waiting (by rw [hpc]; simp)))
      (fun _ => .inr rfl) (fun x hx => by rw [hnone] at hx; cases hx) (fun _ _ hx => by cases hx)
  refine ⟨h.queue, hth, h.books.congr fun p => ?_⟩
  rw [St.tally_pending, St.tally_pending]
  have htally := Threads.tally_held_set _ p { s.threads.worker t with pc := .finished }
    h.threads.distinct ht
  have hnew : ({ s.threads.worker t with pc := .finished } : Worker R).held = [] := rfl
  rw [hheld, hnew, tally_nil] at htally
  show tally p s.queue.tasks + tally p (s.threads.set t _).held = _
  omega

/-! ## The calls -/

/-- A submission that `tryStart` accepts. -/
theorem inv_submit {s s' : St R} {r : R} (h : Inv auto s) (hlive : s.objects.deleted r = 0)
    (hready : s.restartReady = true)
    (hs : (s.submit (s.nextTask r)).tryStart (s.nextTask r) = some s') : Inv auto s' := by
  obtain ⟨hq, ht, hobjects, hlog, htally, -⟩ :=
    tryStart_spec (s := s.submit (s.nextTask r)) h.queue h.threads hready hs
  refine ⟨hq, ht, ?_⟩
  rw [hobjects, hlog]
  exact h.books.submit (x := s.nextTask r) rfl hlive htally

theorem inv_start {s : St R} {r : R} {priority : Int} (h : Inv auto s)
    (hlive : s.objects.deleted r = 0) (hready : s.restartReady = true) :
    Inv auto (s.start r priority) := by
  unfold St.start
  cases hs : (s.submit (s.nextTask r)).tryStart (s.nextTask r) with
  | some s' => exact inv_submit h hlive hready hs
  | none =>
    refine ⟨h.queue.enqueue _ _, h.threads.notifyFront, ?_⟩
    refine h.books.submit (x := s.nextTask r) rfl hlive fun p => ?_
    rw [St.tally_pending, St.tally_pending]
    have := s.queue.tally_enqueue (s.nextTask r) priority p
    show tally p (s.queue.enqueue (s.nextTask r) priority).tasks + tally p s.threads.held = _
    omega

theorem inv_tryStartCall {s : St R} {r : R} (h : Inv auto s) (hlive : s.objects.deleted r = 0)
    (hready : s.restartReady = true) : Inv auto (s.tryStartCall r) := by
  unfold St.tryStartCall
  split
  · exact h
  · cases hs : (s.submit (s.nextTask r)).tryStart (s.nextTask r) with
    | some s' => exact inv_submit h hlive hready hs
    | none => exact h

theorem inv_tryTake {s : St R} (r : R) (h : Inv auto s) : Inv auto (s.tryTake r) := by
  unfold St.tryTake
  cases htake : s.queue.tryTake r with
  | none => exact h
  | some found =>
    obtain ⟨x, queue⟩ := found
    obtain ⟨hok, rfl, htally⟩ := Queue.tryTake_spec h.queue htake
    refine ⟨hok, h.threads, h.books.take fun p => ?_⟩
    rw [St.tally_pending, St.tally_pending]
    have := htally p
    show _ = tally p [x] + (tally p queue.tasks + tally p s.threads.held)
    omega

theorem inv_clear {s : St R} (h : Inv auto s) : Inv auto s.clear := by
  refine ⟨h.queue.deleteAll, h.threads, h.books.clear fun p => ?_⟩
  rw [St.tally_pending, St.tally_pending]
  show _ = tally p s.queue.tasks + (0 + tally p s.threads.held)
  omega

theorem inv_step {s s' : St R} {l : Lbl R} (h : Inv auto s) (hst : step s l = some s')
    (hok : steady s l = true) : Inv auto s' := by
  cases l with
  | start r priority =>
    simp only [step] at hst
    split at hst
    · next hlive => cases hst; exact inv_start h hlive hok
    · cases hst
  | tryStart r =>
    simp only [step] at hst
    split at hst
    · next hlive => cases hst; exact inv_tryStartCall h hlive hok
    · cases hst
  | tryTake r => cases hst; exact inv_tryTake r h
  | clear => cases hst; exact inv_clear h
  | setMaxThreadCount n =>
    cases hst
    unfold St.setMaxThreadCount
    split
    · exact h
    · next hne =>
      simp only [steady, hne, decide_false, Bool.false_or] at hok
      exact inv_moreLoop (s := { s with maxThreadCount := n })
        ⟨h.queue, h.threads, h.books⟩ hok
  | reserveThread => cases hst; exact ⟨h.queue, h.threads, h.books⟩
  | releaseThread =>
    cases hst
    exact inv_moreLoop (s := { s with reservedThreads := s.reservedThreads - 1 })
      ⟨h.queue, h.threads, h.books⟩ hok
  | enterRun t =>
    simp only [step] at hst
    split at hst
    · next hpc => cases hst; exact inv_takeRunnable h hpc
    · cases hst
  | finishTask t =>
    simp only [step] at hst
    split at hst
    · next x a hpc => cases hst; exact inv_finishTask h hpc
    · cases hst
  | wake t =>
    simp only [step] at hst
    split at hst
    · next hpc => cases hst; exact inv_wake h hpc
    · cases hst
  | finish t =>
    simp only [step] at hst
    split at hst
    · next hpc => cases hst; exact inv_finish h hpc
    · cases hst

theorem Inv.sound {s : St R} (h : Inv auto s) : Sound auto s := by
  refine ⟨?_, ?_, h.queue.live, ?_, h.books.deleted_once, h.books.deleted_iff⟩
  · rw [List.perm_iff_count]
    intro x
    have := h.books.placed (fun y => y == x)
    simp only [List.count_append]
    exact this
  · have hd : (s.log.submitted.map Task.sub).Nodup := by
      rw [h.books.numbered]
      exact List.nodup_range
    exact List.Nodup.of_map _ hd
  · intro r ha
    have := h.books.refs r
    rw [if_pos ha] at this
    exact this

/-- Every run whose steps are all steady loses no task, runs none twice and
leaks none. -/
theorem thread_pool_sound (auto : R → Bool) (maxThreadCount : Int) (s : St R)
    (hr : ((pool auto maxThreadCount).restrict fun s l => steady s l = true).Reachable s) :
    Sound auto s := by
  have hI : ((pool auto maxThreadCount).restrict fun s l => steady s l = true).Inductive
      (Inv auto) := by
    refine ⟨fun s hs => ?_, fun s l s' hI hst => inv_step hI hst.1 hst.2⟩
    rw [show s = init auto maxThreadCount from hs]
    exact inv_init auto maxThreadCount
  exact (hI.reachable s hr).sound

/-! ## The three defects -/

/-- One thread is busy, runnable 1 is queued, the limit is raised. -/
def requeuedRun : List (Lbl Nat) := [.start 0 0, .start 1 0, .setMaxThreadCount 2]

theorem requeued_leaks :
    (Lts.exec step (init (fun _ => true) 1) requeuedRun).map
      (fun s => (s.objects.mRef 1, countOf 1 s.pending)) = some (2, 1) := by decide

/-- Both threads wait, two reserved threads keep runnable 2 in the queue with
priority -1, and the threads are released. -/
def frontPageRun : List (Lbl Nat) :=
  [.start 0 0, .start 1 0, .enterRun 0, .enterRun 1, .finishTask 0, .finishTask 1,
    .reserveThread, .reserveThread, .start 2 (-1), .releaseThread, .releaseThread]

/-- Thread 0 expires, and is restarted before it has left `run()`. -/
def restartedRun : List (Lbl Nat) :=
  [.start 0 0, .enterRun 0, .finishTask 0, .wake 0, .start 1 0, .finish 0]

theorem thread_pool_sound_false : ¬ ∀ (auto : Nat → Bool) (maxThreadCount : Int) (s : St Nat),
    (pool auto maxThreadCount).Reachable s → Sound auto s := by
  intro h
  have hres := requeued_leaks
  rw [Option.map_eq_some_iff] at hres
  obtain ⟨s, hs, hv⟩ := hres
  have hsound := h (fun _ => true) 1 s ⟨_, requeuedRun, rfl, Lts.run_of_exec hs⟩
  simp only [Prod.mk.injEq] at hv
  have := hsound.refCount 1 rfl
  rw [hv.1, hv.2] at this
  omega

/-- Runnables below 4 delete themselves. The tasks go to a new thread, through
the queue, back to the caller, to a restarted thread, to a woken thread and, when
the limit is raised, from the queue to a second thread; one is cleared. -/
def fourRoutesRun : List (Lbl Nat) :=
  [.start 0 0, .enterRun 0, .start 1 5, .start 2 0, .tryTake 2, .finishTask 0, .finishTask 0,
    .wake 0, .finish 0, .start 3 0, .enterRun 0, .finishTask 0, .tryStart 7, .wake 0,
    .start 6 0, .start 5 (-1), .setMaxThreadCount 2, .enterRun 1, .clear, .finishTask 0]

theorem fourRoutesRun_sound : ∃ s,
    Lts.execOk step (fun s l => steady s l = true) (init (fun r => decide (r < 4)) 1)
      fourRoutesRun = some s ∧ Sound (fun r => decide (r < 4)) s := by
  have hsome : (Lts.execOk step (fun s l => steady s l = true) (init (fun r => decide (r < 4)) 1)
      fourRoutesRun).isSome := by decide
  obtain ⟨s, hs⟩ := Option.isSome_iff_exists.mp hsome
  exact ⟨s, hs, thread_pool_sound _ 1 s ⟨_, fourRoutesRun, rfl, Lts.run_of_execOk hs⟩⟩

end Libpdk.Thread.Pool

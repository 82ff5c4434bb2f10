import Libpdk.Thread.ThreadPool

/-!
# What the thread pool's operations preserve

Two halves. `Threads.Ok` is what the lists of threads and the threads'
positions say about each other; every operation on the threads keeps it and
hands out or takes away one task (`tally` of `held`). `Books` relates the
pending tasks to the reference counts, the deletions and the log; it knows
neither queue nor threads.
-/
namespace Libpdk.Thread.Pool

variable {R : Type} [DecidableEq R]

set_option linter.unusedSectionVars false

/-! ## The threads -/

/-- `auto` says which runnables delete themselves. -/
structure Threads.Ok (auto : R → Bool) (th : Threads R) : Prop where
  distinct : th.all.Nodup
  numbered : ∀ t ∈ th.all, t < th.all.length
  known : ∀ t, (th.worker t).pc ≠ .finished → t ∈ th.all
  waiting_distinct : th.waiting.Nodup
  waiting_pc : ∀ t ∈ th.waiting, (th.worker t).pc = .waiting
  expired_distinct : th.expired.Nodup
  expired_known : ∀ t ∈ th.expired, t ∈ th.all
  expired_pc : ∀ t ∈ th.expired, (th.worker t).pc = .exiting ∨ (th.worker t).pc = .finished
  /-- `m_runnable` is only set while the thread is about to enter its loop. -/
  handed : ∀ t x, (th.worker t).runnable = some x → (th.worker t).pc = .loop
  flag : ∀ t x a, (th.worker t).pc = .running x a → a = auto x.runnable

/-- What a worker has to do. -/
def Worker.held (w : Worker R) : List (Task R) := w.assigned ++ w.current

def Threads.held (th : Threads R) : List (Task R) := th.assigned ++ th.running

@[simp] theorem Threads.set_worker (th : Threads R) (t : Nat) (w : Worker R) :
    (th.set t w).worker t = w := Function.update_self ..

theorem Threads.set_worker_ne (th : Threads R) {t u : Nat} (w : Worker R) (h : u ≠ t) :
    (th.set t w).worker u = th.worker u := Function.update_of_ne h ..

theorem Threads.Ok.not_waiting {auto : R → Bool} {th : Threads R} (h : th.Ok auto) {t : Nat}
    (hpc : (th.worker t).pc ≠ .waiting) : t ∉ th.waiting :=
  fun hin => hpc (h.waiting_pc t hin)

theorem Threads.Ok.not_expired {auto : R → Bool} {th : Threads R} (h : th.Ok auto) {t : Nat}
    (he : (th.worker t).pc ≠ .exiting) (hf : (th.worker t).pc ≠ .finished) : t ∉ th.expired := by
  intro hin
  rcases h.expired_pc t hin with h' | h'
  · exact he h'
  · exact hf h'

/-- A worker may move as long as it stays where the two lists say it is. -/
theorem Threads.Ok.set {auto : R → Bool} {th : Threads R} (h : th.Ok auto) {t : Nat} {w : Worker R}
    (ht : t ∈ th.all) (hw : t ∈ th.waiting → w.pc = .waiting)
    (he : t ∈ th.expired → w.pc = .exiting ∨ w.pc = .finished)
    (hhanded : ∀ x, w.runnable = some x → w.pc = .loop)
    (hflag : ∀ x a, w.pc = .running x a → a = auto x.runnable) : (th.set t w).Ok auto := by
  refine ⟨h.distinct, h.numbered, ?_, h.waiting_distinct, ?_, h.expired_distinct, h.expired_known,
    ?_, ?_, ?_⟩
  · intro u hu
    by_cases hut : u = t
    · exact hut ▸ ht
    · rw [set_worker_ne _ _ hut] at hu
      exact h.known u hu
  · intro u hu
    by_cases hut : u = t
    · subst hut
      rw [set_worker]
      exact hw hu
    · rw [set_worker_ne _ _ hut]
      exact h.waiting_pc u hu
  · intro u hu
    by_cases hut : u = t
    · subst hut
      rw [set_worker]
      exact he hu
    · rw [set_worker_ne _ _ hut]
      exact h.expired_pc u hu
  · intro u x hx
    by_cases hut : u = t
    · subst hut
      rw [set_worker] at hx ⊢
      exact hhanded x hx
    · rw [set_worker_ne _ _ hut] at hx ⊢
      exact h.handed u x hx
  · intro u x a hx
    by_cases hut : u = t
    · subst hut
      rw [set_worker] at hx
      exact hflag x a hx
    · rw [set_worker_ne _ _ hut] at hx
      exact h.flag u x a hx

/-! ### Counting what the threads hold -/

theorem tally_flatMap_congr {f g : Nat → List (Task R)} {ts : List Nat}
    (h : ∀ t ∈ ts, f t = g t) : ts.flatMap f = ts.flatMap g := by
  induction ts with
  | nil => rfl
  | cons t rest ih =>
    rw [List.flatMap_cons, List.flatMap_cons, h t (by simp),
      ih fun u hu => h u (List.mem_cons_of_mem t hu)]

/-- One thread's share changes, the others keep theirs. -/
theorem tally_flatMap_update (p : Task R → Bool) {f g : Nat → List (Task R)} {ts : List Nat}
    {t : Nat} (hd : ts.Nodup) (ht : t ∈ ts) (hother : ∀ u, u ≠ t → g u = f u) :
    tally p (ts.flatMap g) + tally p (f t) = tally p (ts.flatMap f) + tally p (g t) := by
  induction ts with
  | nil => cases ht
  | cons u rest ih =>
    rw [List.nodup_cons] at hd
    rw [List.flatMap_cons, List.flatMap_cons, tally_append, tally_append]
    by_cases hu : u = t
    · subst hu
      have hrest : rest.flatMap g = rest.flatMap f := by
        apply tally_flatMap_congr
        intro v hv
        exact hother v fun hvu => hd.1 (hvu ▸ hv)
      rw [hrest]
      omega
    · have hin : t ∈ rest := (List.mem_cons.mp ht).resolve_left (Ne.symm hu)
      have := ih hd.2 hin
      rw [hother u hu]
      omega

theorem Threads.tally_held_set (th : Threads R) (p : Task R → Bool) {t : Nat} (w : Worker R)
    (hd : th.all.Nodup) (ht : t ∈ th.all) :
    tally p (th.set t w).held + tally p (th.worker t).held =
      tally p th.held + tally p w.held := by
  have ha := tally_flatMap_update p (f := fun u => (th.worker u).assigned)
    (g := fun u => ((th.set t w).worker u).assigned) hd ht
    fun u hu => by simp only [set_worker_ne th w hu]
  have hr := tally_flatMap_update p (f := fun u => (th.worker u).current)
    (g := fun u => ((th.set t w).worker u).current) hd ht
    fun u hu => by simp only [set_worker_ne th w hu]
  simp only [set_worker] at ha hr
  simp only [held, Worker.held, tally_append, assigned, running]
  have hall : (th.set t w).all = th.all := rfl
  rw [hall]
  omega

/-- A worker that waits, or is past its loop, holds nothing. -/
theorem Threads.Ok.idle_held {auto : R → Bool} {th : Threads R} (h : th.Ok auto) {t : Nat}
    (hl : (th.worker t).pc ≠ .loop) (hr : ∀ x a, (th.worker t).pc ≠ .running x a) :
    (th.worker t).held = [] ∧ (th.worker t).runnable = none := by
  have hnone : (th.worker t).runnable = none := by
    cases hx : (th.worker t).runnable with
    | none => rfl
    | some x => exact absurd (h.handed t x hx) hl
  refine ⟨?_, hnone⟩
  cases hpc : (th.worker t).pc with
  | loop => exact absurd hpc hl
  | running x a => exact absurd hpc (hr x a)
  | waiting => simp [Worker.held, Worker.assigned, Worker.current, hpc]
  | exiting => simp [Worker.held, Worker.assigned, Worker.current, hpc]
  | finished => simp [Worker.held, Worker.assigned, Worker.current, hpc]

/-! ### The operations -/

theorem Threads.Ok.startThread {auto : R → Bool} {th : Threads R} (h : th.Ok auto) (x : Task R) :
    (th.startThread x).Ok auto ∧
      ∀ p, tally p (th.startThread x).held = tally p th.held + tally p [x] := by
  have hfresh : th.all.length ∉ th.all := fun hin => absurd (h.numbered _ hin) (Nat.lt_irrefl _)
  have hother : ∀ t, t ∈ th.all → (th.startThread x).worker t = th.worker t := fun t ht =>
    set_worker_ne _ _ fun he => hfresh (he ▸ ht)
  have hpc : (th.worker th.all.length).pc = .finished := by
    by_contra hne
    exact hfresh (h.known _ hne)
  have hbase : ({ th with all := th.all ++ [th.all.length] } : Threads R).Ok auto := by
    refine ⟨?_, ?_, ?_, h.waiting_distinct, h.waiting_pc, h.expired_distinct, ?_, h.expired_pc,
      h.handed, h.flag⟩
    · rw [List.nodup_append]
      refine ⟨h.distinct, List.nodup_singleton _, ?_⟩
      intro a ha b hb hab
      rw [List.mem_singleton] at hb
      exact hfresh (hb ▸ hab ▸ ha)
    · intro t ht
      rw [List.length_append, List.length_singleton]
      rcases List.mem_append.mp ht with ht | ht
      · have := h.numbered t ht
        omega
      · rw [List.mem_singleton] at ht
        omega
    · intro t ht
      exact List.mem_append.mpr (.inl (h.known t ht))
    · intro t ht
      exact List.mem_append.mpr (.inl (h.expired_known t ht))
  have hnw : th.all.length ∉ th.waiting := h.not_waiting (by rw [hpc]; simp)
  have hne : th.all.length ∉ th.expired := fun hin => hfresh (h.expired_known _ hin)
  refine ⟨hbase.set (by simp) (fun hin => absurd hin hnw) (fun hin => absurd hin hne)
    (fun _ _ => rfl) (fun _ _ hx => by cases hx), fun p => ?_⟩
  have ha : (th.startThread x).assigned = th.assigned ++ [x] := by
    show (th.all ++ [th.all.length]).flatMap _ = _
    rw [List.flatMap_append,
      tally_flatMap_congr fun t ht => congrArg Worker.assigned (hother t ht)]
    simp [Threads.startThread, Worker.assigned, Threads.assigned]
  have hr : (th.startThread x).running = th.running := by
    show (th.all ++ [th.all.length]).flatMap _ = _
    rw [List.flatMap_append,
      tally_flatMap_congr fun t ht => congrArg Worker.current (hother t ht)]
    simp [Threads.startThread, Worker.current, Threads.running]
  simp only [held, ha, hr, tally_append]
  omega

theorem Threads.Ok.notifyFront {auto : R → Bool} {th : Threads R} (h : th.Ok auto) :
    th.notifyFront.Ok auto :=
  { h with
    waiting_distinct := h.waiting_distinct.sublist (List.tail_sublist _)
    waiting_pc := fun t ht => h.waiting_pc t (List.mem_of_mem_tail ht) }

/-- The restart of a thread that has finished. -/
theorem Threads.Ok.restart {auto : R → Bool} {th : Threads R} (h : th.Ok auto) {t : Nat}
    {rest : List Nat} (x : Task R) (he : th.expired = t :: rest)
    (hpc : (th.worker t).pc = .finished) :
    (th.restart t x).Ok auto ∧
      ∀ p, tally p (th.restart t x).held = tally p th.held + tally p [x] := by
  have ht : t ∈ th.all := h.expired_known t (by rw [he]; simp)
  have hd := h.expired_distinct
  rw [he, List.nodup_cons] at hd
  have hbase : ({ th with expired := th.expired.tail } : Threads R).Ok auto :=
    { h with
      expired_distinct := h.expired_distinct.sublist (List.tail_sublist _)
      expired_known := fun u hu => h.expired_known u (List.mem_of_mem_tail hu)
      expired_pc := fun u hu => h.expired_pc u (List.mem_of_mem_tail hu) }
  have hnw : t ∉ th.waiting := h.not_waiting (by rw [hpc]; simp)
  have hne : t ∉ th.expired.tail := by rw [he]; exact hd.1
  have hstart : started (th.worker t).pc = .loop := by rw [hpc]; rfl
  unfold Threads.restart
  rw [hstart]
  refine ⟨hbase.set ht (fun hin => absurd hin hnw) (fun hin => absurd hin hne) (fun _ _ => rfl)
    (fun _ _ hx => by cases hx), fun p => ?_⟩
  have hset := tally_held_set { th with expired := th.expired.tail } p ⟨.loop, some x⟩
    h.distinct ht
  have hidle := (h.idle_held (t := t) (by rw [hpc]; simp) (by rw [hpc]; simp)).1
  have hheld : (⟨.loop, some x⟩ : Worker R).held = [x] := rfl
  have hsame : ({ th with expired := th.expired.tail } : Threads R).held = th.held := rfl
  simp only [hidle, hheld, hsame, tally_nil] at hset
  omega

/-- A thread in its loop takes a task, or drops the one it has. -/
theorem Threads.Ok.move {auto : R → Bool} {th : Threads R} (h : th.Ok auto) {t : Nat}
    {w : Worker R} (hpc : (th.worker t).pc = .loop ∨ ∃ x a, (th.worker t).pc = .running x a)
    (hw : w.pc = .loop ∨ w.runnable = none)
    (hflag : ∀ x a, w.pc = .running x a → a = auto x.runnable) :
    (th.set t w).Ok auto ∧ ∀ p, tally p (th.set t w).held + tally p (th.worker t).held =
      tally p th.held + tally p w.held := by
  have hactive : (th.worker t).pc ≠ .finished ∧ (th.worker t).pc ≠ .exiting ∧
      (th.worker t).pc ≠ .waiting := by
    rcases hpc with hpc | ⟨x, a, hpc⟩ <;> rw [hpc] <;> simp
  obtain ⟨hf, he, hwt⟩ := hactive
  have ht : t ∈ th.all := h.known t hf
  refine ⟨h.set ht (fun hin => absurd hin (h.not_waiting hwt))
    (fun hin => absurd hin (h.not_expired he hf)) ?_ hflag, fun p => tally_held_set _ p w h.distinct ht⟩
  intro x hx
  rcases hw with hw | hw
  · exact hw
  · rw [hw] at hx
    cases hx

theorem Threads.Ok.expire {auto : R → Bool} {th : Threads R} (h : th.Ok auto) {t : Nat}
    (ht : t ∈ th.all) (hnw : t ∉ th.waiting) (hne : t ∉ th.expired)
    (hheld : (th.worker t).held = []) (hnone : (th.worker t).runnable = none) :
    ({ th.setPc t .exiting with expired := th.expired ++ [t] } : Threads R).Ok auto ∧
      ∀ p, tally p ({ th.setPc t .exiting with expired := th.expired ++ [t] } : Threads R).held =
        tally p th.held := by
  have hset : (th.setPc t .exiting).Ok auto :=
    h.set ht (fun hin => absurd hin hnw) (fun hin => absurd hin hne)
      (fun x hx => by rw [hnone] at hx; cases hx) (fun x a hx => by cases hx)
  refine ⟨{ hset with
    expired_distinct := ?_
    expired_known := ?_
    expired_pc := ?_ }, fun p => ?_⟩
  · show (th.expired ++ [t]).Nodup
    rw [List.nodup_append]
    refine ⟨h.expired_distinct, List.nodup_singleton _, ?_⟩
    intro a ha b hb hab
    rw [List.mem_singleton] at hb
    exact hne (hb ▸ hab ▸ ha)
  · intro u hu
    rcases List.mem_append.mp hu with hu | hu
    · exact h.expired_known u hu
    · exact List.mem_singleton.mp hu ▸ ht
  · intro u hu
    rcases List.mem_append.mp hu with hu | hu
    · exact hset.expired_pc u hu
    · rw [List.mem_singleton.mp hu]
      exact .inl (by simp [Threads.setPc])
  · have htally := tally_held_set _ p { th.worker t with pc := .exiting } h.distinct ht
    have hnew : ({ th.worker t with pc := .exiting } : Worker R).held = [] := rfl
    rw [hheld, hnew, tally_nil] at htally
    show tally p (th.set t { th.worker t with pc := .exiting }).held = _
    omega

theorem Threads.Ok.awaitWork {auto : R → Bool} {th : Threads R} (h : th.Ok auto) {t : Nat}
    (ht : t ∈ th.all) (hnw : t ∉ th.waiting) (hne : t ∉ th.expired)
    (hheld : (th.worker t).held = []) (hnone : (th.worker t).runnable = none) :
    ({ th.setPc t .waiting with waiting := th.waiting ++ [t] } : Threads R).Ok auto ∧
      ∀ p, tally p ({ th.setPc t .waiting with waiting := th.waiting ++ [t] } : Threads R).held =
        tally p th.held := by
  have hset : (th.setPc t .waiting).Ok auto :=
    h.set ht (fun _ => rfl) (fun hin => absurd hin hne)
      (fun x hx => by rw [hnone] at hx; cases hx) (fun x a hx => by cases hx)
  refine ⟨{ hset with
    waiting_distinct := ?_
    waiting_pc := ?_ }, fun p => ?_⟩
  · show (th.waiting ++ [t]).Nodup
    rw [List.nodup_append]
    refine ⟨h.waiting_distinct, List.nodup_singleton _, ?_⟩
    intro a ha b hb hab
    rw [List.mem_singleton] at hb
    exact hnw (hb ▸ hab ▸ ha)
  · intro u hu
    rcases List.mem_append.mp hu with hu | hu
    · exact hset.waiting_pc u hu
    · rw [List.mem_singleton.mp hu]
      simp [Threads.setPc]
  · have htally := tally_held_set _ p { th.worker t with pc := .waiting } h.distinct ht
    have hnew : ({ th.worker t with pc := .waiting } : Worker R).held = [] := rfl
    rw [hheld, hnew, tally_nil] at htally
    show tally p (th.set t { th.worker t with pc := .waiting }).held = _
    omega

/-- A thread leaves the waiting list when its wait ends on its own. -/
theorem Threads.Ok.stopWaiting {auto : R → Bool} {th : Threads R} (h : th.Ok auto) (t : Nat) :
    ({ th with waiting := th.waiting.erase t } : Threads R).Ok auto :=
  { h with
    waiting_distinct := h.waiting_distinct.erase t
    waiting_pc := fun u hu => h.waiting_pc u (List.mem_of_mem_erase hu) }

/-! ## The books -/

/-- `pend` counts the pending submissions that meet a predicate. -/
structure Books (auto : R → Bool) (pend : (Task R → Bool) → Nat) (o : Objects R) (log : Log R) :
    Prop where
  refs : ∀ r, o.mRef r = if auto r then (pend (fun x => decide (x.runnable = r)) : Int) else -1
  placed : ∀ p, pend p + tally p log.done + tally p log.taken + tally p log.cleared =
    tally p log.submitted
  numbered : log.submitted.map Task.sub = List.range log.submitted.length
  dead : ∀ r, o.deleted r ≠ 0 → pend (fun x => decide (x.runnable = r)) = 0
  deleted_once : ∀ r, o.deleted r ≤ 1
  deleted_iff : ∀ r, auto r = true → countOf r log.submitted ≤ 1 →
    o.deleted r = countOf r log.done + countOf r log.cleared

@[simp] theorem countOf_append (r : R) (xs ys : List (Task R)) :
    countOf r (xs ++ ys) = countOf r xs + countOf r ys := tally_append _ _ _

theorem countOf_single (r : R) (x : Task R) : countOf r [x] = if x.runnable = r then 1 else 0 := by
  by_cases h : x.runnable = r <;> simp [countOf, tally, h]

theorem Objects.deref_mRef (o : Objects R) (auto : Bool) (r r' : R) :
    (o.deref auto r).mRef r' = (if auto then o.addRef r (-1) else o).mRef r' := by
  unfold Objects.deref
  cases auto with
  | false => rfl
  | true =>
    rw [if_pos rfl, if_pos rfl]
    split <;> rfl

theorem Objects.deref_deleted (o : Objects R) (r : R) :
    (o.deref true r).deleted r = if o.mRef r = 1 then o.deleted r + 1 else o.deleted r := by
  unfold Objects.deref
  rw [if_pos rfl]
  by_cases h : o.mRef r = 1
  · rw [if_pos h, if_pos (by omega)]
    exact Function.update_self ..
  · rw [if_neg h, if_neg (by omega)]
    rfl

theorem Objects.deref_deleted_ne (o : Objects R) (auto : Bool) {r r' : R} (h : r' ≠ r) :
    (o.deref auto r).deleted r' = o.deleted r' := by
  unfold Objects.deref
  split
  · split
    · exact Function.update_of_ne h ..
    · rfl
  · rfl

namespace Books

variable {auto : R → Bool} {pend pend' : (Task R → Bool) → Nat} {o : Objects R} {log : Log R}

theorem autoDelete (h : Books auto pend o log) (r : R) : o.autoDelete r = auto r := by
  have hr := h.refs r
  by_cases ha : auto r = true
  · rw [if_pos ha] at hr
    rw [ha, Objects.autoDelete, decide_eq_true_iff]
    omega
  · rw [if_neg ha] at hr
    rw [Objects.autoDelete, hr]
    simpa using ha

/-- Moving a pending task from one place to another. -/
theorem congr (h : Books auto pend o log) (hp : ∀ p, pend' p = pend p) : Books auto pend' o log := by
  have : pend' = pend := funext hp
  exact this ▸ h

/-- `m_ref` follows the pending submissions when one of `x.runnable` comes or goes. -/
theorem shift_refs (h : Books auto pend o log) {n : Int} {x : Task R}
    (hp : ∀ r, (pend' (fun y => decide (y.runnable = r)) : Int) =
      pend (fun y => decide (y.runnable = r)) + n * countOf r [x]) (r : R) :
    (if auto x.runnable then o.addRef x.runnable n else o).mRef r =
      if auto r then (pend' (fun y => decide (y.runnable = r)) : Int) else -1 := by
  have hr := h.refs r
  have hp' := hp r
  rw [countOf_single] at hp'
  by_cases ha : auto x.runnable = true
  · rw [if_pos ha]
    show Function.update o.mRef x.runnable _ r = _
    by_cases hrx : r = x.runnable
    · subst hrx
      rw [if_pos rfl] at hp'
      rw [if_pos ha] at hr
      rw [Function.update_self, if_pos ha]
      omega
    · rw [if_neg (Ne.symm hrx)] at hp'
      rw [Function.update_of_ne hrx, hr]
      by_cases har : auto r = true
      · rw [if_pos har, if_pos har]
        omega
      · rw [if_neg har, if_neg har]
  · rw [if_neg ha, hr]
    by_cases har : auto r = true
    · rw [if_neg fun he : x.runnable = r => ha (he ▸ har)] at hp'
      rw [if_pos har, if_pos har]
      omega
    · rw [if_neg har, if_neg har]

/-- `++m_ref` for a submission that becomes pending. -/
theorem submit (h : Books auto pend o log) {x : Task R} (hx : x.sub = log.submitted.length)
    (hlive : o.deleted x.runnable = 0) (hp : ∀ p, pend' p = pend p + tally p [x]) :
    Books auto pend' (o.incRef x.runnable) { log with submitted := log.submitted ++ [x] } := by
  have hdel : (o.incRef x.runnable).deleted = o.deleted := by
    unfold Objects.incRef
    split <;> rfl
  refine ⟨?_, ?_, ?_, ?_, ?_, ?_⟩
  · unfold Objects.incRef
    rw [h.autoDelete]
    refine h.shift_refs fun r => ?_
    have := hp (fun y => decide (y.runnable = r))
    simp only [countOf]
    omega
  · intro p
    show pend' p + tally p log.done + tally p log.taken + tally p log.cleared =
      tally p (log.submitted ++ [x])
    have := h.placed p
    have := hp p
    rw [tally_append]
    omega
  · rw [List.map_append, h.numbered, List.length_append, List.map_singleton, hx,
      List.length_singleton, List.range_succ]
  · intro r hr
    rw [hdel] at hr
    have hne : ¬ x.runnable = r := fun he => hr (he ▸ hlive)
    have hz := countOf_single r x
    rw [if_neg hne, countOf] at hz
    have := hp (fun y => decide (y.runnable = r))
    have := h.dead r hr
    omega
  · intro r
    rw [hdel]
    exact h.deleted_once r
  · intro r ha hone
    rw [hdel]
    have hone' : countOf r log.submitted + countOf r [x] ≤ 1 := by
      rw [← countOf_append]
      exact hone
    exact h.deleted_iff r ha (by omega)

/-- `--m_ref`, with the deletion, for a pending task that is done or cleared. -/
theorem drop {log' : Log R} {x : Task R} (h : Books auto pend o log)
    (hp : ∀ p, pend p = tally p [x] + pend' p) (hsub : log'.submitted = log.submitted)
    (htaken : log'.taken = log.taken)
    (hout : ∀ p, tally p log'.done + tally p log'.cleared =
      tally p log.done + tally p log.cleared + tally p [x]) :
    Books auto pend' (o.deref (auto x.runnable) x.runnable) log' := by
  have hrefs : ∀ r, (o.deref (auto x.runnable) x.runnable).mRef r =
      if auto r then (pend' (fun y => decide (y.runnable = r)) : Int) else -1 := by
    intro r
    rw [Objects.deref_mRef]
    refine h.shift_refs (fun r => ?_) r
    have := hp (fun y => decide (y.runnable = r))
    simp only [countOf]
    omega
  have hone := countOf_single x.runnable x
  rw [if_pos rfl] at hone
  -- deleted, if at all, by this step; and then nothing of it is pending any more
  have hself : auto x.runnable = true → o.deleted x.runnable = 0 ∧
      (o.deref (auto x.runnable) x.runnable).deleted x.runnable =
        if pend' (fun y => decide (y.runnable = x.runnable)) = 0 then 1 else 0 := by
    intro ha
    have href := h.refs x.runnable
    have hpself := hp (fun y => decide (y.runnable = x.runnable))
    rw [if_pos ha] at href
    unfold countOf at hone
    have hlive : o.deleted x.runnable = 0 := by
      by_contra hne
      have := h.dead x.runnable hne
      omega
    refine ⟨hlive, ?_⟩
    rw [ha, Objects.deref_deleted, hlive]
    by_cases hz : pend' (fun y => decide (y.runnable = x.runnable)) = 0
    · rw [if_pos hz, if_pos (by omega)]
    · rw [if_neg hz, if_neg (by omega)]
  have hother : ∀ r, ¬ (r = x.runnable ∧ auto x.runnable = true) →
      (o.deref (auto x.runnable) x.runnable).deleted r = o.deleted r := by
    intro r hr
    by_cases hrx : r = x.runnable
    · have ha : auto x.runnable = false := Bool.eq_false_iff.mpr fun ha => hr ⟨hrx, ha⟩
      rw [ha]
      rfl
    · exact Objects.deref_deleted_ne o _ hrx
  refine ⟨hrefs, fun p => ?_, by rw [hsub]; exact h.numbered, fun r hr => ?_, fun r => ?_,
    fun r har hmost => ?_⟩
  · have := h.placed p
    have := hp p
    have := hout p
    rw [hsub, htaken]
    omega
  · by_cases hrx : r = x.runnable ∧ auto x.runnable = true
    · obtain ⟨rfl, ha⟩ := hrx
      rw [(hself ha).2] at hr
      by_contra hz
      exact hr (if_neg hz)
    · rw [hother r hrx] at hr
      have := h.dead r hr
      have := hp (fun y => decide (y.runnable = r))
      omega
  · by_cases hrx : r = x.runnable ∧ auto x.runnable = true
    · obtain ⟨rfl, ha⟩ := hrx
      rw [(hself ha).2]
      split <;> omega
    · rw [hother r hrx]
      exact h.deleted_once r
  · rw [hsub] at hmost
    have hbefore := h.deleted_iff r har hmost
    have hout' := hout (fun y => decide (y.runnable = r))
    have htotal := h.placed (fun y => decide (y.runnable = r))
    have hpr := hp (fun y => decide (y.runnable = r))
    by_cases hrx : r = x.runnable
    · -- its only submission was this one
      subst hrx
      unfold countOf at hone hmost hbefore ⊢
      rw [(hself har).2, if_pos (by omega)]
      omega
    · have hnone := countOf_single r x
      rw [if_neg (Ne.symm hrx)] at hnone
      rw [hother r fun he => hrx he.1, hbefore]
      unfold countOf at hnone ⊢
      omega

/-- `clear` drops the queued tasks one after the other. -/
theorem clear :
    ∀ {xs : List (Task R)} {pend pend' : (Task R → Bool) → Nat} {o : Objects R} {log : Log R},
      Books auto pend o log → (∀ p, pend p = tally p xs + pend' p) →
      Books auto pend' (xs.foldl St.clearOne o) { log with cleared := log.cleared ++ xs }
  | [], pend, pend', o, log, h, hp => by
    rw [List.append_nil]
    exact h.congr fun p => by rw [hp p, tally_nil, Nat.zero_add]
  | x :: xs, pend, pend', o, log, h, hp => by
    have hstep : Books auto (fun p => tally p xs + pend' p) (St.clearOne o x)
        { log with cleared := log.cleared ++ [x] } := by
      unfold St.clearOne
      rw [h.autoDelete]
      refine h.drop (fun p => ?_) rfl rfl (fun p => ?_)
      · rw [hp p, tally_cons]
        omega
      · show tally p log.done + tally p (log.cleared ++ [x]) = _
        rw [tally_append]
        omega
    have hrest := hstep.clear (fun p => show _ = tally p xs + pend' p from rfl)
    simpa using hrest

/-- `--m_ref`, without a deletion, for a task that is taken back. -/
theorem take {x : Task R} (h : Books auto pend o log) (hp : ∀ p, pend p = tally p [x] + pend' p) :
    Books auto pend' (o.decRef x.runnable) { log with taken := log.taken ++ [x] } := by
  have hdel : (o.decRef x.runnable).deleted = o.deleted := by
    unfold Objects.decRef
    split <;> rfl
  refine ⟨?_, ?_, h.numbered, ?_, ?_, ?_⟩
  · unfold Objects.decRef
    rw [h.autoDelete]
    refine h.shift_refs fun r => ?_
    have := hp (fun y => decide (y.runnable = r))
    simp only [countOf]
    omega
  · intro p
    show pend' p + tally p log.done + tally p (log.taken ++ [x]) + tally p log.cleared =
      tally p log.submitted
    have := h.placed p
    have := hp p
    rw [tally_append]
    omega
  · intro r hr
    rw [hdel] at hr
    have := h.dead r hr
    have := hp (fun y => decide (y.runnable = r))
    omega
  · intro r
    rw [hdel]
    exact h.deleted_once r
  · intro r ha hone
    rw [hdel]
    exact h.deleted_iff r ha hone

end Books

end Libpdk.Thread.Pool

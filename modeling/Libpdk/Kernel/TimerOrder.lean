import Libpdk.Core.Lts
import Libpdk.Kernel.TimerInfoList

/-!
# Timers in due order

What the timer list is to be: every timer behind those that are not due later
(`place`), and each timer that is due fired once and placed again (`fireAll`). The
list of the source is that list as long as every insertion is `Placed`.
-/
namespace Libpdk.Kernel

/-! ## The list that the timers are to be in -/

def Sorted (l : List TimerInfo) : Prop := l.Pairwise fun t u => t.timeout ≤ u.timeout

/-- Behind the timers that are not due later. -/
def place (t : TimerInfo) (l : List TimerInfo) : List TimerInfo :=
  l.filter (·.timeout ≤ t.timeout) ++ t :: l.filter (t.timeout < ·.timeout)

/-- The timers that are due. -/
def due (now : Timespec) (l : List TimerInfo) : List TimerInfo := l.filter (·.timeout ≤ now)

/-- A fired timer is placed again. -/
def refire (now : Timespec) (l : List TimerInfo) (t : TimerInfo) : List TimerInfo :=
  place (calculateNextTimeout t now) (l.filter (·.id ≠ t.id))

/-- Every timer that is due is fired once. -/
def fireAll (now : Timespec) (l : List TimerInfo) : List TimerInfo :=
  (due now l).foldl (refire now) l

/-- What a wait is to be: until the earliest timer that is not active, or none. -/
def WaitSpec (now : Timespec) (l : List TimerInfo) : Option Timespec → Prop
  | none => ∀ t ∈ l, t.active = true
  | some tm =>
    (∃ t ∈ l, t.active = false ∧ (∀ u ∈ l, u.active = false → t.timeout ≤ u.timeout) ∧
      t.timeout.nsecs ≤ now.nsecs + tm.nsecs) ∧
    (tm = ⟨0, 0⟩ ↔ ∃ t ∈ l, t.active = false ∧ t.timeout ≤ now)

/-! ## Placing -/

section Place

variable {t u : TimerInfo} {l : List TimerInfo}

theorem mem_place : u ∈ place t l ↔ u = t ∨ u ∈ l := by
  simp only [place, List.mem_append, List.mem_cons, List.mem_filter, decide_eq_true_eq]
  rcases le_or_gt u.timeout t.timeout with h | h
  · simp only [h, not_lt.mpr h, and_true, and_false, or_false]
    exact or_comm
  · simp only [h, not_le.mpr h, and_true, and_false, false_or]

theorem place_perm (t : TimerInfo) (l : List TimerInfo) : (place t l).Perm (t :: l) := by
  refine List.perm_middle.trans (List.Perm.cons t ?_)
  have hneg : l.filter (t.timeout < ·.timeout) =
      l.filter fun u => !decide (u.timeout ≤ t.timeout) :=
    List.filter_congr fun u _ => by simp only [← not_le, decide_not]
  rw [hneg]
  exact List.filter_append_perm _ l

theorem Sorted.place (h : Sorted l) : Sorted (place t l) := by
  refine List.pairwise_append.mpr ⟨h.filter _, List.pairwise_cons.mpr ⟨?_, h.filter _⟩, ?_⟩
  · intro u hu
    exact le_of_lt (by simpa using (List.mem_filter.mp hu).2)
  · intro u hu v hv
    have hut : u.timeout ≤ t.timeout := by simpa using (List.mem_filter.mp hu).2
    rcases List.mem_cons.mp hv with rfl | hv
    · exact hut
    · have htv : t.timeout < v.timeout := by simpa using (List.mem_filter.mp hv).2
      exact hut.trans htv.le

theorem place_front (h : ∀ u ∈ l, t.timeout < u.timeout) : place t l = t :: l := by
  have hnil : l.filter (·.timeout ≤ t.timeout) = [] :=
    List.filter_eq_nil_iff.mpr fun u hu => by simpa using h u hu
  have hall : l.filter (t.timeout < ·.timeout) = l :=
    List.filter_eq_self.mpr fun u hu => by simpa using h u hu
  rw [place, hnil, hall, List.nil_append]

theorem place_cons (h : u.timeout ≤ t.timeout) : place t (u :: l) = u :: place t l := by
  simp only [place, List.filter_cons, h, not_lt.mpr h, decide_true, decide_false, if_true,
    Bool.false_eq_true, if_false, List.cons_append]

end Place

/-! ## When an insertion is right -/

section Placed

variable {pastEnd : List TimerInfo → Nat} {t u v : TimerInfo} {l : List TimerInfo}

/-- The walk of `timerInsert` stops at the first timer; so the second one has to be
due after the new one, and where there is no stop the end has to lead to the front. -/
def Placed (pastEnd : List TimerInfo → Nat) (t : TimerInfo) (l : List TimerInfo) : Prop :=
  (∀ u ∈ l.tail.head?, t.timeout < u.timeout) ∧
    (l ≠ [] → (∀ u ∈ l, t.timeout < u.timeout) → pastEnd l = 0)

instance (t : TimerInfo) (l : List TimerInfo) : Decidable (Placed pastEnd t l) := by
  unfold Placed
  infer_instance

theorem Sorted.lt_of_head (h : Sorted l) (hlt : ∀ u ∈ l.head?, t.timeout < u.timeout) :
    ∀ u ∈ l, t.timeout < u.timeout := by
  cases l with
  | nil => exact fun u hu => absurd hu (by simp)
  | cons v l =>
    have hv : t.timeout < v.timeout := hlt v rfl
    intro u hu
    rcases List.mem_cons.mp hu with rfl | hu
    · exact hv
    · exact hv.trans_le (List.rel_of_pairwise_cons h hu)

theorem timerInsert_behind (h : u.timeout ≤ t.timeout) :
    timerInsert pastEnd t (u :: l) = u :: t :: l := by
  simp [timerInsert, List.findIdx_cons, not_lt.mpr h]

theorem timerInsert_none (h : ∀ u ∈ l, t.timeout < u.timeout) :
    timerInsert pastEnd t l = l.take (pastEnd l) ++ t :: l.drop (pastEnd l) := by
  have hi : (l.findIdx fun u => !decide (t.timeout < u.timeout)) = l.length :=
    List.findIdx_eq_length.mpr fun u hu => by simpa using h u hu
  simp only [timerInsert, hi, Nat.lt_irrefl, if_false]

theorem timerInsert_eq_place (h : Sorted l) (hp : Placed pastEnd t l) :
    timerInsert pastEnd t l = place t l := by
  cases l with
  | nil => simp [timerInsert, place]
  | cons u l =>
    rcases le_or_gt u.timeout t.timeout with hut | htu
    · rw [timerInsert_behind hut, place_cons hut,
        place_front (Sorted.lt_of_head (l := l) h.tail hp.1)]
    · have hall := h.lt_of_head (t := t) fun v hv => by cases hv; exact htu
      rw [timerInsert_none hall, hp.2 (by simp) hall, place_front hall]
      rfl

end Placed

/-! ## Waiting -/

theorem timerWait_spec {now : Timespec} {l : List TimerInfo} (h : Sorted l) (hnow : now.Normal)
    (hl : ∀ t ∈ l, t.timeout.Normal) : WaitSpec now l (timerWait now l) := by
  unfold timerWait
  cases hfind : l.find? fun t => !t.active with
  | none => exact fun t ht => by simpa using List.find?_eq_none.mp hfind t ht
  | some t =>
    obtain ⟨hact, as, bs, rfl, has⟩ := List.find?_eq_some_iff_append.mp hfind
    have hta : t.active = false := by simpa using hact
    have htn := hl t (by simp)
    obtain ⟨-, hbs, -⟩ := List.pairwise_append.mp h
    have hfirst : ∀ u ∈ as ++ t :: bs, u.active = false → t.timeout ≤ u.timeout := by
      intro u hu hua
      rcases List.mem_append.mp hu with hu | hu
      · have := has u hu
        simp [hua] at this
      · rcases List.mem_cons.mp hu with rfl | hu
        · exact le_rfl
        · exact List.rel_of_pairwise_cons hbs hu
    by_cases hlt : now < t.timeout
    · simp only [if_pos hlt]
      have hpos := (Timespec.lt_iff_nsecs hnow htn).mp hlt
      have hround := Timespec.lt_roundToMillisecond (t.timeout - now)
      rw [Timespec.sub_nsecs] at hround
      refine ⟨⟨t, by simp, hta, hfirst, by omega⟩, fun hz => ?_, fun hz => ?_⟩
      · rw [hz] at hround
        exact absurd hround (by simp only [Timespec.nsecs] at hpos ⊢; omega)
      · obtain ⟨u, hu, hua, hunow⟩ := hz
        exact absurd (hlt.trans_le ((hfirst u hu hua).trans hunow)) (lt_irrefl _)
    · simp only [if_neg hlt]
      have hle := (Timespec.le_iff_nsecs htn hnow).mp (not_lt.mp hlt)
      refine ⟨⟨t, by simp, hta, hfirst, ?_⟩, fun _ => ⟨t, by simp, hta, not_lt.mp hlt⟩, fun _ => rfl⟩
      simp only [Timespec.nsecs] at hle ⊢
      omega

/-! ## Firing -/

/-- What holds between the operations. -/
structure Good (l : List TimerInfo) : Prop where
  sorted : Sorted l
  nodup : (l.map TimerInfo.id).Nodup
  idle : ∀ t ∈ l, t.active = false
  normal : ∀ t ∈ l, t.timeout.Normal

section Fire

variable {pastEnd : List TimerInfo → Nat} {t a b : TimerInfo} {l rest : List TimerInfo}
  {now : Timespec}

theorem Good.tail (h : Good (t :: l)) : Good l :=
  ⟨h.sorted.tail, (List.nodup_cons.mp h.nodup).2, fun u hu => h.idle u (by simp [hu]),
    fun u hu => h.normal u (by simp [hu])⟩

theorem Good.filter (h : Good l) (p : TimerInfo → Bool) : Good (l.filter p) :=
  ⟨h.sorted.filter p, h.nodup.sublist (List.filter_sublist.map _),
    fun u hu => h.idle u (List.mem_filter.mp hu).1,
    fun u hu => h.normal u (List.mem_filter.mp hu).1⟩

theorem Good.place (h : Good l) (hid : t.id ∉ l.map TimerInfo.id) (hidle : t.active = false)
    (hn : t.timeout.Normal) : Good (place t l) := by
  refine ⟨h.sorted.place, ?_, fun u hu => ?_, fun u hu => ?_⟩
  · rw [((place_perm t l).map TimerInfo.id).nodup_iff, List.map_cons, List.nodup_cons]
    exact ⟨hid, h.nodup⟩
  · rcases mem_place.mp hu with rfl | hu
    · exact hidle
    · exact h.idle u hu
  · rcases mem_place.mp hu with rfl | hu
    · exact hn
    · exact h.normal u hu

/-- Without the timer in front. -/
theorem Good.others (h : Good (t :: l)) : (t :: l).filter (·.id ≠ t.id) = l := by
  have hid := (List.nodup_cons.mp h.nodup).1
  rw [List.filter_cons_of_neg (by simp)]
  refine List.filter_eq_self.mpr fun u hu => ?_
  have hne : u.id ≠ t.id := fun he => hid (he ▸ List.mem_map_of_mem hu)
  simpa using hne

/-! ### The next timeout -/

theorem calculateNextTimeout_eq (t : TimerInfo) (now : Timespec) :
    ∃ timeout, calculateNextTimeout t now = { t with timeout := timeout } := by
  obtain ⟨id, interval, timerType, timeout, obj, active⟩ := t
  cases timerType <;> exact ⟨_, rfl⟩

theorem or_toNat_le (x : Nat) (b : Bool) : x ||| b.toNat ≤ x / 2 * 2 + 1 := by
  have h : (x ||| b.toNat) / 2 = x / 2 := by
    rw [Nat.or_div_two]
    cases b <;> simp
  omega

theorem coarseMsec_le (interval : Nat) {msec : Nat} (h : msec < 1000) :
    coarseMsec interval msec ≤ 1000 := by
  unfold coarseMsec
  simp only
  split
  · have h₁ := or_toNat_le (msec >>> 1) (decide (25 ≤ msec % 50))
    have h₂ := or_toNat_le (msec >>> 2) (decide (50 ≤ msec % 100))
    simp only [Nat.shiftRight_eq_div_pow, Nat.shiftLeft_eq] at h₁ h₂ ⊢
    split <;> omega
  · have hmax : Nat.min 1000 (msec + interval / 20) ≤ 1000 := Nat.min_le_left _ _
    have hbase := Nat.div_mul_le_self msec (wantedBoundaryMultiple interval)
    split
    · omega
    · split
      · omega
      · split
        · split <;> omega
        · split
          · exact Nat.max_le.mpr ⟨by omega, by omega⟩
          · exact (Nat.min_le_right _ _).trans hmax

theorem calculateCoarseTimerTimeout_normal (ht : t.timeout.Normal) :
    (calculateCoarseTimerTimeout t now).timeout.Normal := by
  unfold Timespec.Normal at ht
  have hle := coarseMsec_le t.interval (show t.timeout.nsec.toNat / 1000 / 1000 < 1000 by omega)
  unfold calculateCoarseTimerTimeout
  simp only
  generalize coarseMsec t.interval (t.timeout.nsec.toNat / 1000 / 1000) = msec at hle ⊢
  have hraw : (if msec = 1000 then (⟨t.timeout.sec + 1, 0⟩ : Timespec)
      else ⟨t.timeout.sec, (msec * 1000 * 1000 : Nat)⟩).Normal := by
    unfold Timespec.Normal
    split <;> simp only <;> omega
  generalize (if msec = 1000 then (⟨t.timeout.sec + 1, 0⟩ : Timespec)
    else ⟨t.timeout.sec, (msec * 1000 * 1000 : Nat)⟩) = raw at hraw ⊢
  split
  · exact Timespec.addMsecs_normal _ _
  · exact hraw

theorem calculateNextTimeout_normal (now : Timespec) (ht : t.timeout.Normal) :
    (calculateNextTimeout t now).timeout.Normal := by
  have hadd : ∀ u : TimerInfo, ({ u with
      timeout := if t.timeout.addMsecs t.interval < now then now.addMsecs t.interval
        else t.timeout.addMsecs t.interval } : TimerInfo).timeout.Normal := by
    intro u
    simp only
    split <;> exact Timespec.addMsecs_normal _ _
  unfold calculateNextTimeout
  cases htype : t.timerType with
  | precise =>
    simp only [reduceCtorEq, if_false]
    exact hadd t
  | coarse =>
    simp only [if_true]
    exact calculateCoarseTimerTimeout_normal (hadd t)
  | veryCoarse =>
    exact ht

theorem newTimer_normal (id interval : Nat) (timerType : TimerType) (obj : Nat) (now : Timespec) :
    (newTimer id interval timerType obj now).timeout.Normal := by
  have hadd := Timespec.addMsecs_normal now interval
  have hvery : (veryCoarseTimer id interval obj now).timeout.Normal := by
    unfold veryCoarseTimer Timespec.Normal
    simp
  unfold newTimer
  simp only
  split
  · exact hadd
  · split
    · exact hvery
    · split
      · exact hadd
      · exact calculateCoarseTimerTimeout_normal hadd
  · exact hvery

theorem newTimer_fields (id interval : Nat) (timerType : TimerType) (obj : Nat) (now : Timespec) :
    (newTimer id interval timerType obj now).id = id ∧
      (newTimer id interval timerType obj now).obj = obj ∧
      (newTimer id interval timerType obj now).active = false := by
  unfold newTimer
  simp only
  split
  · exact ⟨rfl, rfl, rfl⟩
  · split
    · exact ⟨rfl, rfl, rfl⟩
    · split <;> exact ⟨rfl, rfl, rfl⟩
  · exact ⟨rfl, rfl, rfl⟩

/-! ### One timer -/

theorem setActive_restore (h : ∀ t ∈ l, t.active = false) (id : Nat) :
    setActive id false (setActive id true l) = l := by
  unfold setActive
  rw [List.map_map]
  conv_rhs => rw [← List.map_id l]
  refine List.map_congr_left fun t ht => ?_
  have hidle := h t ht
  obtain ⟨id', interval, timerType, timeout, obj, active⟩ := t
  by_cases he : id' = id <;> simp [he]
  exact hidle

theorem setActive_timeouts (id : Nat) (b : Bool) (l : List TimerInfo) :
    (setActive id b l).map TimerInfo.timeout = l.map TimerInfo.timeout := by
  unfold setActive
  rw [List.map_map]
  refine List.map_congr_left fun t _ => ?_
  by_cases he : t.id = id <;> simp [he]

/-- What a handler finds. -/
structure Shown (l : List TimerInfo) : Prop where
  sorted : Sorted l
  normal : ∀ t ∈ l, t.timeout.Normal

theorem Good.shown (h : Good l) (id : Nat) : Shown (setActive id true l) := by
  constructor
  · have := List.pairwise_map.mpr h.sorted
    rw [← setActive_timeouts id true l] at this
    exact List.pairwise_map.mp this
  · intro t ht
    have hmem : t.timeout ∈ l.map TimerInfo.timeout := by
      rw [← setActive_timeouts id true l]
      exact List.mem_map_of_mem ht
    obtain ⟨u, hu, heq⟩ := List.mem_map.mp hmem
    rw [← heq]
    exact h.normal u hu

/-- The timer in front fires and is placed again. -/
theorem fireLoop_step (h : Good (t :: l)) (hdue : t.timeout ≤ now) (first : Option TimerInfo)
    (hfirst : ∀ f ∈ first, f.id ≠ t.id) {t' : TimerInfo} (ht' : calculateNextTimeout t now = t')
    (hp : Placed pastEnd t' l) (maxCount nAct : Nat) :
    Good (place t' l) ∧ ∃ first', (∀ f ∈ first', f.id = t.id ∨ f ∈ first) ∧
      ∀ n sent l', fireLoop pastEnd now maxCount first'
          (if 0 < t.interval then nAct + 1 else nAct) (place t' l) = (n, sent, l') →
        fireLoop pastEnd now (maxCount + 1) first nAct (t :: l) =
          (n, ⟨t', setActive t.id true (place t' l)⟩ :: sent, l') := by
  obtain ⟨timeout, heq⟩ := calculateNextTimeout_eq t now
  have hnormal := calculateNextTimeout_normal now (h.normal t (by simp))
  rw [ht'] at heq hnormal
  have hid : t'.id = t.id := by rw [heq]
  have hint : t'.interval = t.interval := by rw [heq]
  have hidle : t'.active = false := by
    rw [heq]
    exact h.idle t (by simp)
  have hgood : Good (place t' l) :=
    h.tail.place (by rw [hid]; exact (List.nodup_cons.mp h.nodup).1) hidle hnormal
  refine ⟨hgood, if first.all (t.interval ≤ ·.interval) then some t else first, ?_, ?_⟩
  · intro f hf
    split at hf
    · cases hf
      exact .inl rfl
    · exact .inr hf
  · intro n sent l' hrest
    have hany : first.any (·.id = t.id) = false := by
      cases first with
      | none => rfl
      | some f => simpa using hfirst f rfl
    rw [fireLoop, if_neg (not_lt.mpr hdue), if_neg (by rw [hany]; simp)]
    simp only [ht', hid, hint, hidle, timerInsert_eq_place h.tail.sorted hp,
      setActive_restore hgood.idle, Bool.false_eq_true, if_false, hrest]

/-! ### All timers that are due -/

theorem due_eq_nil (h : ∀ t ∈ l, now < t.timeout) : due now l = [] :=
  List.filter_eq_nil_iff.mpr fun t ht => by simpa using h t ht

theorem due_cons (h : t.timeout ≤ now) : due now (t :: l) = t :: due now l := by
  simp [due, h]

theorem Sorted.due_append (h : Sorted l) (now : Timespec) :
    l = due now l ++ l.filter (now < ·.timeout) ∧
      (l.takeWhile fun t => !decide (now < t.timeout)) = due now l := by
  induction l with
  | nil => exact ⟨rfl, rfl⟩
  | cons t l ih =>
    obtain ⟨ihl, ihw⟩ := ih h.tail
    rcases le_or_gt t.timeout now with hle | hlt
    · refine ⟨?_, ?_⟩
      · rw [due_cons hle, List.filter_cons_of_neg (by simpa using hle), List.cons_append, ← ihl]
      · rw [due_cons hle, List.takeWhile_cons_of_pos (by simpa using hle), ihw]
    · have hall : ∀ u ∈ t :: l, now < u.timeout := by
        intro u hu
        rcases List.mem_cons.mp hu with rfl | hu
        · exact hlt
        · exact hlt.trans_le (List.rel_of_pairwise_cons h hu)
      refine ⟨?_, ?_⟩
      · rw [due_eq_nil hall, List.nil_append]
        exact (List.filter_eq_self.mpr fun u hu => by simpa using hall u hu).symm
      · rw [due_eq_nil hall, List.takeWhile_cons_of_neg (by simpa using hlt)]

/-- At most two timers are due, the first one goes behind the second one, and both
insertions are right. -/
def SteadyFire (pastEnd : List TimerInfo → Nat) (now : Timespec) (l : List TimerInfo) : Prop :=
  match due now l with
  | [] => True
  | [a] => Placed pastEnd (calculateNextTimeout a now) (l.drop 1)
  | [a, b] =>
    b.timeout ≤ (calculateNextTimeout a now).timeout ∧
      Placed pastEnd (calculateNextTimeout a now) (b :: l.drop 2) ∧
      Placed pastEnd (calculateNextTimeout b now) (calculateNextTimeout a now :: l.drop 2)
  | _ => False

instance (now : Timespec) (l : List TimerInfo) : Decidable (SteadyFire pastEnd now l) := by
  unfold SteadyFire
  split <;> infer_instance

/-- The timers that a list holds, by id and object. -/
def keysOf (l : List TimerInfo) : List (Nat × Nat) := l.map fun t => (t.id, t.obj)

/-- What firing the timers is to be. -/
structure FireSpec (now : Timespec) (l : List TimerInfo) (nAct : Nat) (sent : List Sent)
    (l' : List TimerInfo) : Prop where
  list : l' = fireAll now l
  events : sent.map (fun e => (e.timer.id, e.timer.obj)) = (due now l).map fun t => (t.id, t.obj)
  count : nAct = ((due now l).filter (0 < ·.interval)).length
  during : ∀ e ∈ sent, Shown e.during

theorem getActivateTimers_spec (h : Good l) (hs : SteadyFire pastEnd now l) :
    ∃ nAct sent l', getActivateTimers pastEnd now l = (nAct, sent, l') ∧ Good l' ∧
      FireSpec now l nAct sent l' ∧ (keysOf l').Perm (keysOf l) := by
  obtain ⟨hsplit, hwhile⟩ := h.sorted.due_append now
  unfold SteadyFire at hs
  unfold getActivateTimers
  rw [hwhile]
  by_cases hnil : l = []
  · subst hnil
    exact ⟨0, [], [], rfl, h, ⟨rfl, rfl, rfl, fun e he => absurd he (by simp)⟩, List.Perm.refl _⟩
  rw [if_neg (by simpa [disableLowpriorityTimers] using hnil)]
  cases hdue : due now l with
  | nil =>
    refine ⟨0, [], l, rfl, h, ⟨?_, by rw [hdue]; rfl, by rw [hdue]; rfl,
      fun e he => absurd he (by simp)⟩, List.Perm.refl _⟩
    rw [fireAll, hdue]
    rfl
  | cons a ds =>
    have hdues : ∀ t ∈ a :: ds, t.timeout ≤ now := by
      intro t ht
      rw [← hdue] at ht
      simpa using (List.mem_filter.mp ht).2
    generalize l.filter (now < ·.timeout) = rest at hsplit
    rw [hdue] at hsplit hs
    obtain ⟨atimeout, ha⟩ := calculateNextTimeout_eq a now
    cases ds with
    | nil =>
      simp only [hsplit, List.cons_append, List.nil_append, List.drop_one, List.tail_cons] at hs
      have hga : Good (a :: rest) := by
        rw [hsplit] at h
        exact h
      obtain ⟨hg, first', -, hstep⟩ := fireLoop_step hga (hdues a (by simp)) none
        (fun f hf => absurd hf (by simp)) rfl hs 0 0
      refine ⟨_, _, _, by rw [hsplit]; exact hstep _ _ _ rfl, hg, ⟨?_, ?_, ?_, ?_⟩, ?_⟩
      · rw [fireAll, hdue, List.foldl_cons, List.foldl_nil, refire, hsplit]
        exact congrArg _ hga.others.symm
      · simp [hdue, ha]
      · by_cases hi : 0 < a.interval <;> simp [hdue, hi]
      · intro e he
        obtain rfl := List.mem_singleton.mp he
        exact hg.shown _
      · have hperm := (place_perm (calculateNextTimeout a now) rest).map fun t => (t.id, t.obj)
        rw [hsplit]
        simpa [keysOf, ha] using hperm
    | cons b ds =>
      cases ds with
      | cons c ds => exact hs.elim
      | nil =>
        simp only [hsplit, List.cons_append, List.nil_append, List.drop_succ_cons,
          List.drop_zero] at hs
        obtain ⟨hba, hpa, hpb⟩ := hs
        have hgab : Good (a :: b :: rest) := by
          rw [hsplit] at h
          exact h
        obtain ⟨btimeout, hb⟩ := calculateNextTimeout_eq b now
        have hmid : place (calculateNextTimeout a now) (b :: rest) =
            b :: calculateNextTimeout a now :: rest := by
          rw [place_cons hba, place_front (Sorted.lt_of_head (l := rest)
            hgab.tail.tail.sorted hpa.1)]
        obtain ⟨hg₁, first', hfirst', hstep₁⟩ := fireLoop_step hgab (hdues a (by simp))
          none (fun f hf => absurd hf (by simp)) rfl hpa 1 0
        have hshown := hg₁.shown a.id
        rw [hmid] at hg₁ hstep₁ hshown
        have hne : a.id ≠ b.id := fun he => (List.nodup_cons.mp hgab.nodup).1 (by simp [he])
        obtain ⟨hg₂, first'', -, hstep₂⟩ := fireLoop_step hg₁ (hdues b (by simp))
          first' (fun f hf => by
            rcases hfirst' f hf with hid | hf
            · rw [hid]
              exact hne
            · cases hf) rfl hpb 0 (if 0 < a.interval then 0 + 1 else 0)
        refine ⟨_, _, _, by rw [hsplit]; exact hstep₁ _ _ _ (hstep₂ _ _ _ rfl), hg₂,
          ⟨?_, ?_, ?_, ?_⟩, ?_⟩
        · rw [fireAll, hdue, List.foldl_cons, List.foldl_cons, List.foldl_nil, hsplit, refire, refire]
          have hothers : ([a, b] ++ rest).filter (·.id ≠ a.id) = b :: rest := hgab.others
          rw [hothers, hmid, hg₁.others]
        · simp [hdue, ha, hb]
        · by_cases hi : 0 < a.interval <;> by_cases hj : 0 < b.interval <;> simp [hdue, hi, hj]
        · intro e he
          rcases List.mem_cons.mp he with rfl | he
          · exact hshown
          · obtain rfl := List.mem_singleton.mp he
            exact hg₂.shown _
        · have hperm := (place_perm (calculateNextTimeout b now)
            (calculateNextTimeout a now :: rest)).map fun t => (t.id, t.obj)
          rw [hsplit]
          refine List.Perm.trans (by simpa [keysOf, ha, hb] using hperm) (List.Perm.swap _ _ _)

end Fire

/-! ## Runs -/

/-- An operation, with the clock as it reads it. -/
inductive Op
  | registerTimer (id interval : Nat) (timerType : TimerType) (obj : Nat) (now : Timespec)
  | unregisterTimer (id : Nat)
  | unregisterTimers (obj : Nat)
  | timerWait (now : Timespec)
  | getActivateTimers (now : Timespec)
  deriving DecidableEq, Repr

inductive Out
  | done
  | flag (b : Bool)
  | wait (tm : Option Timespec)
  | fired (nAct : Nat) (sent : List Sent)
  deriving DecidableEq, Repr

/-- The timers and `m_currentTime`. -/
structure TimerState where
  timers : List TimerInfo
  currentTime : Timespec
  deriving DecidableEq, Repr

def perform (pastEnd : List TimerInfo → Nat) (s : TimerState) : Op → Out × TimerState
  | .registerTimer id interval timerType obj now =>
    (.done, ⟨timerInsert pastEnd (newTimer id interval timerType obj now) s.timers, now⟩)
  | .unregisterTimer id =>
    let r := unregisterTimer id s.timers
    (.flag r.1, { s with timers := r.2 })
  | .unregisterTimers obj =>
    let r := unregisterTimers obj s.timers
    (.flag r.1, { s with timers := r.2 })
  | .timerWait now => (.wait (timerWait now s.timers), { s with currentTime := now })
  | .getActivateTimers now =>
    let r := getActivateTimers pastEnd now s.timers
    (.fired r.1 r.2.1, ⟨r.2.2, if s.timers.isEmpty then s.currentTime else now⟩)

/-- The clock does not go back, and ids are distinct. -/
def Op.Valid (s : TimerState) : Op → Prop
  | .registerTimer id _ _ _ now => id ∉ s.timers.map TimerInfo.id ∧ now.Normal ∧ s.currentTime ≤ now
  | .timerWait now | .getActivateTimers now => now.Normal ∧ s.currentTime ≤ now
  | .unregisterTimer _ | .unregisterTimers _ => True

/-- What an operation is to do and to return. -/
def Spec (l : List TimerInfo) : Op → Out → List TimerInfo → Prop
  | .registerTimer id interval timerType obj now, out, l' =>
    out = .done ∧ l' = place (newTimer id interval timerType obj now) l
  | .unregisterTimer id, out, l' =>
    out = .flag (l.any (·.id = id)) ∧ l' = l.filter (·.id ≠ id)
  | .unregisterTimers obj, out, l' => out = .flag (!l.isEmpty) ∧ l' = l.filter (·.obj ≠ obj)
  | .timerWait now, out, l' => (∃ tm, out = .wait tm ∧ WaitSpec now l tm) ∧ l' = l
  | .getActivateTimers now, out, l' =>
    ∃ nAct sent, out = .fired nAct sent ∧ FireSpec now l nAct sent l'

/-- A step whose insertions are right. -/
def Steady (pastEnd : List TimerInfo → Nat) (s : TimerState) : Op → Prop
  | .registerTimer id interval timerType obj now =>
    Placed pastEnd (newTimer id interval timerType obj now) s.timers
  | .getActivateTimers now => SteadyFire pastEnd now s.timers
  | .unregisterTimer _ | .unregisterTimers _ | .timerWait _ => True

instance (pastEnd : List TimerInfo → Nat) (s : TimerState) (op : Op) :
    Decidable (Steady pastEnd s op) := by
  unfold Steady
  split <;> infer_instance

def timerSystem (pastEnd : List TimerInfo → Nat) : Lts TimerState (Op × Out) where
  init s := s.timers = []
  step s l s' := l.1.Valid s ∧ perform pastEnd s l.1 = (l.2, s')

def dueSystem : Lts (List TimerInfo) (Op × Out) where
  init l := l = []
  step l lab l' := Spec l lab.1 lab.2 l'

/-- What an operation does to the ids and objects that are registered. -/
def Op.register (keys : List (Nat × Nat)) : Op → List (Nat × Nat)
  | .registerTimer id _ _ obj _ => (id, obj) :: keys
  | .unregisterTimer id => keys.filter (·.1 ≠ id)
  | .unregisterTimers obj => keys.filter (·.2 ≠ obj)
  | .timerWait _ | .getActivateTimers _ => keys

def registered (keys : List (Nat × Nat)) (ls : List (Op × Out)) : List (Nat × Nat) :=
  ls.foldl (fun keys l => l.1.register keys) keys

/-! ### One step -/

section Step

variable {pastEnd : List TimerInfo → Nat} {l : List TimerInfo}

theorem keysOf_filter (p : Nat × Nat → Bool) (l : List TimerInfo) :
    keysOf (l.filter fun t => p (t.id, t.obj)) = (keysOf l).filter p := by
  rw [keysOf, keysOf, List.filter_map]
  rfl

theorem eraseP_eq_filter (h : (l.map TimerInfo.id).Nodup) (id : Nat) :
    l.eraseP (·.id = id) = l.filter (·.id ≠ id) := by
  induction l with
  | nil => rfl
  | cons t l ih =>
    rw [List.map_cons, List.nodup_cons] at h
    by_cases he : t.id = id
    · rw [List.eraseP_cons_of_pos (by simpa using he), List.filter_cons_of_neg (by simpa using he)]
      refine (List.filter_eq_self.mpr fun u hu => ?_).symm
      have hne : u.id ≠ id := fun hid => h.1 (by rw [he, ← hid]; exact List.mem_map_of_mem hu)
      simpa using hne
    · rw [List.eraseP_cons_of_neg (by simpa using he), List.filter_cons_of_pos (by simpa using he),
        ih h.2]

theorem unregisterTimer_eq (h : Good l) (id : Nat) :
    unregisterTimer id l = (l.any (·.id = id), l.filter (·.id ≠ id)) := by
  unfold unregisterTimer
  rw [eraseP_eq_filter h.nodup]
  by_cases hany : l.any (·.id = id) = true
  · rw [if_pos hany, hany]
  · rw [if_neg hany, Bool.eq_false_iff.mpr hany]
    refine congrArg _ (List.filter_eq_self.mpr fun t ht => ?_).symm
    have hne : t.id ≠ id := fun he => hany (List.any_eq_true.mpr ⟨t, ht, by simpa using he⟩)
    simpa using hne

theorem unregisterTimers_eq (l : List TimerInfo) (obj : Nat) :
    unregisterTimers obj l = (!l.isEmpty, l.filter (·.obj ≠ obj)) := by
  cases l <;> rfl

/-- A steady operation does and returns what it is to. -/
theorem Good.step {s : TimerState} (h : Good s.timers) {op : Op} (hv : op.Valid s)
    (hs : Steady pastEnd s op) :
    ∃ out s', perform pastEnd s op = (out, s') ∧ Good s'.timers ∧
      Spec s.timers op out s'.timers ∧
      (keysOf s'.timers).Perm (op.register (keysOf s.timers)) := by
  cases op with
  | registerTimer id interval timerType obj now =>
    obtain ⟨hid, hobj, hidle⟩ := newTimer_fields id interval timerType obj now
    refine ⟨_, _, rfl, ?_, ⟨rfl, timerInsert_eq_place h.sorted hs⟩, ?_⟩
    · rw [timerInsert_eq_place h.sorted hs]
      exact h.place (by rw [hid]; exact hv.1) hidle (newTimer_normal _ _ _ _ _)
    · rw [timerInsert_eq_place h.sorted hs]
      have hperm := (place_perm (newTimer id interval timerType obj now) s.timers).map
        fun t => (t.id, t.obj)
      rw [List.map_cons, hid, hobj] at hperm
      exact hperm
  | unregisterTimer id =>
    refine ⟨_, _, rfl, ?_, ?_, ?_⟩
    · simp only [unregisterTimer_eq h]
      exact h.filter _
    · simp only [Spec, unregisterTimer_eq h, and_self]
    · simp only [unregisterTimer_eq h]
      exact List.Perm.of_eq (keysOf_filter (fun k => k.1 ≠ id) _)
  | unregisterTimers obj =>
    refine ⟨_, _, rfl, ?_, ?_, ?_⟩
    · simp only [unregisterTimers_eq]
      exact h.filter _
    · simp only [Spec, unregisterTimers_eq, and_self]
    · simp only [unregisterTimers_eq]
      exact List.Perm.of_eq (keysOf_filter (fun k => k.2 ≠ obj) _)
  | timerWait now =>
    exact ⟨_, _, rfl, h, ⟨⟨_, rfl, timerWait_spec h.sorted hv.1 h.normal⟩, rfl⟩, List.Perm.refl _⟩
  | getActivateTimers now =>
    obtain ⟨nAct, sent, l', heq, hg, hspec, hkeys⟩ := getActivateTimers_spec h hs
    refine ⟨_, _, rfl, ?_, ?_, ?_⟩
    · simp only [heq]
      exact hg
    · simp only [heq]
      exact ⟨nAct, sent, rfl, hspec⟩
    · simp only [heq]
      exact hkeys

end Step

theorem Op.register_perm {keys keys' : List (Nat × Nat)} (h : keys.Perm keys') (op : Op) :
    (op.register keys).Perm (op.register keys') := by
  cases op with
  | registerTimer id interval timerType obj now => exact h.cons _
  | unregisterTimer id => exact h.filter _
  | unregisterTimers obj => exact h.filter _
  | timerWait now => exact h
  | getActivateTimers now => exact h

/-! ### All runs -/

theorem Good.run {pastEnd : List TimerInfo → Nat} {s₀ s : TimerState} {ls : List (Op × Out)}
    (hr : ((timerSystem pastEnd).restrict fun s l => Steady pastEnd s l.1).Run s₀ ls s) :
    ∀ keys, Good s₀.timers → (keysOf s₀.timers).Perm keys →
      dueSystem.Run s₀.timers ls s.timers ∧ Good s.timers ∧
        (keysOf s.timers).Perm (registered keys ls) := by
  induction hr with
  | nil s => exact fun keys hg hk => ⟨.nil _, hg, hk⟩
  | @cons s₀ s₁ s l ls hstep _ ih =>
    intro keys hg hk
    obtain ⟨⟨hv, hp⟩, hsteady⟩ := hstep
    obtain ⟨out, s', heq, hg', hspec, hkeys⟩ := hg.step hv hsteady
    rw [hp, Prod.mk.injEq] at heq
    obtain ⟨rfl, rfl⟩ := heq
    obtain ⟨hrun, hgood, hreg⟩ := ih _ hg' (hkeys.trans (Op.register_perm hk l.1))
    exact ⟨.cons hspec hrun, hgood, hreg⟩

theorem good_nil : Good [] :=
  ⟨List.Pairwise.nil, List.nodup_nil, fun t ht => absurd ht (by simp), fun t ht => absurd ht (by simp)⟩

/-- In every run whose insertions are right, the list is the one that the timers are
to be in, every operation returns what it is to, and the list holds every
registered timer once. -/
theorem timers_in_due_order (pastEnd : List TimerInfo → Nat) (s₀ s : TimerState)
    (ls : List (Op × Out)) (h₀ : s₀.timers = [])
    (hr : ((timerSystem pastEnd).restrict fun s l => Steady pastEnd s l.1).Run s₀ ls s) :
    dueSystem.Run [] ls s.timers ∧ Good s.timers ∧ (keysOf s.timers).Perm (registered [] ls) := by
  have := Good.run hr [] (by rw [h₀]; exact good_nil) (by rw [h₀]; exact List.Perm.refl _)
  rwa [h₀] at this

/-- The third timer goes behind the first one, before one that is due earlier. -/
theorem timers_in_due_order_false : ¬ ∀ (pastEnd : List TimerInfo → Nat) (s₀ s : TimerState)
    (ls : List (Op × Out)), s₀.timers = [] → (timerSystem pastEnd).Run s₀ ls s →
      dueSystem.Run [] ls s.timers ∧ Good s.timers ∧
        (keysOf s.timers).Perm (registered [] ls) := by
  intro h
  obtain ⟨-, hg, -⟩ := h (fun _ => 0) ⟨[], ⟨0, 0⟩⟩
    ⟨[⟨1, 1000, .precise, ⟨1, 0⟩, 0, false⟩, ⟨3, 2500, .precise, ⟨2, 500000000⟩, 0, false⟩,
      ⟨2, 2000, .precise, ⟨2, 0⟩, 0, false⟩], ⟨0, 0⟩⟩
    [(.registerTimer 1 1000 .precise 0 ⟨0, 0⟩, .done),
      (.registerTimer 2 2000 .precise 0 ⟨0, 0⟩, .done),
      (.registerTimer 3 2500 .precise 0 ⟨0, 0⟩, .done)] rfl
    (.cons ⟨⟨by decide, by decide, le_rfl⟩, rfl⟩ (.cons ⟨⟨by decide, by decide, le_rfl⟩, rfl⟩
      (.cons ⟨⟨by decide, by decide, le_rfl⟩, rfl⟩ (.nil _))))
  have hle : (⟨2, 500000000⟩ : Timespec) ≤ ⟨2, 0⟩ :=
    List.rel_of_pairwise_cons hg.sorted.tail (List.mem_singleton.mpr rfl)
  exact absurd hle (by decide)

/-- Two timers come, both fire, and one goes. -/
def twoTimers : List (Op × Out) :=
  [(.registerTimer 1 10 .precise 0 ⟨0, 0⟩, .done),
    (.registerTimer 2 20 .precise 5 ⟨0, 0⟩, .done),
    (.timerWait ⟨0, 0⟩, .wait (some ⟨0, 11000000⟩)),
    (.getActivateTimers ⟨0, 20000000⟩, .fired 2
      [⟨⟨1, 10, .precise, ⟨0, 20000000⟩, 0, false⟩, [⟨2, 20, .precise, ⟨0, 20000000⟩, 5, false⟩,
        ⟨1, 10, .precise, ⟨0, 20000000⟩, 0, true⟩]⟩,
      ⟨⟨2, 20, .precise, ⟨0, 40000000⟩, 5, false⟩, [⟨1, 10, .precise, ⟨0, 20000000⟩, 0, false⟩,
        ⟨2, 20, .precise, ⟨0, 40000000⟩, 5, true⟩]⟩]),
    (.unregisterTimer 2, .flag true)]

theorem twoTimers_in_due_order :
    dueSystem.Run [] twoTimers [⟨1, 10, .precise, ⟨0, 20000000⟩, 0, false⟩] :=
  (timers_in_due_order (fun _ => 0) ⟨[], ⟨0, 0⟩⟩
    ⟨[⟨1, 10, .precise, ⟨0, 20000000⟩, 0, false⟩], ⟨0, 20000000⟩⟩ twoTimers rfl
    (.cons ⟨⟨⟨by decide, by decide, le_rfl⟩, rfl⟩, by exact of_decide_eq_true rfl⟩
      (.cons ⟨⟨⟨by decide, by decide, le_rfl⟩, rfl⟩, by exact of_decide_eq_true rfl⟩
        (.cons ⟨⟨⟨by decide, le_rfl⟩, rfl⟩, trivial⟩
          (.cons ⟨⟨⟨by decide, by decide⟩, rfl⟩, by exact of_decide_eq_true rfl⟩
            (.cons ⟨⟨trivial, rfl⟩, trivial⟩ (.nil _))))))).1

end Libpdk.Kernel

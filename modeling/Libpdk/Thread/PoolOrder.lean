import Libpdk.Thread.PoolQueue

/-!
# The order of the task queue

What the queue is for: the tasks that wait are a list in the order in which they came, and the next
one is the first of those of the highest priority. The queue gives the same answers to every
sequence of operations, without a failed assertion (`none`), and no page of it is without a task
(`queue_order`).
-/
namespace Libpdk.Thread.Pool

variable {R : Type}

inductive Op (R : Type)
  | enqueueTask (x : Task R) (priority : Int)
  | takeFront
  | tryTake (r : R)

/-! ## What the queue does -/

section Runs

variable [DecidableEq R]

/-- A worker takes the first task of the page in front. -/
def Queue.step (q : Queue R) : Op R → Option (Queue R × Option (Task R))
  | .enqueueTask x priority => some (q.enqueue x priority, none)
  | .takeFront =>
    match q.pages with
    | [] => some (q, none)
    | page :: _ => page.first.map fun x => (q.popPage page.id, some x)
  | .tryTake r =>
    match q.tryTake r with
    | none => some (q, none)
    | some (x, q) => some (q, some x)

def Queue.run : List (Op R) → Queue R → Option (Queue R × List (Option (Task R)))
  | [], q => some (q, [])
  | op :: ops, q => do
    let (q, answer) ← q.step op
    let (q, answers) ← run ops q
    some (q, answer :: answers)

/-! ## What the queue is for -/

/-- The tasks that wait, with their priorities, in the order in which they came. -/
abbrev Waiting (R : Type) := List (Int × Task R)

/-- A task that meets `p`, and none that does has a greater priority. -/
def ahead (p : Task R → Bool) (waiting : Waiting R) (e : Int × Task R) : Bool :=
  p e.2 && waiting.all fun e' => !p e'.2 || decide (e'.1 ≤ e.1)

/-- The first task ahead is taken. -/
def Waiting.take (p : Task R → Bool) (waiting : Waiting R) : Waiting R × Option (Task R) :=
  (waiting.eraseP (ahead p waiting), (waiting.find? (ahead p waiting)).map Prod.snd)

def Waiting.step (waiting : Waiting R) : Op R → Waiting R × Option (Task R)
  | .enqueueTask x priority => (waiting ++ [(priority, x)], none)
  | .takeFront => waiting.take fun _ => true
  | .tryTake r => waiting.take fun x => x.runnable = r

def Waiting.run : List (Op R) → Waiting R → List (Option (Task R))
  | [], _ => []
  | op :: ops, waiting => (waiting.step op).2 :: run ops (waiting.step op).1

end Runs

/-! ## Sorting by priority -/

def ofPriority (k : Int) (waiting : Waiting R) : Waiting R := waiting.filter fun e => e.1 = k

/-- The list is the tasks that wait, sorted by falling priority; those of one priority keep their
order. -/
structure Sorts (sorted waiting : Waiting R) : Prop where
  falling : sorted.Pairwise fun a b => b.1 ≤ a.1
  stable : ∀ k, ofPriority k sorted = ofPriority k waiting

variable {sorted waiting : Waiting R}

theorem Sorts.mem_iff (h : Sorts sorted waiting) (e : Int × Task R) : e ∈ sorted ↔ e ∈ waiting := by
  have hmem (l : Waiting R) : e ∈ l ↔ e ∈ ofPriority e.1 l := by simp [ofPriority]
  rw [hmem, h.stable, ← hmem]

theorem ofPriority_eraseP (p : Task R → Bool) (k k' : Int) (l : Waiting R) :
    ofPriority k (l.eraseP fun e => p e.2 && decide (e.1 = k')) =
      if k = k' then (ofPriority k l).eraseP (fun e => p e.2) else ofPriority k l := by
  induction l with
  | nil => split <;> rfl
  | cons e l ih =>
    unfold ofPriority at ih ⊢
    rw [List.eraseP_cons, Bool.cond_eq_ite, List.filter_cons]
    by_cases he : (p e.2 && decide (e.1 = k')) = true
    · rw [if_pos he]
      rw [Bool.and_eq_true, decide_eq_true_iff] at he
      by_cases hk : k = k'
      · simp [hk, he.1, he.2]
      · simp [hk, he.2, Ne.symm hk]
    · rw [if_neg he, List.filter_cons, ih]
      rw [Bool.and_eq_true, decide_eq_true_iff, not_and] at he
      by_cases hk : k = k'
      · by_cases hek : e.1 = k
        · have hp : p e.2 = false := Bool.eq_false_iff.mpr fun hp => he hp (hek.trans hk)
          simp [hk, hek.trans hk, hp]
        · simp [hk, hk ▸ hek]
      · simp [hk]

theorem choice_congr {α : Type} {f g : α → Bool} {l : List α} (h : ∀ x ∈ l, f x = g x) :
    l.find? f = l.find? g ∧ l.eraseP f = l.eraseP g := by
  induction l with
  | nil => exact ⟨rfl, rfl⟩
  | cons x l ih =>
    rw [List.forall_mem_cons] at h
    obtain ⟨hfind, herase⟩ := ih h.2
    rw [List.find?_cons, List.find?_cons, List.eraseP_cons, List.eraseP_cons, h.1, hfind, herase]
    exact ⟨rfl, rfl⟩

/-- The first task of the sorted list that meets `p` is the one ahead. -/
theorem Sorts.take {p : Task R → Bool} {e : Int × Task R} {a b : Waiting R}
    (h : Sorts (a ++ e :: b) waiting) (ha : ∀ x ∈ a, p x.2 = false) (he : p e.2 = true) :
    (waiting.take p).2 = some e.2 ∧ Sorts (a ++ b) (waiting.take p).1 := by
  have hfall := h.falling
  rw [List.pairwise_append, List.pairwise_cons] at hfall
  have hmost : ∀ x ∈ waiting, p x.2 = true → x.1 ≤ e.1 := by
    intro x hx hp
    rw [← h.mem_iff, List.mem_append, List.mem_cons] at hx
    rcases hx with hx | rfl | hx
    · rw [ha x hx] at hp
      cases hp
    · exact Int.le_refl _
    · exact hfall.2.1.1 x hx
  have hmem : e ∈ waiting := (h.mem_iff e).mp (by simp)
  -- to be ahead is to meet `p` with the priority of `e`
  have hahead : ∀ x ∈ waiting, ahead p waiting x = (p x.2 && decide (x.1 = e.1)) := by
    intro x hx
    rw [Bool.eq_iff_iff]
    simp only [ahead, Bool.and_eq_true, List.all_eq_true, Bool.or_eq_true, Bool.not_eq_true',
      decide_eq_true_iff]
    constructor
    · rintro ⟨hp, hall⟩
      have hle := (hall e hmem).resolve_left (by simp [he])
      exact ⟨hp, Int.le_antisymm (hmost x hx hp) hle⟩
    · rintro ⟨hp, hx'⟩
      refine ⟨hp, fun y hy => ?_⟩
      by_cases hpy : p y.2 = true
      · exact .inr (hx' ▸ hmost y hy hpy)
      · exact .inl (by simpa using hpy)
  obtain ⟨hfind, herase⟩ := choice_congr hahead
  have hlevel : waiting.find? (fun x => p x.2 && decide (x.1 = e.1)) = some e := by
    have hsame := congrArg (List.find? fun x => p x.2) (h.stable e.1)
    simp only [ofPriority, List.find?_filter, List.find?_append] at hsame
    have hfront : a.find? (fun x => decide (decide (x.1 = e.1) = true ∧ p x.2 = true)) = none :=
      List.find?_eq_none.mpr fun x hx => by simp [ha x hx]
    rw [hfront] at hsame
    have hswap : waiting.find? (fun x => p x.2 && decide (x.1 = e.1)) =
        waiting.find? fun x => decide (decide (x.1 = e.1) = true ∧ p x.2 = true) :=
      (choice_congr fun x _ => by rw [Bool.eq_iff_iff]; simp [and_comm]).1
    rw [hswap, ← hsame]
    simp [he]
  refine ⟨by rw [Waiting.take, hfind, hlevel]; rfl, ?_, fun k => ?_⟩
  · rw [List.pairwise_append]
    exact ⟨hfall.1, hfall.2.1.2, fun x hx y hy => hfall.2.2 x hx y (List.mem_cons_of_mem e hy)⟩
  · rw [Waiting.take, herase, ofPriority_eraseP, ← h.stable]
    unfold ofPriority
    rw [List.filter_append, List.filter_append, List.filter_cons]
    split
    · next hk =>
      have hfront : ∀ x ∈ a.filter fun x => decide (x.1 = k), ¬ p x.2 = true := fun x hx => by
        rw [ha x (List.mem_of_mem_filter hx)]
        exact Bool.false_ne_true
      rw [List.eraseP_append_right _ hfront]
      simp [hk, he]
    · next hk => simp [Ne.symm hk]

theorem Sorts.take_none {p : Task R → Bool} (h : Sorts sorted waiting)
    (hnone : ∀ x ∈ sorted, p x.2 = false) : waiting.take p = (waiting, none) := by
  have hahead : ∀ x ∈ waiting, ¬ ahead p waiting x = true := fun x hx => by
    rw [ahead, hnone x ((h.mem_iff x).mpr hx)]
    exact Bool.false_ne_true
  rw [Waiting.take, List.eraseP_of_forall_not hahead, List.find?_eq_none.mpr hahead]
  rfl

/-! ## Pages -/

/-- The tasks of the queue, in the order of its pages. -/
def Page.listing (page : Page R) : Waiting R := page.tasks.map fun x => (page.priority, x)

def listing (pages : List (Page R)) : Waiting R := pages.flatMap Page.listing

/-- Of the pages of one priority, only the last has room. -/
def Filled (pages : List (Page R)) : Prop :=
  pages.Pairwise fun a b => a.priority = b.priority → a.isFull = true

/-- The queue is in order and holds the tasks that wait. -/
structure Holds (q : Queue R) (waiting : Waiting R) : Prop where
  ok : q.Ok
  filled : Filled q.pages
  stable : ∀ k, ofPriority k (listing q.pages) = ofPriority k waiting

theorem ofPriority_page (k : Int) (page : Page R) :
    ofPriority k page.listing = if page.priority = k then page.listing else [] := by
  unfold ofPriority Page.listing
  split
  · next h =>
    refine List.filter_eq_self.mpr fun e he => ?_
    obtain ⟨x, -, rfl⟩ := List.mem_map.mp he
    exact decide_eq_true h
  · next h =>
    refine List.filter_eq_nil_iff.mpr fun e he => ?_
    obtain ⟨x, -, rfl⟩ := List.mem_map.mp he
    simpa using h

theorem ofPriority_append (k : Int) (a b : Waiting R) :
    ofPriority k (a ++ b) = ofPriority k a ++ ofPriority k b := List.filter_append ..

theorem listing_split (before after : List (Page R)) (page : Page R) :
    listing (before ++ page :: after) = listing before ++ (page.listing ++ listing after) := by
  rw [listing, List.flatMap_append, List.flatMap_cons]
  rfl

/-- Pages of other priorities have no task of this one. -/
theorem ofPriority_nil {k : Int} {pages : List (Page R)} (h : ∀ page ∈ pages, page.priority ≠ k) :
    ofPriority k (listing pages) = [] := by
  induction pages with
  | nil => rfl
  | cons page pages ih =>
    rw [List.forall_mem_cons] at h
    rw [listing, List.flatMap_cons, ofPriority_append, ofPriority_page, if_neg h.1]
    exact ih h.2

theorem Holds.sorts {q : Queue R} (h : Holds q waiting) : Sorts (listing q.pages) waiting where
  stable := h.stable
  falling := by
    have hsorted := h.ok.sorted
    rw [List.pairwise_map] at hsorted
    rw [listing, List.pairwise_flatMap]
    refine ⟨fun page _ => ?_, hsorted.imp fun hab x hx y hy => ?_⟩
    · rw [Page.listing, List.pairwise_map]
      exact List.pairwise_of_forall fun _ _ => Int.le_refl _
    · obtain ⟨_, -, rfl⟩ := List.mem_map.mp hx
      obtain ⟨_, -, rfl⟩ := List.mem_map.mp hy
      exact hab

/-- A page of the same priority, as full, in the place of another. -/
theorem Filled.replace {before after : List (Page R)} {page page' : Page R}
    (h : Filled (before ++ page :: after)) (hprio : page'.priority = page.priority)
    (hfull : page.isFull = true → page'.isFull = true) : Filled (before ++ page' :: after) := by
  unfold Filled at h ⊢
  rw [List.pairwise_append, List.pairwise_cons] at h ⊢
  obtain ⟨hbefore, ⟨hpage, hafter⟩, hacross⟩ := h
  refine ⟨hbefore, ⟨fun b hb he => hfull (hpage b hb (hprio ▸ he)), hafter⟩, fun a ha b hb he => ?_⟩
  rcases List.mem_cons.mp hb with rfl | hb
  · exact hacross a ha page (List.mem_cons_self ..) (hprio ▸ he)
  · exact hacross a ha b (List.mem_cons_of_mem _ hb) he

theorem Holds.enqueue {q : Queue R} (h : Holds q waiting) (x : Task R) (priority : Int) :
    Holds (q.enqueue x priority) (waiting ++ [(priority, x)]) := by
  have hfilled := h.filled
  have hone (k : Int) :
      ofPriority k [(priority, x)] = if priority = k then [(priority, x)] else [] := by
    by_cases hk : priority = k <;> simp [ofPriority, hk]
  have hok := h.ok.enqueue x priority
  rcases Queue.enqueue_cases q x priority with
    ⟨before, page, after, hq, ⟨rfl, hroom⟩, he⟩ | ⟨before, after, hq, ⟨-, hfull⟩, hlt, he⟩
  all_goals
    rw [he] at hok ⊢
    rw [hq] at hfilled
  · -- the page with room is the last one of its priority
    have hlast : ∀ b ∈ after, b.priority ≠ page.priority := fun b hb heq => by
      have := (List.pairwise_cons.mp (List.pairwise_append.mp hfilled).2.1).1 b hb heq.symm
      rw [hroom] at this
      cases this
    refine ⟨hok, hfilled.replace rfl fun hpage => ?_, fun k => ?_⟩
    · rw [hroom] at hpage
      cases hpage
    · have hpush : (page.push x).listing = page.listing ++ [(page.priority, x)] := by
        rw [Page.listing, Page.tasks_push, List.map_append]
        rfl
      rw [ofPriority_append, ← h.stable, hq, listing_split, listing_split, hpush]
      simp only [ofPriority_append, List.append_assoc, hone]
      split
      · next hk =>
        rw [← hk, ofPriority_nil hlast, List.nil_append, List.append_nil]
      · rw [List.nil_append, List.append_nil]
  · -- the pages of its priority are full, and behind the new page the priorities are smaller
    have hsmaller := h.ok.smaller hq hlt
    refine ⟨hok, ?_, fun k => ?_⟩
    · unfold Filled at hfilled ⊢
      rw [List.pairwise_append] at hfilled
      rw [List.pairwise_append, List.pairwise_cons]
      refine ⟨hfilled.1, ⟨fun b hb heq => ?_, hfilled.2.1⟩, fun a ha b hb heq => ?_⟩
      · exact absurd heq (Int.ne_of_gt (hsmaller b hb))
      · rcases List.mem_cons.mp hb with rfl | hb
        · exact hfull a ha heq
        · exact hfilled.2.2 a ha b hb heq
    · have hnew : (Page.new q.nextPage x priority).listing = [(priority, x)] := rfl
      rw [ofPriority_append, ← h.stable, hq, listing_split, hnew, listing, listing, listing,
        List.flatMap_append]
      simp only [ofPriority_append, List.append_assoc, hone]
      split
      · next hk =>
        have hnil := ofPriority_nil (k := k) fun b hb => Int.ne_of_lt (hk ▸ hsmaller b hb)
        rw [listing] at hnil
        rw [hnil, List.append_nil, List.nil_append]
      · rw [List.nil_append, List.append_nil]

/-- One task is taken from a page, which goes when it was the last one. -/
theorem Holds.taken {q q' : Queue R} {before after : List (Page R)} {page page' : Page R}
    {a b : List (Task R)} {waiting' : Waiting R} (h : Holds q waiting) (hok : q'.Ok)
    (hq : q.pages = before ++ page :: after)
    (hq' : q'.pages = before ++ page' :: after ∨ page'.isFinished = true ∧ q'.pages = before ++ after)
    (hprio : page'.priority = page.priority) (hlast : page'.lastIndex = page.lastIndex)
    (htasks' : page'.tasks = a ++ b)
    (hleft : Sorts ((listing before ++ a.map fun x => (page.priority, x)) ++
      ((b.map fun x => (page.priority, x)) ++ listing after)) waiting') : Holds q' waiting' := by
  have hfilled := h.filled
  rw [hq] at hfilled
  have hlisting : page'.listing =
      (a.map fun x => (page.priority, x)) ++ b.map fun x => (page.priority, x) := by
    rw [Page.listing, htasks', List.map_append, hprio]
  rcases hq' with hq' | ⟨hfin, hq'⟩
  · refine ⟨hok, ?_, fun k => ?_⟩
    · rw [hq']
      exact hfilled.replace hprio fun hfull => by rwa [Page.isFull, hlast]
    · rw [hq', listing_split, hlisting, ← hleft.stable]
      simp only [List.append_assoc]
  · refine ⟨hok, ?_, fun k => ?_⟩
    · rw [hq']
      exact hfilled.sublist ((List.sublist_cons_self page after).append_left before)
    · have hnil := Page.tasks_of_finished hfin
      rw [htasks', List.append_eq_nil_iff] at hnil
      rw [hq', listing, List.flatMap_append, ← hleft.stable, hnil.1, hnil.2]
      simp only [List.map_nil, List.append_nil, List.nil_append]
      rfl

section Runs

variable [DecidableEq R]

theorem Holds.step {q : Queue R} (h : Holds q waiting) (op : Op R) :
    ∃ q', q.step op = some (q', (waiting.step op).2) ∧ Holds q' (waiting.step op).1 := by
  cases op with
  | enqueueTask x priority => exact ⟨_, rfl, h.enqueue x priority⟩
  | takeFront =>
    cases hq : q.pages with
    | nil =>
      have hnone : waiting.take (fun _ => true) = (waiting, none) := h.sorts.take_none (by
        rw [hq]
        nofun)
      refine ⟨q, ?_, ?_⟩
      · rw [Queue.step, hq, Waiting.step, hnone]
      · rw [Waiting.step, hnone]
        exact h
    | cons page rest =>
      have hmem : page ∈ q.pages := by rw [hq]; exact List.mem_cons_self ..
      obtain ⟨x, hfirst, htasks⟩ := (h.ok.ready page hmem).pop
      obtain ⟨hok, -⟩ := Queue.popPage_spec h.ok hmem fun _ => ⟨rest, hq⟩
      have hsplit : q.pages = [] ++ page :: rest := hq
      have hpages : (q.popPage page.id).pages = [] ++ page.pop :: rest ∨
          page.pop.isFinished = true ∧ (q.popPage page.id).pages = [] ++ rest := by
        rw [Queue.popPage_eq h.ok hsplit]
        split
        · next hfin => exact .inr ⟨hfin, rfl⟩
        · exact .inl rfl
      have hsorts := h.sorts
      rw [hq, listing, List.flatMap_cons, Page.listing, htasks, List.map_cons, List.cons_append]
        at hsorts
      obtain ⟨hanswer, hleft⟩ := Sorts.take (a := []) (p := fun _ => true) hsorts nofun rfl
      refine ⟨q.popPage page.id, ?_, h.taken (a := []) hok hsplit hpages rfl rfl rfl hleft⟩
      rw [Queue.step, hq, Waiting.step, hanswer]
      simp only [hfirst, Option.map_some]
  | tryTake r =>
    rw [Queue.step, Waiting.step]
    cases htake : q.tryTake r with
    | none =>
      have hpages := Queue.takePages_none (Option.map_eq_none_iff.mp htake)
      have hnone : waiting.take (fun x => x.runnable = r) = (waiting, none) :=
        h.sorts.take_none fun e he => by
          obtain ⟨page, hpage, he⟩ := List.mem_flatMap.mp he
          obtain ⟨x, hx, rfl⟩ := List.mem_map.mp he
          simpa using Page.tryTake_none (hpages page hpage) x hx
      rw [hnone]
      exact ⟨q, rfl, h⟩
    | some found =>
      obtain ⟨x, q'⟩ := found
      obtain ⟨hok, -, -⟩ := Queue.tryTake_spec h.ok htake
      simp only [Queue.tryTake, Option.map_eq_some_iff, Prod.mk.injEq] at htake
      obtain ⟨⟨y, left, freed⟩, hfound, rfl, rfl⟩ := htake
      obtain ⟨before, page, page', after, hq, hpage, hbefore, hcase⟩ := Queue.takePages_cases hfound
      obtain ⟨hr, ⟨a, b, htasks, htasks', ha⟩, -, hprio, hlast, -⟩ := Page.tryTake_spec hpage
      have hsorts := h.sorts
      rw [hq, listing_split, Page.listing, htasks, List.map_append, List.map_cons, List.append_assoc,
        ← List.append_assoc, List.cons_append] at hsorts
      obtain ⟨hanswer, hleft⟩ := hsorts.take (p := fun x => x.runnable = r) (fun e he => by
        rcases List.mem_append.mp he with he | he
        · obtain ⟨p, hp, he⟩ := List.mem_flatMap.mp he
          obtain ⟨z, hz, rfl⟩ := List.mem_map.mp he
          simpa using Page.tryTake_none (hbefore p hp) z hz
        · obtain ⟨z, hz, rfl⟩ := List.mem_map.mp he
          simpa using ha z hz) (by simpa using hr)
      refine ⟨_, by rw [hanswer], h.taken hok hq ?_ hprio hlast htasks' hleft⟩
      rcases hcase with ⟨hfin, rfl, -⟩ | ⟨-, rfl, -⟩
      · exact .inr ⟨hfin, rfl⟩
      · exact .inl rfl

/-- Every sequence of operations has the answers that it should have. -/
theorem Holds.run : ∀ (ops : List (Op R)) {q : Queue R} {waiting : Waiting R}, Holds q waiting →
    ∃ q', q.run ops = some (q', waiting.run ops) ∧ q'.Ok
  | [], q, _, h => ⟨q, rfl, h.ok⟩
  | op :: ops, q, waiting, h => by
    obtain ⟨q₁, hstep, h₁⟩ := h.step op
    obtain ⟨q₂, hrun, h₂⟩ := Holds.run ops h₁
    refine ⟨q₂, ?_, h₂⟩
    rw [Queue.run, hstep, Option.bind_eq_bind, Option.bind_some]
    simp only [hrun, Option.bind_eq_bind, Option.bind_some, Waiting.run]

/-- From an empty queue, the tasks are taken in the order of their priorities and of their coming,
and every page has a task in its first slot. -/
theorem queue_order (ops : List (Op R)) :
    ∃ q : Queue R, Queue.run ops ⟨[], 0, []⟩ = some (q, Waiting.run ops []) ∧
      ∀ page ∈ q.pages, page.isFinished = false ∧ ∃ x rest, page.first = some x ∧
        page.tasks = x :: rest := by
  have hempty : Holds (⟨[], 0, []⟩ : Queue R) [] :=
    ⟨⟨nofun, List.nodup_nil, .nil, nofun, nofun, nofun⟩, .nil, fun _ => rfl⟩
  obtain ⟨q, hrun, hok⟩ := hempty.run ops
  refine ⟨q, hrun, fun page hpage => ⟨hok.not_finished hpage, ?_⟩⟩
  obtain ⟨x, hfirst, htasks⟩ := (hok.ready page hpage).pop
  exact ⟨x, _, hfirst, htasks⟩

end Runs

end Libpdk.Thread.Pool

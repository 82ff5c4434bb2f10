import Mathlib.Data.List.Nodup
import Mathlib.Data.List.Pairwise
import Mathlib.Data.List.ReduceOption
import Mathlib.Tactic.Ring
import Mathlib.Tactic.Tauto

/-!
# The task queue of the thread pool

`ThreadPoolPrivate::m_queue` is a deque of `QueuePage`s, by falling priority. A
page is known by its address, here `id`; `freed` records the pages the code
has deleted. The slots of a page from `m_firstIndex` to `m_lastIndex` are the
list `entries`: taking a task out of the middle leaves a null slot behind.

A `Task` is one submission of a runnable: `sub` is its number, which tells
two submissions of the same runnable apart and decides nothing.

What the operations do to the tasks in the queue is counted by `tally`, for
any predicate on tasks.
-/
namespace Libpdk.Thread.Pool

variable {R : Type}

structure Task (R : Type) where
  runnable : R
  sub : Nat
  deriving DecidableEq, Repr

/-- How many of the tasks meet `p`. -/
def tally (p : Task R → Bool) (xs : List (Task R)) : Nat := xs.countP p

@[simp] theorem tally_nil (p : Task R → Bool) : tally p [] = 0 := rfl

@[simp] theorem tally_append (p : Task R → Bool) (xs ys : List (Task R)) :
    tally p (xs ++ ys) = tally p xs + tally p ys := List.countP_append

theorem tally_cons (p : Task R → Bool) (x : Task R) (xs : List (Task R)) :
    tally p (x :: xs) = tally p [x] + tally p xs := by
  rw [show x :: xs = [x] ++ xs from rfl, tally_append]

/-- mirrors os/thread/internal/ThreadPoolPrivate.h:37-121 -/
structure Page (R : Type) where
  id : Nat
  priority : Int
  lastIndex : Int
  entries : List (Option (Task R))
  deriving DecidableEq, Repr

namespace Page

def maxPageSize : Int := 256

def new (id : Nat) (x : Task R) (priority : Int) : Page R := ⟨id, priority, 0, [some x]⟩

def isFull (page : Page R) : Bool := decide (maxPageSize - 1 ≤ page.lastIndex)

/-- `m_firstIndex > m_lastIndex`. -/
def isFinished (page : Page R) : Bool := page.entries.isEmpty

def push (page : Page R) (x : Task R) : Page R :=
  { page with lastIndex := page.lastIndex + 1, entries := page.entries ++ [some x] }

def skipToNextOrEnd (entries : List (Option (Task R))) : List (Option (Task R)) :=
  entries.dropWhile Option.isNone

/-- `none` is a failed `PDK_ASSERT(runnable)`. -/
def first (page : Page R) : Option (Task R) := page.entries.head?.join

/-- The page after `pop()`, which returns `first()`. -/
def pop (page : Page R) : Page R := { page with entries := skipToNextOrEnd page.entries.tail }

/-- The search of `tryTake`: the first slot with the runnable is cleared. -/
def clearSlot [DecidableEq R] (r : R) : List (Option (Task R)) → Option (Task R × List (Option (Task R)))
  | [] => none
  | some x :: rest =>
    if x.runnable = r then some (x, none :: rest)
    else (clearSlot r rest).map fun found => (found.1, some x :: found.2)
  | none :: rest => (clearSlot r rest).map fun found => (found.1, none :: found.2)

/-- `skipToNextOrEnd` is only called when the cleared slot is the first one; on
a page whose first slot is kept it does nothing. -/
def tryTake [DecidableEq R] (page : Page R) (r : R) : Option (Task R × Page R) :=
  (clearSlot r page.entries).map fun found =>
    (found.1, { page with entries := skipToNextOrEnd found.2 })

/-- The tasks of the page, in the order `pop` hands them out. -/
def tasks (page : Page R) : List (Task R) := page.entries.reduceOption

/-- A page in the queue is not finished and its first slot is not null. -/
structure Ready (page : Page R) : Prop where
  first : ∃ x rest, page.entries = some x :: rest

theorem reduceOption_skip (entries : List (Option (Task R))) :
    (skipToNextOrEnd entries).reduceOption = entries.reduceOption := by
  induction entries with
  | nil => rfl
  | cons e rest ih =>
    cases e with
    | none => simpa [skipToNextOrEnd] using ih
    | some x => rfl

theorem skip_ready (page : Page R) (entries : List (Option (Task R)))
    (h : page.entries = skipToNextOrEnd entries) : page.isFinished = true ∨ page.Ready := by
  induction entries with
  | nil => exact .inl (by rw [isFinished, h]; rfl)
  | cons e rest ih =>
    cases e with
    | none => exact ih h
    | some x => exact .inr ⟨x, rest, h⟩

theorem ready_new (id : Nat) (x : Task R) (priority : Int) : (new id x priority).Ready :=
  ⟨x, [], rfl⟩

theorem Ready.push {page : Page R} (h : page.Ready) (x : Task R) : (page.push x).Ready := by
  obtain ⟨y, rest, he⟩ := h.first
  exact ⟨y, rest ++ [some x], by rw [Page.push, he]; rfl⟩

theorem tasks_push (page : Page R) (x : Task R) : (page.push x).tasks = page.tasks ++ [x] := by
  simp [tasks, push, List.reduceOption_append]

theorem Ready.first_push {page : Page R} (h : page.Ready) (x : Task R) :
    (page.push x).first = page.first := by
  obtain ⟨y, rest, he⟩ := h.first
  simp [Page.first, Page.push, he]

/-- `first()` of a page in the queue is the task that `pop()` takes off it. -/
theorem Ready.pop {page : Page R} (h : page.Ready) :
    ∃ x, page.first = some x ∧ page.tasks = x :: page.pop.tasks := by
  obtain ⟨x, rest, he⟩ := h.first
  refine ⟨x, by rw [Page.first, he]; rfl, ?_⟩
  show page.entries.reduceOption = x :: (skipToNextOrEnd page.entries.tail).reduceOption
  rw [reduceOption_skip, he]
  rfl

theorem pop_ready (page : Page R) : page.pop.isFinished = true ∨ page.pop.Ready :=
  skip_ready page.pop page.entries.tail rfl

theorem tasks_of_finished {page : Page R} (h : page.isFinished = true) : page.tasks = [] := by
  rw [isFinished, List.isEmpty_iff] at h
  rw [tasks, h]
  rfl

/-- The task in the cleared slot is the first one of the runnable. -/
theorem clearSlot_spec [DecidableEq R] (r : R) :
    ∀ {entries : List (Option (Task R))} {x : Task R} {left : List (Option (Task R))},
      clearSlot r entries = some (x, left) →
      x.runnable = r ∧ ∃ a b, entries.reduceOption = a ++ x :: b ∧ left.reduceOption = a ++ b ∧
        ∀ y ∈ a, y.runnable ≠ r
  | [], _, _, h => by cases h
  | none :: rest, x, left, h => by
    simp only [clearSlot, Option.map_eq_some_iff] at h
    obtain ⟨⟨y, left'⟩, hrest, hy⟩ := h
    cases hy
    simpa using clearSlot_spec r hrest
  | some y :: rest, x, left, h => by
    simp only [clearSlot] at h
    by_cases hr : y.runnable = r
    · rw [if_pos hr] at h
      cases h
      exact ⟨hr, [], rest.reduceOption, by simp, by simp, nofun⟩
    · rw [if_neg hr, Option.map_eq_some_iff] at h
      obtain ⟨⟨z, left'⟩, hrest, hz⟩ := h
      cases hz
      obtain ⟨hx, a, b, hentries, hleft, hnone⟩ := clearSlot_spec r hrest
      refine ⟨hx, y :: a, b, ?_, ?_, List.forall_mem_cons.mpr ⟨hr, hnone⟩⟩
      · rw [List.reduceOption_cons_of_some, hentries]
        rfl
      · rw [List.reduceOption_cons_of_some, hleft]
        rfl

theorem clearSlot_none [DecidableEq R] {r : R} {entries : List (Option (Task R))}
    (h : clearSlot r entries = none) : ∀ y ∈ entries.reduceOption, y.runnable ≠ r := by
  induction entries with
  | nil => nofun
  | cons e rest ih =>
    cases e with
    | none =>
      rw [clearSlot, Option.map_eq_none_iff] at h
      simpa using ih h
    | some y =>
      rw [clearSlot] at h
      split at h
      · cases h
      · next hr =>
        rw [Option.map_eq_none_iff] at h
        rw [List.reduceOption_cons_of_some]
        exact List.forall_mem_cons.mpr ⟨hr, ih h⟩

theorem tryTake_none [DecidableEq R] {page : Page R} {r : R} (h : page.tryTake r = none) :
    ∀ y ∈ page.tasks, y.runnable ≠ r := clearSlot_none (Option.map_eq_none_iff.mp h)

/-- What a successful `tryTake` takes, and what it leaves. -/
theorem tryTake_spec [DecidableEq R] {page page' : Page R} {r : R} {x : Task R}
    (h : page.tryTake r = some (x, page')) :
    x.runnable = r ∧ (∃ a b, page.tasks = a ++ x :: b ∧ page'.tasks = a ++ b ∧
        ∀ y ∈ a, y.runnable ≠ r) ∧
      page'.id = page.id ∧ page'.priority = page.priority ∧ page'.lastIndex = page.lastIndex ∧
      (page'.isFinished = true ∨ page'.Ready) := by
  simp only [tryTake, Option.map_eq_some_iff] at h
  obtain ⟨⟨y, left⟩, hfound, hy⟩ := h
  cases hy
  obtain ⟨hr, a, b, htasks, hleft, hnone⟩ := clearSlot_spec r hfound
  exact ⟨hr, ⟨a, b, htasks, (reduceOption_skip left).trans hleft, hnone⟩, rfl, rfl, rfl,
    skip_ready _ left rfl⟩

end Page

/-- The deque, and the pages made and deleted so far. -/
structure Queue (R : Type) where
  pages : List (Page R)
  nextPage : Nat
  freed : List Nat
  deriving DecidableEq, Repr

namespace Queue

/-- The loop of `enqueueTask`: the first page of this priority with room takes
the task. -/
def pushFirst (x : Task R) (priority : Int) : List (Page R) → Option (List (Page R))
  | [] => none
  | page :: rest =>
    if page.priority = priority ∧ page.isFull = false then some (page.push x :: rest)
    else (pushFirst x priority rest).map (page :: ·)

/-- Inserting at `upper_bound(m_queue, priority, compare_priority)`: in front of
the first page of a smaller priority. -/
def insertPage (page : Page R) : List (Page R) → List (Page R)
  | [] => [page]
  | p :: rest => if p.priority < page.priority then page :: p :: rest else p :: insertPage page rest

/-- The queue part of `enqueueTask`.
mirrors os/thread/ThreadPool.cpp:192-207 -/
def enqueue (q : Queue R) (x : Task R) (priority : Int) : Queue R :=
  match pushFirst x priority q.pages with
  | some pages => { q with pages := pages }
  | none => { q with pages := insertPage (Page.new q.nextPage x priority) q.pages,
                     nextPage := q.nextPage + 1 }

/-- `page->pop()` on the page at an address. -/
def popAt (i : Nat) (pages : List (Page R)) : List (Page R) :=
  pages.map fun page => if page.id = i then page.pop else page

/-- `page->pop(); if (page->isFinished()) { m_queue.pop_front(); delete page; }`
for the pointer `page` taken earlier, at address `i`: `pop_front` removes whatever is in front by
now.
mirrors os/thread/ThreadPool.cpp:95-100 and 225-229 -/
def popPage (q : Queue R) (i : Nat) : Queue R :=
  let pages := popAt i q.pages
  if pages.any (fun page => decide (page.id = i) && page.isFinished) then
    { q with pages := pages.tail, freed := i :: q.freed }
  else { q with pages := pages }

/-- The search of `tryTake` over the pages; a page left finished is erased and
deleted.
mirrors os/thread/ThreadPool.cpp:345-358 -/
def takePages [DecidableEq R] (r : R) : List (Page R) → Option (Task R × List (Page R) × List Nat)
  | [] => none
  | page :: rest =>
    match page.tryTake r with
    | some (x, page') =>
      if page'.isFinished then some (x, rest, [page.id]) else some (x, page' :: rest, [])
    | none => (takePages r rest).map fun found => (found.1, page :: found.2.1, found.2.2)

def tryTake [DecidableEq R] (q : Queue R) (r : R) : Option (Task R × Queue R) :=
  (takePages r q.pages).map fun found =>
    (found.1, { q with pages := found.2.1, freed := found.2.2 ++ q.freed })

def tasks (q : Queue R) : List (Task R) := q.pages.flatMap Page.tasks

/-- `delete_all(m_queue); m_queue.clear();` -/
def deleteAll (q : Queue R) : Queue R :=
  { q with pages := [], freed := q.pages.map Page.id ++ q.freed }

/-- The pages are ready, distinct, sorted and not deleted. -/
structure Ok (q : Queue R) : Prop where
  ready : ∀ page ∈ q.pages, page.Ready
  distinct : (q.pages.map Page.id).Nodup
  sorted : (q.pages.map Page.priority).Pairwise (· ≥ ·)
  made : ∀ page ∈ q.pages, page.id < q.nextPage
  freed_made : ∀ i ∈ q.freed, i < q.nextPage
  live : ∀ page ∈ q.pages, page.id ∉ q.freed

/-! ## Changing one page -/

/-- Replacing one page by another with the same address and priority. -/
theorem Ok.replace {q : Queue R} {before after : List (Page R)} {page page' : Page R} (h : q.Ok)
    (hq : q.pages = before ++ page :: after) (hid : page'.id = page.id)
    (hprio : page'.priority = page.priority) (hready : page'.Ready) :
    { q with pages := before ++ page' :: after }.Ok := by
  have hids : (before ++ page' :: after).map Page.id = q.pages.map Page.id := by
    rw [hq]; simp [hid]
  have hprios : (before ++ page' :: after).map Page.priority = q.pages.map Page.priority := by
    rw [hq]; simp [hprio]
  have hpage : page ∈ q.pages := by rw [hq]; simp
  have hmem : ∀ p ∈ before ++ page' :: after, p ∈ q.pages ∨ p = page' := by
    intro p hp
    rw [hq]
    simp only [List.mem_append, List.mem_cons] at hp ⊢
    tauto
  refine ⟨?_, by rw [hids]; exact h.distinct, by rw [hprios]; exact h.sorted, ?_, h.freed_made, ?_⟩
  · intro p hp
    rcases hmem p hp with hp | rfl
    · exact h.ready p hp
    · exact hready
  · intro p hp
    rcases hmem p hp with hp | rfl
    · exact h.made p hp
    · exact hid ▸ h.made page hpage
  · intro p hp
    rcases hmem p hp with hp | rfl
    · exact h.live p hp
    · exact hid ▸ h.live page hpage

/-- Removing and deleting one page. -/
theorem Ok.remove {q : Queue R} {before after : List (Page R)} {page : Page R} (h : q.Ok)
    (hq : q.pages = before ++ page :: after) :
    { q with pages := before ++ after, freed := page.id :: q.freed }.Ok := by
  have hsub : (before ++ after).Sublist q.pages := by
    rw [hq]
    exact (List.sublist_cons_self page after).append_left before
  have hd := h.distinct
  rw [hq, List.map_append, List.map_cons, List.nodup_middle, List.nodup_cons,
    ← List.map_append] at hd
  refine ⟨fun p hp => h.ready p (hsub.subset hp), hd.2, h.sorted.sublist (hsub.map _),
    fun p hp => h.made p (hsub.subset hp), ?_, ?_⟩
  · intro i hi
    rcases List.mem_cons.mp hi with rfl | hi
    · exact h.made page (by rw [hq]; simp)
    · exact h.freed_made i hi
  · intro p hp hin
    rcases List.mem_cons.mp hin with he | hin
    · exact hd.1 (he ▸ List.mem_map_of_mem hp)
    · exact h.live p (hsub.subset hp) hin

/-! ## `enqueueTask` -/

theorem pushFirst_cases {x : Task R} {priority : Int} :
    ∀ {pages pages' : List (Page R)}, pushFirst x priority pages = some pages' →
      ∃ before page after, pages = before ++ page :: after ∧
        pages' = before ++ page.push x :: after ∧ page.priority = priority ∧ page.isFull = false
  | [], _, h => by cases h
  | page :: rest, pages', h => by
    simp only [pushFirst] at h
    by_cases hp : page.priority = priority ∧ page.isFull = false
    · rw [if_pos hp] at h
      cases h
      exact ⟨[], page, rest, rfl, rfl, hp⟩
    · rw [if_neg hp, Option.map_eq_some_iff] at h
      obtain ⟨rest', hrest, rfl⟩ := h
      obtain ⟨before, q, after, rfl, rfl, hq⟩ := pushFirst_cases hrest
      exact ⟨page :: before, q, after, rfl, rfl, hq⟩

theorem pushFirst_none {x : Task R} {priority : Int} {pages : List (Page R)}
    (h : pushFirst x priority pages = none) :
    ∀ page ∈ pages, page.priority = priority → page.isFull = true := by
  induction pages with
  | nil => nofun
  | cons page rest ih =>
    rw [pushFirst] at h
    split at h
    · cases h
    · next hp =>
      rw [Option.map_eq_none_iff] at h
      refine List.forall_mem_cons.mpr ⟨fun hprio => ?_, ih h⟩
      simpa [hprio] using hp

theorem insertPage_cases (page : Page R) (pages : List (Page R)) :
    ∃ before after, pages = before ++ after ∧ insertPage page pages = before ++ page :: after ∧
      (∀ p ∈ before, page.priority ≤ p.priority) ∧
      (∀ p rest, after = p :: rest → p.priority < page.priority) := by
  induction pages with
  | nil => exact ⟨[], [], rfl, rfl, by simp, by simp⟩
  | cons p rest ih =>
    by_cases hp : p.priority < page.priority
    · refine ⟨[], p :: rest, rfl, if_pos hp, by simp, ?_⟩
      intro p' rest' h
      cases h
      exact hp
    · obtain ⟨before, after, hrest, hinsert, hbefore, hafter⟩ := ih
      refine ⟨p :: before, after, by rw [hrest]; rfl, ?_, ?_, hafter⟩
      · rw [insertPage, if_neg hp, hinsert]
        rfl
      · intro p' hp'
        rcases List.mem_cons.mp hp' with rfl | hp'
        · omega
        · exact hbefore p' hp'

/-- What `enqueueTask` does to the pages: one of them takes the task, or a new
page is put between the greater or equal priorities and the smaller ones. -/
theorem enqueue_cases (q : Queue R) (x : Task R) (priority : Int) :
    (∃ before page after, q.pages = before ++ page :: after ∧
      (page.priority = priority ∧ page.isFull = false) ∧
      q.enqueue x priority = { q with pages := before ++ page.push x :: after }) ∨
    (∃ before after, q.pages = before ++ after ∧
      ((∀ p ∈ before, priority ≤ p.priority) ∧
        ∀ p ∈ before, p.priority = priority → p.isFull = true) ∧
      (∀ p rest, after = p :: rest → p.priority < priority) ∧
      q.enqueue x priority =
        { q with pages := before ++ Page.new q.nextPage x priority :: after,
                 nextPage := q.nextPage + 1 }) := by
  unfold enqueue
  cases hpush : pushFirst x priority q.pages with
  | some pages =>
    obtain ⟨before, page, after, h, rfl, hp⟩ := pushFirst_cases hpush
    exact .inl ⟨before, page, after, h, hp, rfl⟩
  | none =>
    obtain ⟨before, after, h, hinsert, hbefore, hafter⟩ :=
      insertPage_cases (Page.new q.nextPage x priority) q.pages
    have hfull := pushFirst_none hpush
    rw [h] at hfull
    exact .inr ⟨before, after, h, ⟨hbefore, fun p hp => hfull p (List.mem_append_left _ hp)⟩,
      hafter, by simp only [hinsert]⟩

theorem tally_pages (p : Task R → Bool) (before after : List (Page R)) (page : Page R) :
    tally p ((before ++ page :: after).flatMap Page.tasks) =
      tally p (before.flatMap Page.tasks) + tally p page.tasks +
        tally p (after.flatMap Page.tasks) := by
  rw [List.flatMap_append, List.flatMap_cons, tally_append, tally_append]
  omega

theorem tally_enqueue (q : Queue R) (x : Task R) (priority : Int) (p : Task R → Bool) :
    tally p (q.enqueue x priority).tasks = tally p q.tasks + tally p [x] := by
  rcases enqueue_cases q x priority with ⟨before, page, after, h, -, he⟩ | ⟨before, after, h, -, -, he⟩
  · rw [he, tasks, tasks, h, tally_pages, tally_pages, Page.tasks_push, tally_append]
    omega
  · have hnew : (Page.new q.nextPage x priority).tasks = [x] := rfl
    rw [he, tasks, tasks, h, tally_pages, hnew, List.flatMap_append, tally_append]
    omega

/-- Where the first page is of a smaller priority, the others are, too. -/
theorem Ok.smaller {q : Queue R} {before after : List (Page R)} {priority : Int} (h : q.Ok)
    (hq : q.pages = before ++ after)
    (hlt : ∀ p rest, after = p :: rest → p.priority < priority) :
    ∀ p ∈ after, p.priority < priority := by
  have hs := h.sorted
  rw [hq, List.map_append, List.pairwise_append] at hs
  cases after with
  | nil => nofun
  | cons p rest =>
    have hp := hlt p rest rfl
    refine List.forall_mem_cons.mpr ⟨hp, fun p' hp' => ?_⟩
    have hle := List.rel_of_pairwise_cons hs.2.1 (List.mem_map_of_mem hp')
    omega

theorem Ok.enqueue {q : Queue R} (h : q.Ok) (x : Task R) (priority : Int) :
    (q.enqueue x priority).Ok := by
  rcases enqueue_cases q x priority with
    ⟨before, page, after, hp, -, he⟩ | ⟨before, after, hp, ⟨hge, -⟩, hlt, he⟩
  · have hpage : page ∈ q.pages := by rw [hp]; simp
    rw [he]
    exact h.replace hp rfl rfl ((h.ready page hpage).push x)
  · have hmem : ∀ p ∈ before ++ Page.new q.nextPage x priority :: after,
        p ∈ q.pages ∨ p = Page.new q.nextPage x priority := by
      intro p hp'
      rw [hp]
      simp only [List.mem_append, List.mem_cons] at hp' ⊢
      tauto
    rw [he]
    refine ⟨?_, ?_, ?_, ?_, ?_, ?_⟩
    · intro p hp'
      rcases hmem p hp' with h' | rfl
      · exact h.ready p h'
      · exact Page.ready_new _ _ _
    · have hfresh : q.nextPage ∉ q.pages.map Page.id := by
        intro hin
        obtain ⟨p, hp', hid⟩ := List.mem_map.mp hin
        exact absurd (h.made p hp') (by omega)
      have hd := h.distinct
      rw [hp, List.map_append] at hd hfresh
      rw [List.map_append, List.map_cons]
      exact List.nodup_middle.mpr (List.nodup_cons.mpr ⟨hfresh, hd⟩)
    · have hs := h.sorted
      rw [hp, List.map_append, List.pairwise_append] at hs
      obtain ⟨hs₁, hs₂, hs₃⟩ := hs
      rw [List.map_append, List.map_cons, List.pairwise_append, List.pairwise_cons]
      refine ⟨hs₁, ⟨fun a ha => ?_, hs₂⟩, ?_⟩
      · obtain ⟨p, hp', rfl⟩ := List.mem_map.mp ha
        exact Int.le_of_lt (h.smaller hp hlt p hp')
      intro a ha b hb
      rcases List.mem_cons.mp hb with rfl | hb
      · obtain ⟨p, hp', rfl⟩ := List.mem_map.mp ha
        exact hge p hp'
      · exact hs₃ a ha b hb
    · intro p hp'
      show p.id < q.nextPage + 1
      rcases hmem p hp' with h' | rfl
      · have := h.made p h'
        omega
      · exact Nat.lt_succ_self _
    · intro i hi
      have := h.freed_made i hi
      show i < q.nextPage + 1
      omega
    · intro p hp'
      rcases hmem p hp' with h' | rfl
      · exact h.live p h'
      · intro hin
        exact absurd (h.freed_made _ hin) (Nat.lt_irrefl _)

/-- The front page stays in front unless the new task has a greater priority. -/
theorem enqueue_front {q : Queue R} {page : Page R} {rest : List (Page R)} {x : Task R}
    {priority : Int} (h : q.pages = page :: rest) (hp : priority ≤ page.priority) :
    ∃ page' rest', (q.enqueue x priority).pages = page' :: rest' ∧ page'.id = page.id := by
  rcases enqueue_cases q x priority with
    ⟨before, taker, after, hq, -, he⟩ | ⟨before, after, hq, -, hlt, he⟩
  · rw [he]
    rw [h] at hq
    cases before with
    | nil =>
      cases hq
      exact ⟨page.push x, rest, rfl, rfl⟩
    | cons b before =>
      cases hq
      exact ⟨page, _, rfl, rfl⟩
  · rw [he]
    rw [h] at hq
    cases before with
    | nil =>
      have := hlt page rest hq.symm
      omega
    | cons b before =>
      cases hq
      exact ⟨page, _, rfl, rfl⟩

/-- A page keeps its place by address, and its first task, when a task comes in. -/
theorem enqueue_mem {q : Queue R} {page : Page R} (h : q.Ok) (hm : page ∈ q.pages) (x : Task R)
    (priority : Int) : ∃ page' ∈ (q.enqueue x priority).pages, page'.id = page.id ∧
      page'.first = page.first ∧ (page' = page ∨ page.priority = priority) := by
  rcases enqueue_cases q x priority with
    ⟨before, taker, after, hq, ⟨hprio, -⟩, he⟩ | ⟨before, after, hq, -, -, he⟩
  · rw [he]
    rw [hq] at hm
    rcases List.mem_append.mp hm with hm | hm
    · exact ⟨page, List.mem_append.mpr (.inl hm), rfl, rfl, .inl rfl⟩
    · rcases List.mem_cons.mp hm with rfl | hm
      · refine ⟨page.push x, by simp, rfl, ?_, .inr hprio⟩
        exact (h.ready page (by rw [hq]; simp)).first_push x
      · exact ⟨page, by simp [hm], rfl, rfl, .inl rfl⟩
  · rw [he]
    rw [hq] at hm
    refine ⟨page, ?_, rfl, rfl, .inl rfl⟩
    rcases List.mem_append.mp hm with hm | hm <;> simp [hm]

/-! ## Taking tasks off a page -/

theorem popAt_of_notMem {i : Nat} {pages : List (Page R)} (h : i ∉ pages.map Page.id) :
    popAt i pages = pages := by
  induction pages with
  | nil => rfl
  | cons page rest ih =>
    rw [List.map_cons, List.mem_cons, not_or] at h
    show (if page.id = i then page.pop else page) :: popAt i rest = page :: rest
    rw [if_neg (Ne.symm h.1), ih h.2]

/-- Only the page itself changes. -/
theorem popAt_split {before after : List (Page R)} {page : Page R}
    (h : ((before ++ page :: after).map Page.id).Nodup) :
    popAt page.id (before ++ page :: after) = before ++ page.pop :: after := by
  rw [List.map_append, List.map_cons, List.nodup_middle, List.nodup_cons, List.mem_append,
    not_or] at h
  have hb := popAt_of_notMem h.1.1
  have ha := popAt_of_notMem h.1.2
  unfold popAt at hb ha ⊢
  rw [List.map_append, List.map_cons, hb, ha, if_pos rfl]

theorem Ok.not_finished {q : Queue R} (h : q.Ok) {page : Page R} (hm : page ∈ q.pages) :
    page.isFinished = false := by
  obtain ⟨x, rest, he⟩ := (h.ready page hm).first
  rw [Page.isFinished, he]
  rfl

/-- What `popPage` does: the page loses its first task, and when that finishes
it, the page in front is removed. -/
theorem popPage_eq {q : Queue R} {before after : List (Page R)} {page : Page R} (h : q.Ok)
    (hq : q.pages = before ++ page :: after) :
    q.popPage page.id =
      if page.pop.isFinished then
        { q with pages := (before ++ page.pop :: after).tail, freed := page.id :: q.freed }
      else { q with pages := before ++ page.pop :: after } := by
  have hpop : popAt page.id q.pages = before ++ page.pop :: after := by
    rw [hq, popAt_split (hq ▸ h.distinct)]
  have hany : (before ++ page.pop :: after).any
      (fun p => decide (p.id = page.id) && p.isFinished) = page.pop.isFinished := by
    have hother : ∀ p ∈ before ++ after, (decide (p.id = page.id) && p.isFinished) = false := by
      intro p hp
      have hm : p ∈ q.pages := by
        rw [hq]
        rcases List.mem_append.mp hp with hp | hp <;> simp [hp]
      rw [h.not_finished hm, Bool.and_false]
    have hb : before.any (fun p => decide (p.id = page.id) && p.isFinished) = false := by
      rw [List.any_eq_false]
      exact fun p hp => by simp [hother p (by simp [hp])]
    have ha : after.any (fun p => decide (p.id = page.id) && p.isFinished) = false := by
      rw [List.any_eq_false]
      exact fun p hp => by simp [hother p (by simp [hp])]
    rw [List.any_append, List.any_cons, hb, ha]
    simp [Page.pop]
  unfold popPage
  simp only [hpop, hany]

/-- `popPage` takes the first task of the page, as long as a page that this
finishes is the one in front. -/
theorem popPage_spec {q : Queue R} {page : Page R} (h : q.Ok) (hm : page ∈ q.pages)
    (hfront : page.pop.isFinished = true → ∃ rest, q.pages = page :: rest) :
    (q.popPage page.id).Ok ∧ ∃ x, page.first = some x ∧
      ∀ p, tally p q.tasks = tally p [x] + tally p (q.popPage page.id).tasks := by
  obtain ⟨x, hx, htasks⟩ := (h.ready page hm).pop
  by_cases hfin : page.pop.isFinished = true
  · obtain ⟨rest, hrest⟩ := hfront hfin
    have hsplit : q.pages = [] ++ page :: rest := hrest
    have hpopped := popPage_eq h hsplit
    rw [if_pos hfin] at hpopped
    rw [hpopped]
    refine ⟨h.remove hsplit, x, hx, fun p => ?_⟩
    have hnone := Page.tasks_of_finished hfin
    rw [tasks, hrest, List.flatMap_cons, tally_append, htasks, hnone]
    rfl
  · obtain ⟨before, after, hq⟩ := List.append_of_mem hm
    have hpopped := popPage_eq h hq
    rw [if_neg hfin] at hpopped
    rw [hpopped]
    refine ⟨h.replace hq rfl rfl ((Page.pop_ready page).resolve_left hfin), x, hx, fun p => ?_⟩
    rw [tasks, tasks, hq, tally_pages, tally_pages, htasks, tally_cons]
    omega

/-! ## `tryTake` and `clear` -/

theorem takePages_cases [DecidableEq R] {r : R} :
    ∀ {pages : List (Page R)} {x : Task R} {left : List (Page R)} {freed : List Nat},
      takePages r pages = some (x, left, freed) →
      ∃ before page page' after, pages = before ++ page :: after ∧
        page.tryTake r = some (x, page') ∧ (∀ p ∈ before, p.tryTake r = none) ∧
        ((page'.isFinished = true ∧ left = before ++ after ∧ freed = [page.id]) ∨
          (page'.isFinished = false ∧ left = before ++ page' :: after ∧ freed = []))
  | [], _, _, _, h => by cases h
  | page :: rest, x, left, freed, h => by
    simp only [takePages] at h
    cases hpage : page.tryTake r with
    | some found =>
      obtain ⟨y, page'⟩ := found
      rw [hpage] at h
      by_cases hfin : page'.isFinished = true
      · simp only [if_pos hfin, Option.some.injEq, Prod.mk.injEq] at h
        obtain ⟨rfl, rfl, rfl⟩ := h
        exact ⟨[], page, page', rest, rfl, hpage, nofun, .inl ⟨hfin, rfl, rfl⟩⟩
      · simp only [if_neg hfin, Option.some.injEq, Prod.mk.injEq] at h
        obtain ⟨rfl, rfl, rfl⟩ := h
        exact ⟨[], page, page', rest, rfl, hpage, nofun, .inr ⟨by simpa using hfin, rfl, rfl⟩⟩
    | none =>
      rw [hpage] at h
      simp only [Option.map_eq_some_iff, Prod.mk.injEq] at h
      obtain ⟨⟨y, left', freed'⟩, hrest, rfl, rfl, rfl⟩ := h
      obtain ⟨before, q, q', after, rfl, hq, hfirst, hcase⟩ := takePages_cases hrest
      refine ⟨page :: before, q, q', after, rfl, hq, List.forall_mem_cons.mpr ⟨hpage, hfirst⟩, ?_⟩
      rcases hcase with ⟨hfin, rfl, rfl⟩ | ⟨hfin, rfl, rfl⟩
      · exact .inl ⟨hfin, rfl, rfl⟩
      · exact .inr ⟨hfin, rfl, rfl⟩

theorem takePages_none [DecidableEq R] {r : R} {pages : List (Page R)}
    (h : takePages r pages = none) : ∀ page ∈ pages, page.tryTake r = none := by
  induction pages with
  | nil => nofun
  | cons page rest ih =>
    rw [takePages] at h
    cases hpage : page.tryTake r with
    | some found =>
      rw [hpage] at h
      dsimp only at h
      split at h <;> cases h
    | none =>
      rw [hpage] at h
      exact List.forall_mem_cons.mpr ⟨hpage, ih (Option.map_eq_none_iff.mp h)⟩

theorem tryTake_spec [DecidableEq R] {q q' : Queue R} {r : R} {x : Task R} (h : q.Ok)
    (ht : q.tryTake r = some (x, q')) :
    q'.Ok ∧ x.runnable = r ∧ ∀ p, tally p q.tasks = tally p [x] + tally p q'.tasks := by
  simp only [tryTake, Option.map_eq_some_iff, Prod.mk.injEq] at ht
  obtain ⟨⟨y, left, freed⟩, hfound, rfl, rfl⟩ := ht
  obtain ⟨before, page, page', after, hq, hpage, -, hcase⟩ := takePages_cases hfound
  obtain ⟨hr, ⟨a, b, htasks, hleft, -⟩, hid, hprio, -, hready⟩ := Page.tryTake_spec hpage
  have htally (p : Task R → Bool) : tally p page.tasks = tally p [y] + tally p page'.tasks := by
    rw [htasks, hleft, tally_append, tally_append, tally_cons p y]
    omega
  rcases hcase with ⟨hfin, rfl, rfl⟩ | ⟨hfin, rfl, rfl⟩
  · refine ⟨h.remove hq, hr, fun p => ?_⟩
    have hnone := htally p
    rw [Page.tasks_of_finished hfin, tally_nil] at hnone
    rw [tasks, tasks, hq, tally_pages, hnone, List.flatMap_append, tally_append]
    show _ = tally p [y] + _
    omega
  · refine ⟨h.replace hq hid hprio (hready.resolve_left (by simp [hfin])), hr, fun p => ?_⟩
    have hsplit := htally p
    rw [tasks, tasks, hq, tally_pages, tally_pages, hsplit]
    show _ = tally p [y] + _
    omega

theorem Ok.deleteAll {q : Queue R} (h : q.Ok) : q.deleteAll.Ok := by
  refine ⟨by simp [Queue.deleteAll], List.nodup_nil, List.Pairwise.nil,
    by simp [Queue.deleteAll], ?_, by simp [Queue.deleteAll]⟩
  intro i hi
  rcases List.mem_append.mp hi with hi | hi
  · obtain ⟨page, hp, rfl⟩ := List.mem_map.mp hi
    exact h.made page hp
  · exact h.freed_made i hi

end Queue

end Libpdk.Thread.Pool

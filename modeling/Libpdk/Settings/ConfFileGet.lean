import Mathlib.Data.List.Sort
import Libpdk.Settings.ConfFile

/-!
# Reading a value

`ConfFileSettingsPrivate::get` with a pointer to a value. The iterator it copies
from points at a pair of key and value, and a `std::any` takes any type: what it
stores is that pair.

What `get` finds in a file is `stored`, what `getChildren` comes upon is `listed`. Two
files that agree on both give the same answers, whichever files are asked with them.
-/
namespace Libpdk.Settings

/-- A `std::any`: of some type, or of `std::pair<const SettingsKey, std::any>`. -/
inductive StdAny (V : Type) where
  | of (v : V)
  | pair (key : Str) (any : StdAny V)
  deriving DecidableEq, Repr

theorem StdAny.pair_ne {V : Type} (key : Str) (any : StdAny V) : StdAny.pair key any ≠ any := by
  intro h
  have hsize := congrArg sizeOf h
  simp at hsize

namespace ConfFile

variable {V T : Type}

/-- What is returned, `*value` (`none` for a null pointer) and the files.
mirrors io/fs/Settings.cpp:1172-1201 -/
def get (read : SectionReader (StdAny V) T) (fallbacks : Bool) (key : Str)
    (value : Option (StdAny V)) (files : List (ConfFile (StdAny V) T)) :
    Bool × Option (StdAny V) × List (ConfFile (StdAny V) T) :=
  let r := find read fallbacks key files
  match r.1 with
  | some j => (true, value.map fun _ => .pair j.1 j.2, r.2)
  | none => (false, value, r.2)

/-! ## What the files hold -/

/-- What one file holds for a key: its added table first, then its original one unless
the key is removed. -/
def stored (read : SectionReader V T) (c : ConfFile V T) (key : Str) : Option V :=
  (c.addedKeys.find key).or
    (if (c.removedKeys.find key).isSome then none
      else (c.ensureSectionParsed read key).originalKeys.find key)

/-- What the first file that has the key holds; the others only with fallbacks. -/
def lookup (read : SectionReader V T) (fallbacks : Bool) (key : Str) :
    List (ConfFile V T) → Option V
  | [] => none
  | c :: files => (c.stored read key).or (if fallbacks then lookup read fallbacks key files else none)

/-- Parsing leaves the pending changes alone. -/
theorem ensureSectionParsed_pending (read : SectionReader V T) (c : ConfFile V T) (key : Str) :
    (c.ensureSectionParsed read key).addedKeys = c.addedKeys ∧
      (c.ensureSectionParsed read key).removedKeys = c.removedKeys := by
  unfold ensureSectionParsed
  split <;> exact ⟨rfl, rfl⟩

theorem findIn_stored (read : SectionReader V T) (c : ConfFile V T) (key : Str) :
    (c.findIn read key).1 = (c.stored read key).map fun v => (key, v) := by
  unfold findIn stored
  cases ha : c.addedKeys.find key with
  | some v => simp
  | none =>
    simp only [Option.none_or, (ensureSectionParsed_pending read c key).2]
    cases ho : (c.ensureSectionParsed read key).originalKeys.find key with
    | none => simp
    | some v => cases hr : c.removedKeys.find key <;> simp

/-- The loop ends at the first file that has the key. -/
theorem find_lookup (read : SectionReader V T) (fallbacks : Bool) (key : Str) :
    ∀ files : List (ConfFile V T),
      (find read fallbacks key files).1 = (lookup read fallbacks key files).map fun v => (key, v)
  | [] => rfl
  | c :: files => by
    have hc := findIn_stored read c key
    have ih := find_lookup read fallbacks key files
    unfold find lookup
    simp only [hc]
    cases hs : c.stored read key with
    | some v => simp
    | none => cases fallbacks <;> simp [ih]

/-- What is to be returned, and to be in `*value`. -/
def GetSpec (read : SectionReader (StdAny V) T) (fallbacks : Bool) (key : Str) (value : StdAny V)
    (files : List (ConfFile (StdAny V) T)) : Prop :=
  let r := get read fallbacks key (some value) files
  r.1 = (lookup read fallbacks key files).isSome ∧
    r.2.1 = some ((lookup read fallbacks key files).getD value)

/-- The value is right exactly where there is none. -/
theorem get_iff (read : SectionReader (StdAny V) T) (fallbacks : Bool) (key : Str)
    (value : StdAny V) (files : List (ConfFile (StdAny V) T)) :
    GetSpec read fallbacks key value files ↔ lookup read fallbacks key files = none := by
  have h := find_lookup read fallbacks key files
  unfold GetSpec get
  simp only [h]
  cases lookup read fallbacks key files with
  | none => simp
  | some v =>
    simp only [Option.map_some, Option.getD_some, Option.isSome_some, Option.some.injEq, true_and,
      reduceCtorEq, iff_false]
    exact StdAny.pair_ne key v

/-- A value was set, and what comes back is the pair. -/
theorem get_iff_false : ¬ ∀ (fallbacks : Bool) (key : Str) (value : StdAny Nat)
    (files : List (ConfFile (StdAny Nat) Bytes)),
      GetSpec (fun _ _ m => m) fallbacks key value files := by
  intro h
  have := (h true (lit16 "k") (.of 0) [fresh.set (lit16 "k") (.of 7)]).2
  exact absurd this (by decide)

/-! ## The answers of a file among others -/

/-- A file that stands in another one's place gives the same answers, whichever files
are asked with it. -/
structure SameAnswers (read : SectionReader V T) (c c' : ConfFile V T) : Prop where
  get : ∀ before after fallbacks key,
    (find read fallbacks key (before ++ c :: after)).1 =
      (find read fallbacks key (before ++ c' :: after)).1
  children : ∀ before after fallbacks pre spec,
    (getChildren read fallbacks pre spec (before ++ c :: after)).1 =
      (getChildren read fallbacks pre spec (before ++ c' :: after)).1

/-- A key that `getChildren` comes upon below `pre`. -/
def listed (read : SectionReader V T) (c : ConfFile V T) (pre k : Str) : Prop :=
  ((c.ensureFor read pre).getMergedKeyMap.find k).isSome

/-- The files that `getChildren` asks. -/
def asked (fallbacks : Bool) (files : List (ConfFile V T)) : List (ConfFile V T) :=
  if fallbacks then files else files.take 1

variable {read : SectionReader V T} {c c' : ConfFile V T} {pre : Str} {spec : ChildSpec}

theorem lookup_congr {key : Str} (h : c.stored read key = c'.stored read key) (fallbacks : Bool)
    (after : List (ConfFile V T)) : ∀ before : List (ConfFile V T),
      lookup read fallbacks key (before ++ c :: after) =
        lookup read fallbacks key (before ++ c' :: after)
  | [] => by simp only [List.nil_append, lookup, h]
  | b :: before => by
    simp only [List.cons_append, lookup, lookup_congr h fallbacks after before]

theorem gatherChildren_fst (fallbacks : Bool) : ∀ files : List (ConfFile V T),
    (gatherChildren read fallbacks pre spec files).1 =
      (asked fallbacks files).flatMap fun c => childrenIn pre spec (c.ensureFor read pre)
  | [] => by cases fallbacks <;> rfl
  | c :: files => by
    have ih := gatherChildren_fst fallbacks files
    cases fallbacks with
    | false => simp [gatherChildren, asked]
    | true => simpa [gatherChildren, asked] using ih

theorem getChildren_sorted (fallbacks : Bool) (files : List (ConfFile V T)) :
    (getChildren read fallbacks pre spec files).1.Pairwise (· < ·) := by
  unfold getChildren
  exact unique_sorted (List.pairwise_insertionSort _ _)

theorem mem_getChildren {fallbacks : Bool} {files : List (ConfFile V T)} {name : Str} :
    name ∈ (getChildren read fallbacks pre spec files).1 ↔
      ∃ c ∈ asked fallbacks files, ∃ k, listed read c pre k ∧ pre <+: k ∧
        processChild spec (k.drop pre.length) = some name := by
  unfold getChildren
  simp only [mem_unique, (List.perm_insertionSort _ _).mem_iff, gatherChildren_fst,
    List.mem_flatMap, mem_childrenIn, listed]

/-- Lists of names are in order, so only the names count. -/
theorem getChildren_congr (h : ∀ k, pre <+: k → (listed read c pre k ↔ listed read c' pre k))
    (fallbacks : Bool) (before after : List (ConfFile V T)) :
    (getChildren read fallbacks pre spec (before ++ c :: after)).1 =
      (getChildren read fallbacks pre spec (before ++ c' :: after)).1 := by
  have hnames : ∀ name,
      (∃ k, listed read c pre k ∧ pre <+: k ∧
        processChild spec (k.drop pre.length) = some name) ↔
      ∃ k, listed read c' pre k ∧ pre <+: k ∧
        processChild spec (k.drop pre.length) = some name := by
    intro name
    refine exists_congr fun k => ?_
    by_cases hk : pre <+: k
    · rw [h k hk]
    · simp [hk]
  refine (getChildren_sorted fallbacks _).eq_of_mem_iff (getChildren_sorted fallbacks _)
    fun name => ?_
  rw [mem_getChildren, mem_getChildren]
  cases fallbacks with
  | true => simp only [asked, if_true, List.mem_append, List.mem_cons, or_and_right, exists_or,
      exists_eq_left, hnames]
  | false =>
    cases before with
    | nil => simp [asked, hnames]
    | cons b before => simp [asked]

theorem ensureFor_pending (read : SectionReader V T) (c : ConfFile V T) (pre : Str) :
    (c.ensureFor read pre).addedKeys = c.addedKeys ∧
      (c.ensureFor read pre).removedKeys = c.removedKeys := by
  unfold ensureFor
  split
  · exact ⟨rfl, rfl⟩
  · exact ensureSectionParsed_pending read c pre

theorem listed_eq (read : SectionReader V T) (c : ConfFile V T) (pre k : Str) :
    listed read c pre k ↔ (c.addedKeys.find k).isSome ∨
      (c.removedKeys.find k = none ∧ ((c.ensureFor read pre).originalKeys.find k).isSome) := by
  unfold listed
  rw [find_getMergedKeyMap, (ensureFor_pending read c pre).1, (ensureFor_pending read c pre).2]
  cases c.addedKeys.find k <;> cases c.removedKeys.find k <;> simp

/-- Asked for all keys, the first file lists the keys with the prefix, without it. -/
theorem listed_iff {k : Str} (hk : pre <+: k) :
    listed read c pre k ↔ k.drop pre.length ∈ (getChildren read false pre .allKeys [c]).1 := by
  rw [mem_getChildren]
  simp only [asked, Bool.false_eq_true, if_false, List.take_succ_cons, List.take_nil,
    List.mem_singleton, exists_eq_left, processChild, if_true, Option.some.injEq]
  constructor
  · intro h
    exact ⟨k, h, hk, rfl⟩
  · intro h
    obtain ⟨k', h, ⟨t, rfl⟩, hdrop⟩ := h
    obtain ⟨t', rfl⟩ := hk
    rw [List.drop_left, List.drop_left] at hdrop
    rwa [← hdrop]

/-- The answers are what every single key is found to be, and which keys are listed. -/
theorem sameAnswers_iff : SameAnswers read c c' ↔
    (∀ key, c.stored read key = c'.stored read key) ∧
      ∀ pre k, pre <+: k → (listed read c pre k ↔ listed read c' pre k) := by
  constructor
  · intro h
    refine ⟨fun key => ?_, fun pre k hk => ?_⟩
    · have hget := h.get [] [] false key
      simp only [List.nil_append, find_lookup, lookup, Bool.false_eq_true, if_false,
        Option.or_none] at hget
      cases hs : c.stored read key <;> cases hs' : c'.stored read key <;> simp_all
    · have hall := h.children [] [] false pre .allKeys
      simp only [List.nil_append] at hall
      rw [listed_iff hk, listed_iff hk, hall]
  · intro h
    refine ⟨fun before after fallbacks key => ?_, fun before after fallbacks pre spec => ?_⟩
    · rw [find_lookup, find_lookup, lookup_congr (h.1 key)]
    · exact getChildren_congr (h.2 pre) fallbacks before after

end ConfFile

end Libpdk.Settings

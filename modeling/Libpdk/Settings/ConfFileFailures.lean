import Libpdk.Settings.ConfFileGet
import Libpdk.Settings.ConfFileWriters

/-!
# A sync that fails

`syncConfFile` with everything that can go wrong in it: the file is not writable,
the lock is not obtained, the file is not opened for reading, the output is not
opened, not written or not committed. What the system answers is a parameter.

A failed sync keeps the pending changes. What they are applied to afterwards is what
was read last: a file that cannot be read counts as an empty one.
-/
namespace Libpdk.Settings

/-- What reading the file comes to: `createFile`, `open` fails, or its content. -/
inductive Opening (D : Type) where
  | missing
  | refused
  | opened (content : D)

/-- What a sync asks the system, in this order. `found`, `stat` and `written` are sizes
and times. -/
structure Circumstances (D : Type) where
  found : Nat × Nat
  writable : Bool
  locked : Bool
  atomicSyncOnly : Bool
  stat : Nat × Nat
  file : Opening D
  outputOpened : Bool
  ok : Bool
  committed : Bool
  written : Nat × Nat

namespace ConfFile

variable {V T D : Type}

/-- The half of `syncConfFile` that writes, and whether it ends with an access error.
mirrors io/fs/Settings.cpp:1384-1446 -/
def save (f : Format V T D) (e : Circumstances D) (c : ConfFile V T) : ConfFile V T × Bool :=
  let c := c.ensureAllSectionsParsed f.readSection
  let mergedKeys := c.getMergedKeyMap
  if !e.outputOpened then (c, true)
  else if (f.write mergedKeys).isSome && e.ok && e.committed then
    ((c.committed mergedKeys).remember e.written, false)
  else (c, true)

/-- What follows once the file is read, if it had to be. -/
def saveUnless (readOnly : Bool) (f : Format V T D) (e : Circumstances D) (c : ConfFile V T) :
    ConfFile V T × Bool :=
  if readOnly then (c, false) else c.save f e

/-- The file behind a sync, and whether it ends with an access error.
mirrors io/fs/Settings.cpp:1292-1447 -/
def syncConfFileIn (f : Format V T D) (e : Circumstances D) (c : ConfFile V T) :
    ConfFile V T × Bool :=
  let readOnly := c.readOnly
  if readOnly && c.upToDate e.found then (c, false)
  else if !readOnly && !e.writable then (c, true)
  else if !readOnly && !e.locked && e.atomicSyncOnly then (c, true)
  else if readOnly || c.mustReadFile e.stat then
    match e.file with
    | .refused => (c.load f none, true)
    | .missing => saveUnless readOnly f e ((c.load f none).remember e.stat)
    | .opened d => saveUnless readOnly f e ((c.load f (some (d, e.stat.2))).remember e.stat)
  else saveUnless readOnly f e c

/-! ## Nothing goes wrong -/

/-- What reading a file comes to that nothing keeps from being read. -/
def openingOf : DiskFile D → Opening D
  | none => .missing
  | some (d, _) => .opened d

/-- What a sync finds that nothing interrupts. -/
def undisturbed (f : Format V T D) (file : DiskFile D) (written : Nat × Nat) : Circumstances D where
  found := f.stat file
  writable := true
  locked := true
  atomicSyncOnly := true
  stat := f.stat file
  file := openingOf file
  outputOpened := true
  ok := true
  committed := true
  written := written

variable {read : SectionReader V T} {c c' : ConfFile V T}

/-! ## What a failed sync leaves -/

/-- The keys that a content holds. -/
def keysOf (f : Format V T D) (d : D) : OrdMap Str V :=
  ((fresh.load f (some (d, 0))).ensureAllSectionsParsed f.readSection).originalKeys

/-- What was read last, where a sync fails behind the lock: nothing where the file cannot
be read, the content of a file that has changed, else the tables as they are. -/
def lastRead (f : Format V T D) (e : Circumstances D) (c : ConfFile V T) : Option (OrdMap Str V) :=
  if !c.readOnly && (!e.writable || !e.locked && e.atomicSyncOnly) then none
  else if c.readOnly || c.mustReadFile e.stat then
    match e.file with
    | .opened d => some (keysOf f d)
    | _ => some .empty
  else some (c.ensureAllSectionsParsed f.readSection).originalKeys

/-- The pending changes, and `m` read. -/
structure Leaves (c : ConfFile V T) (m : OrdMap Str V) (c' : ConfFile V T) : Prop where
  added : c'.addedKeys = c.addedKeys
  removed : c'.removedKeys = c.removedKeys
  original : c'.originalKeys = m
  parsed : c'.unparsedIniSections = .empty

theorem saveUnless_error {f : Format V T D} {e : Circumstances D} {readOnly : Bool}
    (h : (saveUnless readOnly f e c).2 = true) :
    (saveUnless readOnly f e c).1 = c.ensureAllSectionsParsed f.readSection := by
  unfold saveUnless save at h ⊢
  cases readOnly with
  | true => cases h
  | false =>
    simp only [Bool.false_eq_true, if_false] at h ⊢
    by_cases ho : e.outputOpened
    · simp only [ho, Bool.not_true, Bool.false_eq_true, if_false] at h ⊢
      split at h
      · cases h
      · rename_i hn
        rw [if_neg hn]
    · simp [ho]

theorem leaves_ensureAll (f : Format V T D) (c : ConfFile V T) :
    Leaves c (c.ensureAllSectionsParsed f.readSection).originalKeys
      (c.ensureAllSectionsParsed f.readSection) :=
  ⟨rfl, rfl, rfl, rfl⟩

/-- The tables read anew do not depend on those before. -/
theorem leaves_load (f : Format V T D) (c : ConfFile V T) (d : D) (stat : Nat × Nat) :
    Leaves c (keysOf f d)
      (((c.load f (some (d, stat.2))).remember stat).ensureAllSectionsParsed f.readSection) := by
  unfold keysOf load
  simp only
  split <;> exact ⟨rfl, rfl, rfl, rfl⟩

/-- Every exit with an access error: nothing has happened, or what was read last is left
under the pending changes. -/
theorem syncConfFileIn_error {f : Format V T D} {e : Circumstances D}
    (h : (c.syncConfFileIn f e).2 = true) :
    (lastRead f e c = none ∧ (c.syncConfFileIn f e).1 = c) ∨
      ∃ m, lastRead f e c = some m ∧ Leaves c m (c.syncConfFileIn f e).1 := by
  unfold syncConfFileIn at h ⊢
  unfold lastRead
  simp only at h ⊢
  by_cases hup : (c.readOnly && c.upToDate e.found) = true
  · rw [if_pos hup] at h
    cases h
  rw [if_neg hup] at h ⊢
  by_cases hw : (!c.readOnly && !e.writable) = true
  · rw [if_pos hw]
    refine .inl ⟨if_pos ?_, rfl⟩
    rw [Bool.and_eq_true] at hw ⊢
    exact ⟨hw.1, by simp [hw.2]⟩
  rw [if_neg hw] at h ⊢
  by_cases hl : (!c.readOnly && !e.locked && e.atomicSyncOnly) = true
  · rw [if_pos hl]
    refine .inl ⟨if_pos ?_, rfl⟩
    rw [Bool.and_eq_true, Bool.and_eq_true] at hl
    simp [hl.1.1, hl.1.2, hl.2]
  rw [if_neg hl] at h ⊢
  have hbehind : ¬ (!c.readOnly && (!e.writable || !e.locked && e.atomicSyncOnly)) = true := by
    simp only [Bool.and_eq_true, Bool.or_eq_true] at hw hl ⊢
    tauto
  rw [if_neg hbehind]
  right
  by_cases hm : (c.readOnly || c.mustReadFile e.stat) = true
  · rw [if_pos hm] at h ⊢
    rw [if_pos hm]
    cases hf : e.file with
    | refused => exact ⟨_, rfl, rfl, rfl, rfl, rfl⟩
    | missing =>
      simp only [hf] at h ⊢
      rw [saveUnless_error h]
      exact ⟨_, rfl, rfl, rfl, rfl, rfl⟩
    | opened d =>
      simp only [hf] at h ⊢
      rw [saveUnless_error h]
      exact ⟨_, rfl, leaves_load f c d e.stat⟩
  · rw [if_neg hm] at h ⊢
    rw [if_neg hm, saveUnless_error h]
    exact ⟨_, rfl, leaves_ensureAll f c⟩

/-! ## The answers behind a failed sync -/

/-- Keys without a pending change read as in `m`, one by one and below every prefix,
whichever section is parsed for them. -/
def Reads (read : SectionReader V T) (c : ConfFile V T) (m : OrdMap Str V) : Prop :=
  ∀ k, c.addedKeys.find k = none → c.removedKeys.find k = none →
    (c.ensureSectionParsed read k).originalKeys.find k = m.find k ∧
      ∀ pre, pre <+: k → (((c.ensureFor read pre).originalKeys.find k).isSome ↔ (m.find k).isSome)

/-- A file gives the answers of a map. -/
structure AnswersOf (read : SectionReader V T) (c : ConfFile V T) (m : OrdMap Str V) : Prop where
  get : ∀ fallbacks key,
    (find read fallbacks key [c]).1 = (m.find key).map fun v => (key, v)
  children : ∀ fallbacks pre spec, Children m pre spec (getChildren read fallbacks pre spec [c]).1

theorem Leaves.ensure {m : OrdMap Str V} (h : Leaves c m c') (key : Str) :
    c'.ensureSectionParsed read key = c' ∧ c'.ensureFor read key = c' := by
  unfold ensureFor
  rw [ensureSectionParsed_parsed read h.parsed, ensureAllSectionsParsed_parsed read h.parsed,
    ite_self]
  exact ⟨rfl, rfl⟩

theorem Leaves.answers {m : OrdMap Str V} (h : Leaves c m c') :
    AnswersOf read c' (applyPending c m) := by
  have hmap : c'.getMergedKeyMap = applyPending c m := by
    unfold applyPending getMergedKeyMap
    rw [h.added, h.removed, h.original]
  rw [← hmap]
  refine ⟨fun fallbacks key => ?_, fun fallbacks pre spec => ?_⟩
  · have hin := findIn_fst read h.parsed key
    unfold find
    simp only [hin]
    cases c'.getMergedKeyMap.find key <;> cases fallbacks <;> simp [find]
  · exact (getChildren_single read h.parsed fallbacks pre spec).1

/-- Nothing changes exactly where the keys read before as they do behind. -/
theorem Leaves.sameAnswers {m : OrdMap Str V} (h : Leaves c m c') :
    SameAnswers read c c' ↔ Reads read c m := by
  rw [sameAnswers_iff]
  constructor
  · intro hs k ha hr
    refine ⟨?_, fun pre hpre => ?_⟩
    · have hk := hs.1 k
      simpa [stored, h.added, h.removed, (h.ensure k).1, h.original, ha, hr] using hk
    · have hk := hs.2 pre k hpre
      simpa [listed_eq, h.added, h.removed, (h.ensure pre).2, h.original, ha, hr] using hk
  · intro hk
    refine ⟨fun key => ?_, fun pre k hpre => ?_⟩
    · unfold stored
      rw [h.added, h.removed, (h.ensure key).1, h.original]
      cases ha : c.addedKeys.find key with
      | some v => rfl
      | none =>
        cases hr : c.removedKeys.find key with
        | some u => rfl
        | none => simp [(hk key ha hr).1]
    · rw [listed_eq, listed_eq, h.added, h.removed, (h.ensure pre).2, h.original]
      cases ha : c.addedKeys.find k with
      | some v => simp
      | none =>
        cases hr : c.removedKeys.find k with
        | some u => simp
        | none => simp [(hk k ha hr).2 pre hpre]

/-- A sync that ends with an access error keeps the pending changes. It changes nothing
before it clears the tables; behind that the answers are those of the pending changes
on what was read last, the same as before exactly where the tables read as that. -/
theorem failed_sync (f : Format V T D) (e : Circumstances D) (c : ConfFile V T)
    (h : (c.syncConfFileIn f e).2 = true) :
    ((c.syncConfFileIn f e).1.addedKeys = c.addedKeys ∧
      (c.syncConfFileIn f e).1.removedKeys = c.removedKeys) ∧
    (∀ m, lastRead f e c = some m →
      AnswersOf f.readSection (c.syncConfFileIn f e).1 (applyPending c m)) ∧
    (SameAnswers f.readSection c (c.syncConfFileIn f e).1 ↔
      ∀ m, lastRead f e c = some m → Reads f.readSection c m) := by
  rcases syncConfFileIn_error h with ⟨hnone, hsame⟩ | ⟨m, hm, hleaves⟩
  · rw [hnone, hsame]
    refine ⟨⟨rfl, rfl⟩, fun m hm => ?_, fun hs m hm => ?_, fun hs => ?_⟩
    · cases hm
    · cases hm
    · exact ⟨fun _ _ _ _ => rfl, fun _ _ _ _ _ => rfl⟩
  · rw [hm]
    refine ⟨⟨hleaves.added, hleaves.removed⟩, fun m' hm' => ?_, fun hs m' hm' => ?_, fun hs => ?_⟩
    · cases hm'
      exact hleaves.answers
    · cases hm'
      exact hleaves.sameAnswers.mp hs
    · exact hleaves.sameAnswers.mpr (hs m rfl)

/-! ### The file has changed and cannot be opened -/

/-- A key was read and another one set. -/
def oneRead : ConfFile Nat Unit :=
  ({ fresh with
    size := 1, timeStamp := 1, originalKeys := OrdMap.empty.insert (lit16 "a") 7 } :
      ConfFile Nat Unit).set (lit16 "b") 8

/-- The file is writable and locked, another one than before, and not readable. -/
def unreadable : Circumstances (OrdMap Str Nat) where
  found := (1, 2)
  writable := true
  locked := true
  atomicSyncOnly := true
  stat := (1, 2)
  file := .refused
  outputOpened := true
  ok := true
  committed := true
  written := (2, 3)

theorem failed_sync_unreadable :
    AnswersOf keysFormat.readSection (oneRead.syncConfFileIn keysFormat unreadable).1
      (applyPending oneRead .empty) :=
  (failed_sync keysFormat unreadable oneRead (by decide)).2.1 .empty rfl

theorem failed_sync_loses : ¬ ∀ (e : Circumstances (OrdMap Str Nat)) (c : ConfFile Nat Unit),
    (c.syncConfFileIn keysFormat e).2 = true →
      (c.syncConfFileIn keysFormat e).1.addedKeys = c.addedKeys ∧
      (c.syncConfFileIn keysFormat e).1.removedKeys = c.removedKeys ∧
      SameAnswers keysFormat.readSection c (c.syncConfFileIn keysFormat e).1 := by
  intro h
  have hget := (h unreadable oneRead (by decide)).2.2.get [] [] false (lit16 "a")
  exact absurd hget (by decide)

end ConfFile

end Libpdk.Settings

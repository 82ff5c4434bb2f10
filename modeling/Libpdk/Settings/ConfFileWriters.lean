import Mathlib.Data.List.Perm.Basic
import Libpdk.Settings.ConfFileSync

/-!
# Several writers of one configuration file

Instances in different processes share a file, with `m_atomicSyncOnly` set. A sync
that has nothing to write takes no lock: it reads the file and then asks for its
size and time (`fileInfo.exists()` does not ask for them, and the first question
is that of `fileInfo.getSize()` behind the read). A sync that writes holds the lock
from the comparison of size and time to those of the new file.

Only the commit of the holder of the lock replaces the file. A commit is a step only
where it changes the size or the time of the file and where what is written reads
back as the keys written, whichever order its sections are read in.
-/
namespace Libpdk.Settings

open ConfFile

variable {V T D I : Type}

/-- Where an instance is in `syncConfFile`; `entered` is the file as it was when the
lock was taken. -/
inductive Phase (D : Type)
  | idle
  | reading
  | stating
  | locking
  | locked (entered : DiskFile D)
  | merging (entered : DiskFile D)

structure Writer (V T D : Type) where
  conf : ConfFile V T
  phase : Phase D

structure World (V T D I : Type) where
  file : DiskFile D
  lock : Option I
  writers : I → Writer V T D

inductive Act (V : Type)
  | set (key : Str) (value : V)
  | remove (key : Str)
  | start
  | read
  | stat
  | lock
  | reread
  | commit (now : Nat)
  | fail

/-! ## What a file holds -/

/-- The tables read as `m`, whichever order the unparsed sections are parsed in. -/
def Denotes (f : Format V T D) (c : ConfFile V T) (m : OrdMap Str V) : Prop :=
  ∀ l : List (Str × T), l.Perm c.unparsedIniSections.entries →
    l.foldl (fun m e => f.readSection e.1 e.2 m) c.originalKeys = m

/-- The file reads as `m`. -/
def Holds (f : Format V T D) (file : DiskFile D) (m : OrdMap Str V) : Prop :=
  Denotes f (ConfFile.fresh.load f file) m

/-- The pending changes of the tables, applied to a map. -/
def applyPending (c : ConfFile V T) (m : OrdMap Str V) : OrdMap Str V :=
  ({ c with originalKeys := m } : ConfFile V T).getMergedKeyMap

/-! ## Steps -/

/-- One step of one instance. It fails where the file cannot be opened, locked or
written.
mirrors io/fs/Settings.cpp:1127-1170 and 1292-1446 -/
def writerStep (f : Format V T D) (file : DiskFile D) (w : Writer V T D) :
    Act V → Option (Writer V T D × DiskFile D)
  | .set key value =>
    match w.phase with
    | .idle => some ({ w with conf := w.conf.set key value }, file)
    | _ => none
  | .remove key =>
    match w.phase with
    | .idle => some ({ w with conf := w.conf.remove f.readSection key }, file)
    | _ => none
  | .start =>
    match w.phase with
    | .idle =>
      if w.conf.readOnly then
        if w.conf.upToDate (f.stat file) then some (w, file)
        else some ({ w with phase := .reading }, file)
      else some ({ w with phase := .locking }, file)
    | _ => none
  | .read =>
    match w.phase with
    | .reading => some (⟨w.conf.load f file, .stating⟩, file)
    | _ => none
  | .stat =>
    match w.phase with
    | .stating => some (⟨w.conf.remember (f.stat file), .idle⟩, file)
    | _ => none
  | .lock =>
    match w.phase with
    | .locking => some ({ w with phase := .locked file }, file)
    | _ => none
  | .reread =>
    match w.phase with
    | .locked entered =>
      some (⟨if w.conf.mustReadFile (f.stat file) then (w.conf.load f file).remember (f.stat file)
        else w.conf, .merging entered⟩, file)
    | _ => none
  | .commit now =>
    match w.phase with
    | .merging _ =>
      let c := w.conf.ensureAllSectionsParsed f.readSection
      let mergedKeys := c.getMergedKeyMap
      (f.write mergedKeys).map fun d =>
        let file := some (d, now)
        (⟨(c.committed mergedKeys).remember (f.stat file), .idle⟩, file)
    | _ => none
  | .fail =>
    match w.phase with
    | .reading => some (⟨w.conf.load f none, .idle⟩, file)
    | .locking => some ({ w with phase := .idle }, file)
    | .locked _ =>
      if w.conf.mustReadFile (f.stat file) then some (⟨w.conf.load f none, .idle⟩, file) else none
    | .merging _ => some (⟨w.conf.ensureAllSectionsParsed f.readSection, .idle⟩, file)
    | _ => none

/-- The lock behind a step: held in the critical section, released with it. -/
def nextLock [DecidableEq I] (lock : Option I) (i : I) : Phase D → Option I
  | .locked _ | .merging _ => some i
  | _ => if lock = some i then none else lock

def World.next [DecidableEq I] (f : Format V T D) (s : World V T D I) (l : I × Act V) :
    Option (World V T D I) :=
  (writerStep f s.file (s.writers l.1) l.2).map fun r =>
    ⟨r.2, nextLock s.lock l.1 r.1.phase, Function.update s.writers l.1 r.1⟩

/-- What the lock, the clock and the format are relied on for. -/
def Allowed (f : Format V T D) (s : World V T D I) (l : I × Act V) (s' : World V T D I) : Prop :=
  match l.2 with
  | .lock => s.lock = none
  | .commit _ =>
    f.stat s'.file ≠ f.stat s.file ∧ Holds f s'.file (s'.writers l.1).conf.originalKeys
  | _ => True

/-- Nothing is read yet, and the file, if there is one, reads as some map. -/
def writersSystem [DecidableEq I] (f : Format V T D) : Lts (World V T D I) (I × Act V) where
  init s := (∃ m, Holds f s.file m) ∧ s.lock = none ∧ ∀ i, s.writers i = ⟨fresh, .idle⟩
  step s l s' := World.next f s l = some s' ∧ Allowed f s l s'

/-- The keys that a commit writes. -/
def mergedOf (f : Format V T D) (c : ConfFile V T) : OrdMap Str V :=
  (c.ensureAllSectionsParsed f.readSection).getMergedKeyMap

/-- A commit falls between the read and the stat of no other instance, and gives the
file a size and time that no other instance still remembers. -/
def Steady (f : Format V T D) (s : World V T D I) (l : I × Act V) : Prop :=
  match l.2 with
  | .commit now => ∀ d, f.write (mergedOf f (s.writers l.1).conf) = some d → ∀ j, j ≠ l.1 →
    (s.writers j).phase ≠ .stating ∧
      (0 < (s.writers j).conf.size →
        ((s.writers j).conf.size, (s.writers j).conf.timeStamp) ≠ (f.size d, now))
  | _ => True

/-- A commit makes of the file that its sync found under the lock the same file with the
pending changes; nothing else changes the file. -/
def Updates (f : Format V T D) (s : World V T D I) (l : I × Act V) (s' : World V T D I) : Prop :=
  match l.2 with
  | .commit _ => ∃ entered m, (s.writers l.1).phase = .merging entered ∧ Holds f entered m ∧
      Holds f s'.file (applyPending (s.writers l.1).conf m)
  | _ => s'.file = s.file

/-! ## What the tables read as -/

section Tables

variable {f : Format V T D} {c : ConfFile V T} {m m' : OrdMap Str V} {file : DiskFile D}

theorem Denotes.unique (h : Denotes f c m) (h' : Denotes f c m') : m = m' :=
  (h _ (List.Perm.refl _)).symm.trans (h' _ (List.Perm.refl _))

theorem denotes_load : Denotes f (c.load f file) m ↔ Holds f file m := by
  unfold Holds Denotes load
  cases file with
  | none => rfl
  | some e =>
    simp only
    split <;> rfl

theorem denotes_parsed (h : c.unparsedIniSections = .empty) : Denotes f c c.originalKeys := by
  intro l hl
  rw [h] at hl
  have hnil : l = [] := List.perm_nil.mp hl
  rw [hnil]
  rfl

theorem Holds.empty (h : Holds f file m) (hz : (f.stat file).1 = 0) : m = .empty := by
  have hload : (ConfFile.fresh : ConfFile V T).load f file = fresh := by
    cases file with
    | none => rfl
    | some e =>
      have hsize : f.size e.1 = 0 := hz
      rw [load, if_pos hsize]
      rfl
  have hd : Denotes f (fresh : ConfFile V T) m := by
    rw [← hload]
    exact h
  exact hd.unique (denotes_parsed rfl)

theorem Denotes.ensureAll (h : Denotes f c m) :
    (c.ensureAllSectionsParsed f.readSection).originalKeys = m := h _ (List.Perm.refl _)

theorem entries_perm_erase {U : Type} {n : OrdMap Str U} {e : Str × U} (h : e ∈ n.entries) :
    n.entries.Perm (e :: (n.erase e.1).entries) := by
  obtain ⟨l, hs⟩ := n
  unfold OrdMap.erase OrdMap.filter
  simp only at h ⊢
  induction l with
  | nil => cases h
  | cons e' l ih =>
    obtain ⟨hlt, hl⟩ := List.pairwise_cons.mp hs
    rcases List.mem_cons.mp h with rfl | h
    · rw [List.filter_cons_of_neg (by simp),
        List.filter_eq_self.mpr fun e' he' => by simpa using (hlt e' he').ne']
    · have hne : e'.1 ≠ e.1 := (hlt e h).ne
      rw [List.filter_cons_of_pos (by simpa using hne)]
      exact ((ih hl h).cons e').trans (List.Perm.swap _ _ _)

theorem sectionOf_mem {U : Type} {n : OrdMap Str U} {key : Str} {e : Str × U}
    (h : sectionOf n key = some e) : e ∈ n.entries := by
  unfold sectionOf at h
  split at h
  · split at h
    · cases h
    · rename_i i hi
      split at h
      · cases h
      · cases h
        exact List.takeWhile_subset _ (List.mem_of_getLast? hi)
  · split at h
    · cases h
    · rename_i i hi
      split at h
      · cases h
      · cases h
        exact List.mem_of_mem_head? hi

/-- Parsing one section ahead of the others changes nothing. -/
theorem Denotes.ensureSection (h : Denotes f c m) (key : Str) :
    Denotes f (c.ensureSectionParsed f.readSection key) m := by
  unfold ensureSectionParsed
  cases hs : sectionOf c.unparsedIniSections key with
  | none => exact h
  | some i =>
    intro l hl
    have hp := (hl.cons i).trans (entries_perm_erase (sectionOf_mem hs)).symm
    exact h (i :: l) hp

theorem Denotes.remove (h : Denotes f c m) (key : Str) :
    Denotes f (c.remove f.readSection key) m :=
  (h.ensureSection key).ensureSection (key ++ [slash])

end Tables

/-! ## The invariant -/

/-- The tables of an idle instance read as the file does if the size and time that it
remembers are those of the file, and as nothing if it remembers no bytes. -/
structure Current (f : Format V T D) (file : DiskFile D) (m : OrdMap Str V) (c : ConfFile V T) :
    Prop where
  same : 0 < c.size → (c.size, c.timeStamp) = f.stat file → Denotes f c m
  nothing : c.size = 0 → Denotes f c .empty

/-- What is known of an instance in each phase. -/
def Known (f : Format V T D) (file : DiskFile D) (m : OrdMap Str V) (w : Writer V T D) : Prop :=
  match w.phase with
  | .idle | .locking => Current f file m w.conf
  | .reading =>
    (0 < w.conf.size → (w.conf.size, w.conf.timeStamp) ≠ f.stat file) ∧
      (w.conf.size = 0 → Denotes f w.conf .empty)
  | .stating => Denotes f w.conf m
  | .locked entered => Current f file m w.conf ∧ entered = file
  | .merging entered =>
    Denotes f w.conf m ∧ (w.conf.size = 0 → m = .empty) ∧ entered = file

def InSection : Phase D → Prop
  | .locked _ | .merging _ => True
  | _ => False

structure Inv [DecidableEq I] (f : Format V T D) (s : World V T D I) (m : OrdMap Str V) : Prop where
  file : Holds f s.file m
  lock : ∀ i, InSection (s.writers i).phase → s.lock = some i
  known : ∀ i, Known f s.file m (s.writers i)

section Step

variable [DecidableEq I] {f : Format V T D} {c : ConfFile V T} {m : OrdMap Str V}
  {file : DiskFile D} {w w' : Writer V T D}

theorem Current.of_denotes (h : Denotes f c m) (hz : c.size = 0 → m = .empty) :
    Current f file m c :=
  ⟨fun _ _ => h, fun h0 => by rw [← hz h0]; exact h⟩

theorem ensureSectionParsed_size (c : ConfFile V T) (key : Str) :
    (c.ensureSectionParsed f.readSection key).size = c.size ∧
      (c.ensureSectionParsed f.readSection key).timeStamp = c.timeStamp := by
  unfold ensureSectionParsed
  split <;> exact ⟨rfl, rfl⟩

theorem Current.remove (h : Current f file m c) (key : Str) :
    Current f file m (c.remove f.readSection key) := by
  have h₁ := ensureSectionParsed_size (f := f) c key
  have h₂ := ensureSectionParsed_size (f := f) (c.ensureSectionParsed f.readSection key)
    (key ++ [slash])
  have hsize : (c.remove f.readSection key).size = c.size := h₂.1.trans h₁.1
  have htime : (c.remove f.readSection key).timeStamp = c.timeStamp := h₂.2.trans h₁.2
  refine ⟨fun hpos hstat => ?_, fun hz => ?_⟩
  · rw [hsize] at hpos hstat
    rw [htime] at hstat
    exact (h.same hpos hstat).remove key
  · rw [hsize] at hz
    exact (h.nothing hz).remove key

theorem denotes_load_none (c : ConfFile V T) : Denotes f (c.load f none) .empty :=
  denotes_parsed rfl

/-- Reading the file anew where its size or time is another one. -/
theorem Current.reread (hf : Holds f file m) (h : Current f file m c) :
    let c' := if c.mustReadFile (f.stat file) then (c.load f file).remember (f.stat file) else c
    Denotes f c' m ∧ (c'.size = 0 → m = .empty) := by
  by_cases hm : c.mustReadFile (f.stat file) = true
  · simp only [if_pos hm]
    exact ⟨denotes_load.mpr hf, fun hz => hf.empty hz⟩
  · simp only [if_neg hm]
    simp only [mustReadFile, decide_eq_true_eq, not_or, not_and, not_not] at hm
    obtain ⟨hsize, htime⟩ := hm
    have hempty : c.size = 0 → m = .empty := fun hz => hf.empty (by rw [← hsize, hz])
    refine ⟨?_, hempty⟩
    by_cases hz : c.size = 0
    · rw [hempty hz]
      exact h.nothing hz
    · exact h.same (Nat.pos_of_ne_zero hz) (Prod.ext hsize (htime hz))

/-- A step that leaves the file alone keeps what is known of the instance. -/
theorem Known.step (hf : Holds f file m) (h : Known f file m w) {a : Act V}
    (ha : ∀ now, a ≠ .commit now) {file' : DiskFile D}
    (hs : writerStep f file w a = some (w', file')) : Known f file m w' ∧ file' = file := by
  obtain ⟨c, phase⟩ := w
  cases a with
  | set key value =>
    cases phase with
    | idle =>
      cases hs
      exact ⟨⟨h.same, h.nothing⟩, rfl⟩
    | _ => cases hs
  | remove key =>
    cases phase with
    | idle =>
      cases hs
      exact ⟨Current.remove h key, rfl⟩
    | _ => cases hs
  | start =>
    cases phase with
    | idle =>
      simp only [writerStep] at hs
      split at hs
      · split at hs
        · cases hs
          exact ⟨h, rfl⟩
        · rename_i hup
          cases hs
          refine ⟨⟨fun hpos hstat => hup ?_, h.nothing⟩, rfl⟩
          rw [upToDate, decide_eq_true_eq, ← hstat]
          exact ⟨hpos, rfl, rfl⟩
      · cases hs
        exact ⟨h, rfl⟩
    | _ => cases hs
  | read =>
    cases phase with
    | reading =>
      cases hs
      exact ⟨denotes_load.mpr hf, rfl⟩
    | _ => cases hs
  | stat =>
    cases phase with
    | stating =>
      cases hs
      exact ⟨Current.of_denotes h fun hz => hf.empty hz, rfl⟩
    | _ => cases hs
  | lock =>
    cases phase with
    | locking =>
      cases hs
      exact ⟨⟨h, rfl⟩, rfl⟩
    | _ => cases hs
  | reread =>
    cases phase with
    | locked entered =>
      cases hs
      obtain ⟨hd, hz⟩ := Current.reread hf h.1
      exact ⟨⟨hd, hz, h.2⟩, rfl⟩
    | _ => cases hs
  | commit now => exact absurd rfl (ha now)
  | fail =>
    cases phase with
    | reading =>
      cases hs
      exact ⟨⟨fun hpos hstat => absurd hstat (h.1 hpos), fun _ => denotes_load_none c⟩, rfl⟩
    | locking =>
      cases hs
      exact ⟨h, rfl⟩
    | locked entered =>
      simp only [writerStep] at hs
      split at hs
      · rename_i hm
        cases hs
        refine ⟨⟨fun hpos hstat => ?_, fun _ => denotes_load_none c⟩, rfl⟩
        have hne : (c.size, c.timeStamp) ≠ f.stat file := by
          intro heq
          rw [mustReadFile, decide_eq_true_eq, ← heq] at hm
          simp at hm
        exact absurd hstat hne
      · cases hs
    | merging entered =>
      cases hs
      obtain ⟨hd, hz, -⟩ := h
      refine ⟨Current.of_denotes ?_ hz, rfl⟩
      rw [← hd.ensureAll]
      exact denotes_parsed rfl
    | _ => cases hs

/-- The critical section is entered with the lock only. -/
theorem inSection_of_step {a : Act V} {file' : DiskFile D}
    (hs : writerStep f file w a = some (w', file')) (hin : InSection w'.phase) :
    a = .lock ∨ InSection w.phase := by
  obtain ⟨c, phase⟩ := w
  cases a with
  | lock => exact .inl rfl
  | start =>
    cases phase with
    | idle =>
      simp only [writerStep] at hs
      split at hs
      · split at hs <;> cases hs <;> cases hin
      · cases hs
        cases hin
    | _ => cases hs
  | fail =>
    cases phase with
    | locked entered => exact .inr trivial
    | merging entered => exact .inr trivial
    | reading =>
      cases hs
      cases hin
    | locking =>
      cases hs
      cases hin
    | _ => cases hs
  | _ =>
    cases phase with
    | locked entered => exact .inr trivial
    | merging entered => exact .inr trivial
    | _ => cases hs <;> cases hin

theorem nextLock_of_other {lock : Option I} {i j : I} {phase : Phase D} (hij : j ≠ i)
    (hlock : lock = some j) (hout : ¬ InSection phase) : nextLock lock i phase = some j := by
  have hne : lock ≠ some i := by
    rw [hlock]
    intro he
    exact hij (Option.some.inj he)
  cases phase with
  | locked entered => exact absurd trivial hout
  | merging entered => exact absurd trivial hout
  | _ =>
    change (if lock = some i then none else lock) = some j
    rw [if_neg hne, hlock]

section World

variable {s s' : World V T D I} {i : I} {a : Act V}

/-- One holder of the lock, before a step and behind it. -/
theorem Inv.lock_step (h : Inv f s m) {file' : DiskFile D}
    (hs : writerStep f s.file (s.writers i) a = some (w', file'))
    (ha : a = .lock → s.lock = none) (j : I)
    (hin : InSection (Function.update s.writers i w' j).phase) :
    nextLock s.lock i w'.phase = some j := by
  by_cases hij : j = i
  · subst hij
    rw [Function.update_self] at hin
    cases hp : w'.phase with
    | locked entered => rfl
    | merging entered => rfl
    | _ => rw [hp] at hin; cases hin
  · rw [Function.update_of_ne hij] at hin
    have hlock := h.lock j hin
    apply nextLock_of_other hij hlock
    intro hout
    rcases inSection_of_step hs hout with ha' | hin'
    · rw [ha ha'] at hlock
      cases hlock
    · rw [h.lock i hin'] at hlock
      exact hij (Option.some.inj hlock).symm

theorem Inv.step_other (h : Inv f s m) (ha : ∀ now, a ≠ .commit now)
    (hst : World.next f s (i, a) = some s') (hal : Allowed f s (i, a) s') :
    Inv f s' m ∧ s'.file = s.file := by
  simp only [World.next, Option.map_eq_some_iff] at hst
  obtain ⟨⟨w', file'⟩, hs, rfl⟩ := hst
  obtain ⟨hknown, rfl⟩ := (h.known i).step h.file ha hs
  have hlock : a = .lock → s.lock = none := by
    rintro rfl
    exact hal
  refine ⟨⟨h.file, fun j hin => h.lock_step hs hlock j hin, fun j => ?_⟩, rfl⟩
  by_cases hij : j = i
  · subst hij
    simp only [Function.update_self]
    exact hknown
  · simp only [Function.update_of_ne hij]
    exact h.known j

/-- What a commit leaves. -/
theorem Inv.commit (h : Inv f s m) {now : Nat} (hst : World.next f s (i, .commit now) = some s')
    (hal : Allowed f s (i, .commit now) s') :
    (s.writers i).phase = .merging s.file ∧ ∃ d, f.write (mergedOf f (s.writers i).conf) = some d ∧
      s'.file = some (d, now) ∧ Holds f s'.file (mergedOf f (s.writers i).conf) ∧
      mergedOf f (s.writers i).conf = applyPending (s.writers i).conf m ∧
      s'.writers = Function.update s.writers i
        ⟨(((s.writers i).conf.ensureAllSectionsParsed f.readSection).committed
          (mergedOf f (s.writers i).conf)).remember (f.size d, now), .idle⟩ ∧
      s'.lock = nextLock s.lock i (.idle : Phase D) := by
  have hk := h.known i
  simp only [World.next, Option.map_eq_some_iff] at hst
  obtain ⟨⟨w', file'⟩, hs, rfl⟩ := hst
  simp only [writerStep] at hs
  cases hp : (s.writers i).phase with
  | merging entered =>
    rw [hp] at hs
    simp only [Known, hp] at hk
    obtain ⟨hd, -, rfl⟩ := hk
    simp only [Option.map_eq_some_iff, Prod.mk.injEq] at hs
    obtain ⟨d, hd', rfl, rfl⟩ := hs
    have hholds := hal.2
    simp only [Function.update_self] at hholds
    refine ⟨rfl, d, hd', rfl, hholds, ?_, rfl, rfl⟩
    unfold mergedOf applyPending getMergedKeyMap
    rw [hd.ensureAll]
    rfl
  | _ => rw [hp] at hs; cases hs

/-- A step keeps the invariant. -/
theorem Inv.step (h : Inv f s m) {l : I × Act V} (hst : World.next f s l = some s')
    (hal : Allowed f s l s') (hsd : Steady f s l) : ∃ m', Inv f s' m' := by
  obtain ⟨i, a⟩ := l
  by_cases ha : ∃ now, a = .commit now
  · obtain ⟨now, rfl⟩ := ha
    obtain ⟨hphase, d, hd, hfile, hholds, -, hwriters, hlock⟩ := h.commit hst hal
    refine ⟨mergedOf f (s.writers i).conf, hholds, fun j hin => ?_, fun j => ?_⟩
    · by_cases hij : j = i
      · subst hij
        rw [hwriters, Function.update_self] at hin
        cases hin
      · rw [hwriters, Function.update_of_ne hij] at hin
        have hi := h.lock i (by rw [hphase]; trivial)
        rw [h.lock j hin] at hi
        exact absurd (Option.some.inj hi) hij
    · by_cases hij : j = i
      · subst hij
        rw [hwriters, Function.update_self]
        have hd : Denotes f ((((s.writers j).conf.ensureAllSectionsParsed f.readSection).committed
            (mergedOf f (s.writers j).conf)).remember (f.size d, now))
            (mergedOf f (s.writers j).conf) := denotes_parsed rfl
        refine Current.of_denotes hd fun hz => hholds.empty ?_
        rw [hfile]
        exact hz
      · rw [hwriters, Function.update_of_ne hij, hfile]
        obtain ⟨hnot, hne⟩ := hsd d hd j hij
        have hk := h.known j
        have hout : ¬ InSection (s.writers j).phase := by
          intro hin
          have hi := h.lock i (by rw [hphase]; trivial)
          rw [h.lock j hin] at hi
          exact hij (Option.some.inj hi)
        unfold Known at hk ⊢
        cases hp : (s.writers j).phase with
        | idle =>
          simp only [hp] at hk ⊢
          exact ⟨fun hpos hstat => absurd hstat (hne hpos), hk.nothing⟩
        | locking =>
          simp only [hp] at hk ⊢
          exact ⟨fun hpos hstat => absurd hstat (hne hpos), hk.nothing⟩
        | reading =>
          simp only [hp] at hk ⊢
          exact ⟨hne, hk.2⟩
        | stating => exact absurd hp hnot
        | locked entered => exact absurd (by rw [hp]; trivial) hout
        | merging entered => exact absurd (by rw [hp]; trivial) hout
  · exact ⟨m, (h.step_other (fun now hn => ha ⟨now, hn⟩) hst hal).1⟩

theorem Inv.updates (h : Inv f s m) {l : I × Act V} (hst : World.next f s l = some s')
    (hal : Allowed f s l s') : Updates f s l s' := by
  obtain ⟨i, a⟩ := l
  cases a with
  | commit now =>
    obtain ⟨hphase, d, -, -, hholds, hmerged, -, -⟩ := h.commit hst hal
    exact ⟨s.file, m, hphase, h.file, by rw [← hmerged]; exact hholds⟩
  | _ => exact (h.step_other (fun now hn => by cases hn) hst hal).2

end World

end Step

/-- In every run of steady steps, the next step that completes a sync updates the file
with exactly the pending changes of its instance. -/
theorem no_update_lost [DecidableEq I] (f : Format V T D) (s₀ s s' : World V T D I)
    (ls : List (I × Act V)) (l : I × Act V) (h₀ : (writersSystem f).init s₀)
    (hr : ((writersSystem f).restrict (Steady f)).Run s₀ ls s)
    (hs : (writersSystem f).step s l s') : Updates f s l s' := by
  have hrun : ∀ m, Inv f s₀ m → ∃ m', Inv f s m' := by
    clear h₀ hs
    induction hr with
    | nil s => exact fun m hm => ⟨m, hm⟩
    | @cons s₀ s₁ s l ls hstep _ ih =>
      intro m hm
      obtain ⟨m₁, hm₁⟩ := hm.step hstep.1.1 hstep.1.2 hstep.2
      exact ih m₁ hm₁
  obtain ⟨⟨m, hm⟩, hlock, hfresh⟩ := h₀
  have hinit : Inv f s₀ m := by
    refine ⟨hm, fun i hin => ?_, fun i => ?_⟩
    · rw [hfresh i] at hin
      cases hin
    · rw [hfresh i]
      exact ⟨fun hpos => absurd hpos (Nat.lt_irrefl 0), fun _ => denotes_parsed rfl⟩
  obtain ⟨m', hinv⟩ := hrun m hinit
  exact hinv.updates hs.1 hs.2

/-! ## An update that is lost -/

/-- A format that is registered, with the keys themselves as the content. -/
def keysFormat : Format Nat Unit (OrdMap Str Nat) where
  size m := m.entries.length
  read m := (.empty, m)
  readSection _ _ m := m
  write := some
  write_empty := fun m d hd hz => by
    cases hd
    obtain ⟨l, hs⟩ := m
    have hl : l = [] := List.length_eq_zero_iff.mp hz
    subst hl
    rfl

theorem keysFormat_holds (m : OrdMap Str Nat) (now : Nat) : Holds keysFormat (some (m, now)) m := by
  have hsections : ((fresh : ConfFile Nat Unit).load keysFormat
      (some (m, now))).unparsedIniSections = .empty := by
    simp only [load]
    split <;> rfl
  have horiginal : ((fresh : ConfFile Nat Unit).load keysFormat
      (some (m, now))).originalKeys = m := by
    simp only [load]
    split
    · rename_i hz
      exact (keysFormat.write_empty m m rfl hz).symm
    · rfl
  have hd := denotes_parsed (f := keysFormat) hsections
  rwa [horiginal] at hd

/-- Two instances that have read nothing, and no file. -/
def twoWriters : World Nat Unit (OrdMap Str Nat) Bool := ⟨none, none, fun _ => ⟨fresh, .idle⟩⟩

theorem twoWriters_init : (writersSystem keysFormat).init twoWriters :=
  ⟨⟨.empty, denotes_parsed rfl⟩, rfl, fun _ => rfl⟩

/-- Each instance sets a key and writes the file, one after the other. -/
def inTurn : List (Bool × Act Nat) :=
  [(true, .set (lit16 "a") 7), (true, .start), (true, .lock), (true, .reread), (true, .commit 1),
    (false, .set (lit16 "b") 8), (false, .start), (false, .lock), (false, .reread)]

theorem inTurn_updates : ∃ s s', Updates keysFormat s (false, .commit 2) s' := by
  have hfirst : ∀ s : World Nat Unit (OrdMap Str Nat) Bool, s.writers false = ⟨fresh, .idle⟩ →
      Steady keysFormat s (true, .commit 1) := by
    intro s hs d _ j hj
    cases j with
    | true => exact absurd rfl hj
    | false =>
      rw [hs]
      exact ⟨by simp, fun hpos => absurd hpos (Nat.lt_irrefl 0)⟩
  exact ⟨_, _, no_update_lost keysFormat twoWriters _ _ inTurn (false, .commit 2) twoWriters_init
    (.cons ⟨⟨rfl, trivial⟩, trivial⟩ (.cons ⟨⟨rfl, trivial⟩, trivial⟩
      (.cons ⟨⟨rfl, rfl⟩, trivial⟩ (.cons ⟨⟨rfl, trivial⟩, trivial⟩
      (.cons ⟨⟨rfl, by decide, keysFormat_holds _ _⟩, hfirst _ rfl⟩
      (.cons ⟨⟨rfl, trivial⟩, trivial⟩ (.cons ⟨⟨rfl, trivial⟩, trivial⟩
      (.cons ⟨⟨rfl, rfl⟩, trivial⟩ (.cons ⟨⟨rfl, trivial⟩, trivial⟩ (.nil _))))))))))
    ⟨rfl, by decide, keysFormat_holds _ _⟩⟩

/-- One instance has read that there is no file; before it asks for size and time, the
other one sets a key and writes the file. Then the first one sets another key. -/
def lostRun : List (Bool × Act Nat) :=
  [(false, .start), (false, .read), (true, .set (lit16 "a") 7), (true, .start), (true, .lock),
    (true, .reread), (true, .commit 1), (false, .stat), (false, .set (lit16 "b") 8),
    (false, .start), (false, .lock), (false, .reread)]

theorem no_update_lost_false : ¬ ∀ (s s' : World Nat Unit (OrdMap Str Nat) Bool)
    (ls : List (Bool × Act Nat)) (l : Bool × Act Nat),
      (writersSystem keysFormat).Run twoWriters ls s → (writersSystem keysFormat).step s l s' →
      Updates keysFormat s l s' := by
  intro h
  obtain ⟨entered, m, hphase, hentered, hfile⟩ := h _ _ lostRun (false, .commit 2)
    (.cons ⟨rfl, trivial⟩ (.cons ⟨rfl, trivial⟩ (.cons ⟨rfl, trivial⟩ (.cons ⟨rfl, trivial⟩
      (.cons ⟨rfl, rfl⟩ (.cons ⟨rfl, trivial⟩
      (.cons ⟨rfl, by decide, keysFormat_holds _ _⟩ (.cons ⟨rfl, trivial⟩ (.cons ⟨rfl, trivial⟩
      (.cons ⟨rfl, trivial⟩ (.cons ⟨rfl, rfl⟩ (.cons ⟨rfl, trivial⟩ (.nil _)))))))))))))
    ⟨rfl, by decide, keysFormat_holds _ _⟩
  cases hphase
  have hm := hentered.unique (keysFormat_holds _ _)
  have hlost := hfile.unique (keysFormat_holds _ _)
  rw [hm] at hlost
  have hfind := congrArg (fun n => n.find (lit16 "a")) hlost
  exact absurd hfind (by decide)

end Libpdk.Settings

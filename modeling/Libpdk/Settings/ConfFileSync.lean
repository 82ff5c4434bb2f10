import Libpdk.Core.Lts
import Libpdk.Settings.ConfFile
import Libpdk.Settings.IniRoundTrip

/-!
# Writing a configuration file back

The pieces of `syncConfFile`, and the run through them that nothing interrupts. A
file on disk is its content and its modification time; a time is a number. How
keys are read from a content and written into one is a `Format`: an INI file, or
the functions that are registered for another one.
-/
namespace Libpdk.Settings

/-- A content is read into sections and keys. Only a map without keys is written as
a content of no bytes. -/
structure Format (V T D : Type) where
  size : D → Nat
  read : D → OrdMap Str T × OrdMap Str V
  readSection : SectionReader V T
  write : OrdMap Str V → Option D
  write_empty : ∀ m d, write m = some d → size d = 0 → m = .empty

/-- A file on disk, unless it does not exist. -/
abbrev DiskFile (D : Type) := Option (D × Nat)

/-- `fileInfo.getSize()` and `fileInfo.getLastModified()`. -/
def Format.stat {V T D : Type} (f : Format V T D) : DiskFile D → Nat × Nat
  | none => (0, 0)
  | some (d, time) => (f.size d, time)

namespace ConfFile

variable {V T D : Type}

/-- mirrors io/fs/Settings.cpp:1294 -/
def readOnly (c : ConfFile V T) : Bool :=
  c.addedKeys.entries.isEmpty && c.removedKeys.entries.isEmpty

/-- Nothing to read and nothing to write.
mirrors io/fs/Settings.cpp:1300-1305 -/
def upToDate (c : ConfFile V T) (stat : Nat × Nat) : Bool :=
  decide (0 < c.size ∧ c.size = stat.1 ∧ c.timeStamp = stat.2)

/-- `mustReadFile` of a sync that writes.
mirrors io/fs/Settings.cpp:1333-1335 -/
def mustReadFile (c : ConfFile V T) (stat : Nat × Nat) : Bool :=
  decide (c.size ≠ stat.1 ∨ (c.size ≠ 0 ∧ c.timeStamp ≠ stat.2))

/-- The tables are read anew.
mirrors io/fs/Settings.cpp:1337-1374 -/
def load (f : Format V T D) (c : ConfFile V T) : DiskFile D → ConfFile V T
  | none => { c with unparsedIniSections := .empty, originalKeys := .empty }
  | some (d, _) =>
    if f.size d = 0 then { c with unparsedIniSections := .empty, originalKeys := .empty }
    else { c with unparsedIniSections := (f.read d).1, originalKeys := (f.read d).2 }

/-- mirrors io/fs/Settings.cpp:1376-1377 and 1431-1432 -/
def remember (c : ConfFile V T) (stat : Nat × Nat) : ConfFile V T :=
  { c with size := stat.1, timeStamp := stat.2 }

/-- mirrors io/fs/Settings.cpp:1425-1428 -/
def committed (c : ConfFile V T) (mergedKeys : OrdMap Str V) : ConfFile V T :=
  { c with
    unparsedIniSections := .empty
    originalKeys := mergedKeys
    addedKeys := .empty
    removedKeys := .empty }

/-- A sync that succeeds, at the time `now`; `none` where the keys are not written.
mirrors io/fs/Settings.cpp:1292-1446 -/
def syncConfFile (f : Format V T D) (now : Nat) (c : ConfFile V T) (file : DiskFile D) :
    Option (ConfFile V T × DiskFile D) :=
  if c.readOnly then
    if c.upToDate (f.stat file) then some (c, file)
    else some ((c.load f file).remember (f.stat file), file)
  else
    let c := if c.mustReadFile (f.stat file) then (c.load f file).remember (f.stat file) else c
    let c := c.ensureAllSectionsParsed f.readSection
    let mergedKeys := c.getMergedKeyMap
    (f.write mergedKeys).map fun d =>
      let file := some (d, now)
      ((c.committed mergedKeys).remember (f.stat file), file)

/-! ## One file that nobody else writes -/

/-- What holds between the operations: the tables are those of the file. -/
structure Parsed (f : Format V T D) (c : ConfFile V T) (file : DiskFile D) : Prop where
  remembered : (c.size, c.timeStamp) = f.stat file
  parsed : c.unparsedIniSections = .empty
  nothing : c.size = 0 → c.originalKeys = .empty

theorem getMergedKeyMap_readOnly {c : ConfFile V T} (h : c.readOnly = true) :
    c.getMergedKeyMap = c.originalKeys := by
  unfold readOnly at h
  rw [Bool.and_eq_true, List.isEmpty_iff, List.isEmpty_iff] at h
  unfold getMergedKeyMap
  rw [h.1, h.2]
  rfl

/-- A sync changes no answer. -/
theorem Parsed.sync {f : Format V T D} {c c' : ConfFile V T} {file file' : DiskFile D} {now : Nat}
    (h : Parsed f c file) (hs : syncConfFile f now c file = some (c', file')) :
    Parsed f c' file' ∧ c'.getMergedKeyMap = c.getMergedKeyMap := by
  have hstat := h.remembered
  unfold syncConfFile at hs
  by_cases hro : c.readOnly = true
  · rw [if_pos hro] at hs
    by_cases hup : c.upToDate (f.stat file) = true
    · rw [if_pos hup] at hs
      cases hs
      exact ⟨h, rfl⟩
    · rw [if_neg hup] at hs
      cases hs
      have hsize : c.size = 0 := by
        rw [← hstat] at hup
        simpa [upToDate] using hup
      have hload : c.load f file =
          { c with unparsedIniSections := .empty, originalKeys := .empty } := by
        cases file with
        | none => rfl
        | some e =>
          have : f.size e.1 = 0 := by rw [← hsize]; exact (congrArg Prod.fst hstat).symm
          rw [load, if_pos this]
      have hsame : (c.load f file).remember (f.stat file) = c := by
        rw [hload, ← hstat, remember, ← h.parsed, ← h.nothing hsize]
      rw [hsame]
      exact ⟨h, rfl⟩
  · have hmust : c.mustReadFile (f.stat file) = false := by
      rw [← hstat]
      simp [mustReadFile]
    rw [if_neg hro, hmust] at hs
    simp only [Bool.false_eq_true, if_false, ensureAllSectionsParsed_parsed f.readSection h.parsed,
      Option.map_eq_some_iff, Prod.mk.injEq] at hs
    obtain ⟨d, hd, rfl, rfl⟩ := hs
    refine ⟨⟨rfl, rfl, fun hz => f.write_empty _ d hd hz⟩, ?_⟩
    exact getMergedKeyMap_readOnly rfl

end ConfFile

/-!
## A settings store is a map

One configuration file that nobody else writes: whatever is set, removed, cleared
and synced, the three queries answer from the abstract map.
-/

open ConfFile

variable {V T D : Type}

/-- `sync` carries the time at which the file is replaced. -/
inductive StoreOp (V : Type)
  | set (key : Str) (value : V)
  | remove (key : Str)
  | clear
  | sync (now : Nat)

/-- The file in memory and on disk. -/
structure Store (V T D : Type) where
  conf : ConfFile V T
  file : DiskFile D

def Store.perform (f : Format V T D) (s : Store V T D) : StoreOp V → Option (Store V T D)
  | .set key value => some { s with conf := s.conf.set key value }
  | .remove key => some { s with conf := s.conf.remove f.readSection key }
  | .clear => some { s with conf := s.conf.clear f.readSection }
  | .sync now => (syncConfFile f now s.conf s.file).map fun r => ⟨r.1, r.2⟩

/-- The store is a map with prefix removal. -/
def applyOp (m : OrdMap Str V) : StoreOp V → OrdMap Str V
  | .set key value => m.insert key value
  | .remove key => m.filter fun k => !removes key k
  | .clear => .empty
  | .sync _ => m

/-- What the queries answer for a map. -/
structure Answers (f : Format V T D) (c : ConfFile V T) (m : OrdMap Str V) : Prop where
  get : ∀ fallbacks key, (find f.readSection fallbacks key [c]).1.isSome = (m.find key).isSome
  children : ∀ fallbacks pre spec,
    Children m pre spec (getChildren f.readSection fallbacks pre spec [c]).1
  merged : c.getMergedKeyMap = m

def storeSystem (f : Format V T D) : Lts (Store V T D) (StoreOp V) :=
  .ofStep (fun s => Parsed f s.conf s.file) (Store.perform f)

theorem ConfFile.Parsed.remove {f : Format V T D} {c : ConfFile V T} {file : DiskFile D}
    (h : Parsed f c file) (key : Str) : Parsed f (c.remove f.readSection key) file := by
  have hc : (c.remove f.readSection key).originalKeys = c.originalKeys ∧
      (c.remove f.readSection key).unparsedIniSections = c.unparsedIniSections := by
    unfold ConfFile.remove
    simp only [ensureSectionParsed_parsed f.readSection h.parsed, and_self]
  have hs : (c.remove f.readSection key).size = c.size ∧
      (c.remove f.readSection key).timeStamp = c.timeStamp := by
    unfold ConfFile.remove
    simp only [ensureSectionParsed_parsed f.readSection h.parsed, and_self]
  refine ⟨?_, hc.2.trans h.parsed, fun hz => ?_⟩
  · rw [hs.1, hs.2]
    exact h.remembered
  · rw [hc.1]
    exact h.nothing (hs.1.symm.trans hz)

theorem ConfFile.Parsed.clear {f : Format V T D} {c : ConfFile V T} {file : DiskFile D}
    (h : Parsed f c file) : Parsed f (c.clear f.readSection) file := by
  unfold ConfFile.clear
  rw [ensureAllSectionsParsed_parsed f.readSection h.parsed]
  exact ⟨h.remembered, h.parsed, h.nothing⟩

/-- One operation acts on the map that the tables stand for. -/
theorem ConfFile.Parsed.step {f : Format V T D} {s s' : Store V T D} {op : StoreOp V}
    (h : Parsed f s.conf s.file) (hp : s.perform f op = some s') :
    Parsed f s'.conf s'.file ∧ s'.conf.getMergedKeyMap = applyOp s.conf.getMergedKeyMap op := by
  cases op with
  | set key value =>
    cases hp
    exact ⟨⟨h.remembered, h.parsed, h.nothing⟩, getMergedKeyMap_set _ key value⟩
  | remove key =>
    cases hp
    exact ⟨h.remove key, getMergedKeyMap_remove f.readSection h.parsed key⟩
  | clear =>
    cases hp
    exact ⟨h.clear, getMergedKeyMap_clear f.readSection _⟩
  | sync now =>
    simp only [Store.perform, Option.map_eq_some_iff] at hp
    obtain ⟨⟨c', file'⟩, hs, rfl⟩ := hp
    exact h.sync hs

theorem ConfFile.Parsed.answers {f : Format V T D} {c : ConfFile V T} {file : DiskFile D}
    (h : Parsed f c file) : Answers f c c.getMergedKeyMap := by
  refine ⟨fun fallbacks key => ?_, fun fallbacks pre spec => ?_, rfl⟩
  · have hin := findIn_fst f.readSection h.parsed key
    unfold find
    simp only [hin]
    cases c.getMergedKeyMap.find key <;> cases fallbacks <;> simp [find]
  · exact (getChildren_single f.readSection h.parsed fallbacks pre spec).1

/-- In every run of sets, removals, clears and syncs, from any content that is parsed,
the queries answer from the map that the operations lead to. -/
theorem store_is_map (f : Format V T D) (s s' : Store V T D) (ops : List (StoreOp V))
    (h : Parsed f s.conf s.file) (hr : (storeSystem f).Run s ops s') :
    Parsed f s'.conf s'.file ∧
      Answers f s'.conf (ops.foldl applyOp s.conf.getMergedKeyMap) := by
  induction hr with
  | nil s => exact ⟨h, h.answers⟩
  | @cons s s₁ s' op ops hstep _ ih =>
    obtain ⟨h₁, hm⟩ := h.step hstep
    rw [List.foldl_cons, ← hm]
    exact ih h₁

/-! ## INI files -/

theorem writeSections_ne_nil {iniMap : IniMap} {name : Str} {names : List Str} {first : Bool}
    {data : Bytes} (h : writeSections iniMap (name :: names) first = some data) : data ≠ [] := by
  simp only [writeSections, Option.bind_eq_bind, Option.bind_eq_some_iff, Option.pure_def,
    Option.some.injEq] at h
  obtain ⟨ents, -, block, -, rest, -, rfl⟩ := h
  simp

/-- A file without a byte holds no keys. -/
theorem writeIniFile_empty {m : ParsedSettingsMap} (h : writeIniFile m = some []) : m = .empty := by
  obtain ⟨l, hs⟩ := m
  cases l with
  | nil => rfl
  | cons e l =>
    have hne : (iniMapOf ⟨e :: l, hs⟩).entries ≠ [] :=
      foldl_addKey_ne_nil _ _ (.inl (List.cons_ne_nil e l))
    have hpos := List.length_pos_iff.mpr hne
    unfold writeIniFile at h
    simp only at h
    cases hnames : (sectionsOf (iniMapOf ⟨e :: l, hs⟩)).take (iniMapOf ⟨e :: l, hs⟩).entries.length with
    | nil =>
      have hlen := congrArg List.length hnames
      simp only [sectionsOf, List.length_take, List.length_insertionSort, List.length_append,
        List.length_replicate, List.length_map, List.length_nil] at hlen
      omega
    | cons name names =>
      rw [hnames] at h
      exact absurd rfl (writeSections_ne_nil h)

/-- Sections and keys as `readIniFile` finds them; a codec is never chosen. -/
def iniRead (data : Bytes) : OrdMap Str Bytes × ParsedSettingsMap :=
  (((readIniFile data).map Prod.fst).getD .empty, .empty)

/-- The native format and `IniFormat`. -/
def iniFormat : Format Any Bytes Bytes where
  size := List.length
  read := iniRead
  readSection := fun name data m => ((readIniSection name data m).map Prod.fst).getD m
  write := writeIniFile
  write_empty := fun m d hd hz => by
    rw [List.length_eq_zero_iff] at hz
    exact writeIniFile_empty (hz ▸ hd)

/-- A key is set and synced, removed and synced. -/
def someOps : List (StoreOp Any) :=
  [.set (lit16 "a") (.item (.string (lit16 "x"))), .sync 1, .remove (lit16 "a"), .sync 2]

theorem someOps_is_map :
    ∃ s' : Store Any Bytes Bytes, Answers iniFormat s'.conf .empty := by
  obtain ⟨s', hs'⟩ := Option.isSome_iff_exists.mp
    (show (Lts.exec (Store.perform iniFormat) ⟨fresh, none⟩ someOps).isSome = true by decide)
  exact ⟨s', (store_is_map iniFormat ⟨fresh, none⟩ s' someOps ⟨rfl, rfl, fun _ => rfl⟩
    (Lts.run_of_exec hs')).2⟩

end Libpdk.Settings

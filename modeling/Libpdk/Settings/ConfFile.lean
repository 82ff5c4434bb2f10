import Libpdk.Settings.IniFile

/-!
# A configuration file

`ConfFile` and the functions of `ConfFileSettingsPrivate` on its tables, as they
are built where keys are case sensitive. What a value is, what the text of a
section is and how `readIniSection` reads one are parameters; INI files are one
case.

`get` copies with `*value = *j` from an iterator, so what it stores in a `std::any`
is the pair of key and value.
-/
namespace Libpdk.Settings

/-- mirrors io/fs/internal/SettingsPrivate.h:174-204 -/
structure ConfFile (V T : Type) where
  size : Nat
  timeStamp : Nat
  unparsedIniSections : OrdMap Str T
  originalKeys : OrdMap Str V
  addedKeys : OrdMap Str V
  removedKeys : OrdMap Str Unit

/-- How a section is read into a map of keys. -/
abbrev SectionReader (V T : Type) := Str → T → OrdMap Str V → OrdMap Str V

namespace ConfFile

variable {V T : Type}

/-- A file that nothing has been read from.
mirrors io/fs/Settings.cpp:122-129 -/
def fresh : ConfFile V T := ⟨0, 0, .empty, .empty, .empty, .empty⟩

/-- mirrors io/fs/Settings.cpp:138-149 -/
def getMergedKeyMap (c : ConfFile V T) : OrdMap Str V :=
  let result := c.removedKeys.entries.foldl (fun m e => m.erase e.1) c.originalKeys
  c.addedKeys.entries.foldl (fun m e => m.insert e.1 e.2) result

/-! ## Lazy parsing -/

/-- mirrors io/fs/Settings.cpp:1785-1796 -/
def ensureAllSectionsParsed (read : SectionReader V T) (c : ConfFile V T) : ConfFile V T :=
  { c with
    originalKeys := c.unparsedIniSections.entries.foldl (fun m e => read e.1 e.2 m) c.originalKeys
    unparsedIniSections := .empty }

/-- The section that `key` is looked for in: of a key with a slash the last one that is
not behind the key, else the first one. -/
def sectionOf (sections : OrdMap Str T) (key : Str) : Option (Str × T) :=
  if slash ∈ key then
    match (sections.entries.takeWhile (·.1 ≤ key)).getLast? with
    | none => none
    | some i => if i.1 = [] ∨ ¬ i.1.isPrefixOf key then none else some i
  else
    match sections.entries.head? with
    | none => none
    | some i => if i.1 ≠ [] then none else some i

/-- mirrors io/fs/Settings.cpp:1798-1828 -/
def ensureSectionParsed (read : SectionReader V T) (c : ConfFile V T) (key : Str) : ConfFile V T :=
  match sectionOf c.unparsedIniSections key with
  | none => c
  | some i =>
    { c with
      originalKeys := read i.1 i.2 c.originalKeys
      unparsedIniSections := c.unparsedIniSections.erase i.1 }

/-! ## Changes -/

/-- The entries from `lower_bound(pre)` on, as long as the key starts with `pre`. -/
def prefixed {W : Type} (pre : Str) (m : OrdMap Str W) : List (Str × W) :=
  (m.entries.dropWhile (·.1 < pre)).takeWhile fun e => pre.isPrefixOf e.1

/-- mirrors io/fs/Settings.cpp:1127-1157 -/
def remove (read : SectionReader V T) (c : ConfFile V T) (key : Str) : ConfFile V T :=
  let pre := key ++ [slash]
  let c := (c.ensureSectionParsed read key).ensureSectionParsed read pre
  let addedKeys := (prefixed pre c.addedKeys).foldl (fun m e => m.erase e.1) c.addedKeys
  let removedKeys :=
    (prefixed pre c.originalKeys).foldl (fun m e => m.insert e.1 ()) c.removedKeys
  { c with
    addedKeys := addedKeys.erase key
    removedKeys :=
      if (c.originalKeys.find key).isSome then removedKeys.insert key () else removedKeys }

/-- mirrors io/fs/Settings.cpp:1159-1170 -/
def set (c : ConfFile V T) (key : Str) (value : V) : ConfFile V T :=
  { c with removedKeys := c.removedKeys.erase key, addedKeys := c.addedKeys.insert key value }

/-- mirrors io/fs/Settings.cpp:1243-1255 -/
def clear (read : SectionReader V T) (c : ConfFile V T) : ConfFile V T :=
  let c := c.ensureAllSectionsParsed read
  { c with addedKeys := .empty, removedKeys := c.originalKeys.map fun _ => () }

/-! ## Queries -/

/-- The entry that `j` points at in one file, if `found`, and the file behind it. -/
def findIn (read : SectionReader V T) (c : ConfFile V T) (key : Str) :
    Option (Str × V) × ConfFile V T :=
  match c.addedKeys.find key with
  | some v => (some (key, v), c)
  | none =>
    let c := c.ensureSectionParsed read key
    match c.originalKeys.find key with
    | some v => (if (c.removedKeys.find key).isNone then some (key, v) else none, c)
    | none => (none, c)

/-- The loop of `get` over the files: what `j` points at when it returns, and the
files behind it.
mirrors io/fs/Settings.cpp:1172-1201 -/
def find (read : SectionReader V T) (fallbacks : Bool) (key : Str) :
    List (ConfFile V T) → Option (Str × V) × List (ConfFile V T)
  | [] => (none, [])
  | c :: files =>
    let r := c.findIn read key
    if r.1.isSome then (r.1, r.2 :: files)
    else if !fallbacks then (none, r.2 :: files)
    else
      let rest := find read fallbacks key files
      (rest.1, r.2 :: rest.2)

inductive ChildSpec
  | allKeys | childKeys | childGroups
  deriving DecidableEq, Repr

/-- What is pushed to the result for a key.
mirrors io/fs/Settings.cpp:291-305 -/
def processChild (spec : ChildSpec) (key : Str) : Option Str :=
  if spec = .allKeys then some key
  else if slash ∉ key then if spec = .childKeys then some key else none
  else if spec = .childGroups then some (key.takeWhile (· ≠ slash)) else none

/-- What one file pushes. -/
def childrenIn (pre : Str) (spec : ChildSpec) (c : ConfFile V T) : List Str :=
  ((prefixed pre c.originalKeys).filter fun e => (c.removedKeys.find e.1).isNone).filterMap
      (fun e => processChild spec (e.1.drop pre.length)) ++
    (prefixed pre c.addedKeys).filterMap fun e => processChild spec (e.1.drop pre.length)

/-- The sections that `getChildren` parses. -/
def ensureFor (read : SectionReader V T) (c : ConfFile V T) (pre : Str) : ConfFile V T :=
  if pre = [] then c.ensureAllSectionsParsed read else c.ensureSectionParsed read pre

/-- `result` before it is sorted, and the files. -/
def gatherChildren (read : SectionReader V T) (fallbacks : Bool) (pre : Str) (spec : ChildSpec) :
    List (ConfFile V T) → List Str × List (ConfFile V T)
  | [] => ([], [])
  | c :: files =>
    let c := c.ensureFor read pre
    if !fallbacks then (childrenIn pre spec c, c :: files)
    else
      let rest := gatherChildren read fallbacks pre spec files
      (childrenIn pre spec c ++ rest.1, c :: rest.2)

/-- `std::unique` behind `a`: of equal neighbours the first one stays. -/
def uniqueFrom (a : Str) : List Str → List Str
  | [] => [a]
  | b :: l => if a = b then uniqueFrom a l else a :: uniqueFrom b l

def unique : List Str → List Str
  | [] => []
  | a :: l => uniqueFrom a l

/-- mirrors io/fs/Settings.cpp:1203-1241 -/
def getChildren (read : SectionReader V T) (fallbacks : Bool) (pre : Str) (spec : ChildSpec)
    (files : List (ConfFile V T)) : List Str × List (ConfFile V T) :=
  let r := gatherChildren read fallbacks pre spec files
  (unique (r.1.insertionSort fun a b : Str => a ≤ b), r.2)

end ConfFile

/-!
## The tables of a configuration file are a map

`getMergedKeyMap` is the map that a file stands for: the changes act on it as on a
map with prefix removal, and the queries answer from it.
-/

/-! ## Keys with a common prefix -/

theorem cons_le_cons {x y : UInt16} {a b : Str} : x :: a ≤ y :: b ↔ x < y ∨ x = y ∧ a ≤ b := by
  rw [← not_lt, ← not_lt]
  have h : (y :: b : Str) < x :: a ↔ y < x ∨ y = x ∧ b < a := List.cons_lt_cons_iff
  rw [h]
  rcases lt_trichotomy x y with hlt | rfl | hgt
  · simp [hlt, hlt.ne', not_lt.mpr hlt.le]
  · simp
  · simp [hgt, hgt.ne', not_lt.mpr hgt.le]

/-- Between a prefix and a string that starts with it, every string starts with it. -/
theorem startsWith_convex : ∀ {p a b : Str}, p ≤ a → a ≤ b → p <+: b → p <+: a
  | [], a, _, _, _, _ => List.nil_prefix
  | x :: p, [], _, h, _, _ => absurd (List.Lex.nil : ([] : Str) < x :: p) (not_lt.mpr h)
  | x :: p, y :: a, [], _, _, h => absurd h (by simp)
  | x :: p, y :: a, z :: b, hpa, hab, h => by
    rw [List.cons_prefix_cons] at h ⊢
    obtain ⟨rfl, hb⟩ := h
    rw [cons_le_cons] at hpa hab
    rcases hpa with hxy | ⟨rfl, hpa⟩
    · rcases hab with hyx | ⟨rfl, -⟩
      · exact absurd (hxy.trans hyx) (lt_irrefl _)
      · exact absurd hxy (lt_irrefl _)
    · rcases hab with hyx | ⟨-, hab⟩
      · exact absurd hyx (lt_irrefl _)
      · exact ⟨rfl, startsWith_convex hpa hab hb⟩

theorem le_of_startsWith : ∀ {p a : Str}, p <+: a → p ≤ a
  | [], [], _ => le_rfl
  | [], y :: a, _ => le_of_lt (List.Lex.nil : ([] : Str) < y :: a)
  | x :: p, [], h => absurd h (by simp)
  | x :: p, y :: a, h => by
    rw [List.cons_prefix_cons] at h
    rw [cons_le_cons]
    exact .inr ⟨h.1, le_of_startsWith h.2⟩

namespace ConfFile

variable {V T W : Type}

/-- Behind the keys with a prefix there is none. -/
theorem takeWhile_startsWith (pre : Str) : ∀ {l : List (Str × W)}, Assoc.Sorted l →
    (∀ e ∈ l, pre ≤ e.1) → (l.takeWhile fun e => pre.isPrefixOf e.1) =
      l.filter fun e => pre.isPrefixOf e.1
  | [], _, _ => rfl
  | e :: l, hs, hge => by
    obtain ⟨hlt, hl⟩ := List.pairwise_cons.mp hs
    by_cases hp : pre.isPrefixOf e.1 = true
    · rw [List.takeWhile_cons_of_pos (p := fun e : Str × W => pre.isPrefixOf e.1) hp,
        List.filter_cons_of_pos (p := fun e : Str × W => pre.isPrefixOf e.1) hp,
        takeWhile_startsWith pre hl fun e' he' => hge e' (List.mem_cons_of_mem _ he')]
    · rw [List.takeWhile_cons_of_neg (p := fun e : Str × W => pre.isPrefixOf e.1) hp,
        List.filter_cons_of_neg (p := fun e : Str × W => pre.isPrefixOf e.1) hp]
      refine (List.filter_eq_nil_iff.mpr fun e' he' hp' => hp ?_).symm
      exact List.isPrefixOf_iff_prefix.mpr (startsWith_convex (hge e List.mem_cons_self)
        (hlt e' he').le (List.isPrefixOf_iff_prefix.mp hp'))

/-- The walk from `lower_bound` finds exactly the keys with the prefix. -/
theorem prefixed_eq (pre : Str) (m : OrdMap Str W) :
    prefixed pre m = m.entries.filter fun e => pre.isPrefixOf e.1 := by
  obtain ⟨l, hs⟩ := m
  unfold prefixed
  simp only
  induction l with
  | nil => rfl
  | cons e l ih =>
    obtain ⟨hlt, hl⟩ := List.pairwise_cons.mp hs
    by_cases he : e.1 < pre
    · have hn : ¬ pre.isPrefixOf e.1 = true := fun hp =>
        absurd (le_of_startsWith (List.isPrefixOf_iff_prefix.mp hp)) (not_le.mpr he)
      rw [List.dropWhile_cons_of_pos (by simpa using he),
        List.filter_cons_of_neg (p := fun e : Str × W => pre.isPrefixOf e.1) hn]
      exact ih hl
    · rw [List.dropWhile_cons_of_neg (by simpa using he)]
      apply takeWhile_startsWith pre hs
      intro e' he'
      rcases List.mem_cons.mp he' with rfl | he'
      · exact not_lt.mp he
      · exact (not_lt.mp he).trans (hlt e' he').le

theorem mem_prefixed {pre : Str} {m : OrdMap Str W} {e : Str × W} :
    e ∈ prefixed pre m ↔ m.find e.1 = some e.2 ∧ pre <+: e.1 := by
  rw [prefixed_eq, List.mem_filter, OrdMap.find_eq_some, List.isPrefixOf_iff_prefix]

/-! ## Folding over a table -/

theorem find_eraseAll (k : Str) : ∀ (l : List (Str × W)) (m : OrdMap Str V),
    (l.foldl (fun m e => m.erase e.1) m).find k = if k ∈ l.map Prod.fst then none else m.find k
  | [], m => by simp
  | e :: l, m => by
    rw [List.foldl_cons, find_eraseAll k l, OrdMap.find_erase, List.map_cons]
    by_cases hl : k ∈ l.map Prod.fst
    · rw [if_pos hl, if_pos (List.mem_cons_of_mem _ hl)]
    · rw [if_neg hl]
      by_cases hk : k = e.1
      · rw [if_pos hk, if_pos (by rw [hk]; exact List.mem_cons_self)]
      · rw [if_neg hk, if_neg (by simp only [List.mem_cons, not_or]; exact ⟨hk, hl⟩)]

theorem isSome_insertAll (k : Str) : ∀ (l : List (Str × W)) (m : OrdMap Str Unit),
    ((l.foldl (fun m e => m.insert e.1 ()) m).find k).isSome ↔
      k ∈ l.map Prod.fst ∨ (m.find k).isSome
  | [], m => by simp
  | e :: l, m => by
    rw [List.foldl_cons, isSome_insertAll k l, OrdMap.find_insert, List.map_cons, List.mem_cons]
    by_cases hk : e.1 = k
    · simp [hk]
    · rw [if_neg hk]
      have hk' : k ≠ e.1 := fun h => hk h.symm
      tauto

theorem mem_keys {m : OrdMap Str W} {k : Str} :
    k ∈ m.entries.map Prod.fst ↔ (m.find k).isSome := by
  rw [List.mem_map, Option.isSome_iff_exists]
  constructor
  · intro h
    obtain ⟨e, he, rfl⟩ := h
    exact ⟨e.2, OrdMap.find_eq_some.mpr he⟩
  · intro h
    obtain ⟨v, hv⟩ := h
    exact ⟨(k, v), OrdMap.find_eq_some.mp hv, rfl⟩

theorem mem_prefixed_keys {pre : Str} {m : OrdMap Str W} {k : Str} :
    k ∈ (prefixed pre m).map Prod.fst ↔ (m.find k).isSome ∧ pre <+: k := by
  rw [List.mem_map, Option.isSome_iff_exists]
  constructor
  · intro h
    obtain ⟨e, he, rfl⟩ := h
    obtain ⟨hf, hp⟩ := mem_prefixed.mp he
    exact ⟨⟨e.2, hf⟩, hp⟩
  · intro h
    obtain ⟨⟨v, hv⟩, hp⟩ := h
    exact ⟨(k, v), mem_prefixed.mpr ⟨hv, hp⟩, rfl⟩

/-- What the merged map says of a key: the added table first, then the original one
where the key is not removed. -/
theorem find_getMergedKeyMap (c : ConfFile V T) (k : Str) :
    c.getMergedKeyMap.find k = (c.addedKeys.find k).or
      (if (c.removedKeys.find k).isSome then none else c.originalKeys.find k) := by
  unfold getMergedKeyMap
  simp only
  change (OrdMap.insertAll _ c.addedKeys.entries).find k = _
  cases ha : c.addedKeys.find k with
  | some v =>
    rw [Option.some_or]
    refine OrdMap.find_insertAll_of_mem (fun v' hv' => ?_) (OrdMap.find_eq_some.mp ha)
    rw [OrdMap.find_eq_some.mpr hv', Option.some.injEq] at ha
    exact ha
  | none =>
    rw [Option.none_or, OrdMap.find_insertAll_of_not_mem, find_eraseAll]
    · by_cases hr : (c.removedKeys.find k).isSome
      · rw [if_pos hr, if_pos (mem_keys.mpr hr)]
      · rw [if_neg hr, if_neg fun h => hr (mem_keys.mp h)]
    · intro e he hk
      rw [← hk, OrdMap.find_eq_some.mpr he] at ha
      cases ha

/-! ## Changes -/

/-- `key` and the keys below it. -/
def removes (key k : Str) : Bool := k = key || (key ++ [slash]).isPrefixOf k

@[simp] theorem ensureSectionParsed_parsed (read : SectionReader V T) {c : ConfFile V T}
    (h : c.unparsedIniSections = .empty) (key : Str) : c.ensureSectionParsed read key = c := by
  have hnone : sectionOf c.unparsedIniSections key = none := by
    rw [h]
    unfold sectionOf
    split <;> rfl
  rw [ensureSectionParsed, hnone]

@[simp] theorem ensureAllSectionsParsed_parsed (read : SectionReader V T) {c : ConfFile V T}
    (h : c.unparsedIniSections = .empty) : c.ensureAllSectionsParsed read = c := by
  obtain ⟨size, timeStamp, unparsed, original, added, removed⟩ := c
  simp only at h
  subst h
  rfl

theorem getMergedKeyMap_set (c : ConfFile V T) (key : Str) (value : V) :
    (c.set key value).getMergedKeyMap = c.getMergedKeyMap.insert key value := by
  apply OrdMap.ext_find
  intro k
  rw [OrdMap.find_insert, find_getMergedKeyMap, find_getMergedKeyMap]
  simp only [set, OrdMap.find_insert, OrdMap.find_erase]
  by_cases hk : key = k
  · rw [if_pos hk, if_pos hk, Option.some_or]
  · have hk' : k ≠ key := fun h => hk h.symm
    simp only [if_neg hk, if_neg hk']

/-- The removed table behind `remove`. -/
theorem isSome_removedKeys (read : SectionReader V T) {c : ConfFile V T}
    (h : c.unparsedIniSections = .empty) (key k : Str) :
    ((c.remove read key).removedKeys.find k).isSome ↔
      ((c.originalKeys.find k).isSome ∧ removes key k = true) ∨ (c.removedKeys.find k).isSome := by
  have hfold := isSome_insertAll k (prefixed (key ++ [slash]) c.originalKeys) c.removedKeys
  rw [mem_prefixed_keys] at hfold
  unfold remove
  simp only [ensureSectionParsed_parsed read h, removes, Bool.or_eq_true, decide_eq_true_eq,
    List.isPrefixOf_iff_prefix]
  by_cases hkey : (c.originalKeys.find key).isSome
  · rw [if_pos hkey, OrdMap.find_insert]
    by_cases hk : key = k
    · subst hk
      simp [hkey]
    · rw [if_neg hk, hfold]
      have hk' : k ≠ key := fun e => hk e.symm
      tauto
  · rw [if_neg hkey, hfold]
    by_cases hk : k = key
    · subst hk
      tauto
    · tauto

/-- The added table behind `remove`. -/
theorem find_addedKeys_remove (read : SectionReader V T) {c : ConfFile V T}
    (h : c.unparsedIniSections = .empty) (key k : Str) :
    (c.remove read key).addedKeys.find k =
      if removes key k = true then none else c.addedKeys.find k := by
  unfold remove
  simp only [ensureSectionParsed_parsed read h, removes, Bool.or_eq_true, decide_eq_true_eq,
    List.isPrefixOf_iff_prefix]
  rw [OrdMap.find_erase, find_eraseAll]
  by_cases hk : k = key
  · rw [if_pos hk, if_pos (.inl hk)]
  · rw [if_neg hk]
    by_cases hp : key ++ [slash] <+: k
    · rw [if_pos (Or.inr hp)]
      split
      · rfl
      · rename_i hn
        rw [mem_prefixed_keys] at hn
        simpa [hp] using hn
    · rw [if_neg (not_or.mpr ⟨hk, hp⟩), if_neg fun hm => hp (mem_prefixed_keys.mp hm).2]

theorem getMergedKeyMap_remove (read : SectionReader V T) {c : ConfFile V T}
    (h : c.unparsedIniSections = .empty) (key : Str) :
    (c.remove read key).getMergedKeyMap = c.getMergedKeyMap.filter fun k => !removes key k := by
  have horig : (c.remove read key).originalKeys = c.originalKeys := by
    unfold remove
    simp only [ensureSectionParsed_parsed read h]
  apply OrdMap.ext_find
  intro k
  rw [OrdMap.find_filter, find_getMergedKeyMap, find_getMergedKeyMap,
    find_addedKeys_remove read h, horig]
  by_cases hr : removes key k = true
  · have hnone : (if ((c.remove read key).removedKeys.find k).isSome then none
        else c.originalKeys.find k) = none := by
      split
      · rfl
      · rename_i hn
        rw [isSome_removedKeys read h, not_or] at hn
        simpa [hr] using hn.1
    have hkeep : ¬ (!removes key k) = true := by simp [hr]
    rw [hnone, if_pos hr, if_neg hkeep, Option.none_or]
  · have hiff : ((c.remove read key).removedKeys.find k).isSome ↔ (c.removedKeys.find k).isSome := by
      rw [isSome_removedKeys read h]
      tauto
    have hkeep : (!removes key k) = true := by simpa using hr
    simp only [if_neg hr, if_pos hkeep, hiff]

theorem find_map {W' : Type} (f : W → W') (m : OrdMap Str W) (k : Str) :
    (m.map f).find k = (m.find k).map f := by
  obtain ⟨l, hs⟩ := m
  unfold OrdMap.find OrdMap.map
  simp only
  clear hs
  induction l with
  | nil => rfl
  | cons e l ih =>
    obtain ⟨k', v⟩ := e
    simp only [List.map_cons, Assoc.find]
    by_cases hk : k' = k
    · simp [hk]
    · simp only [if_neg hk, ih]

theorem getMergedKeyMap_clear (read : SectionReader V T) (c : ConfFile V T) :
    (c.clear read).getMergedKeyMap = .empty := by
  apply OrdMap.ext_find
  intro k
  rw [find_getMergedKeyMap, OrdMap.find_empty]
  simp only [clear, OrdMap.find_empty, Option.none_or, find_map, Option.isSome_map]
  cases (c.ensureAllSectionsParsed read).originalKeys.find k <;> simp

/-! ## Queries -/

/-- One file finds what its merged map says. -/
theorem findIn_fst (read : SectionReader V T) {c : ConfFile V T}
    (h : c.unparsedIniSections = .empty) (key : Str) :
    (c.findIn read key).1 = (c.getMergedKeyMap.find key).map fun v => (key, v) := by
  rw [find_getMergedKeyMap]
  unfold findIn
  cases ha : c.addedKeys.find key with
  | some v => simp
  | none =>
    simp only [ensureSectionParsed_parsed read h, Option.none_or]
    cases ho : c.originalKeys.find key with
    | none => simp
    | some v => cases hr : c.removedKeys.find key <;> simp

/-- The names that a file pushes are those of the keys of its merged map. -/
theorem mem_childrenIn {pre : Str} {spec : ChildSpec} {c : ConfFile V T} {name : Str} :
    name ∈ childrenIn pre spec c ↔ ∃ k, (c.getMergedKeyMap.find k).isSome ∧ pre <+: k ∧
      processChild spec (k.drop pre.length) = some name := by
  simp only [childrenIn, List.mem_append, List.mem_filterMap, List.mem_filter, mem_prefixed,
    find_getMergedKeyMap]
  constructor
  · intro h
    rcases h with ⟨e, ⟨⟨ho, hp⟩, hr⟩, hc⟩ | ⟨e, ⟨ha, hp⟩, hc⟩
    · refine ⟨e.1, ?_, hp, hc⟩
      cases hadd : c.addedKeys.find e.1 with
      | some v => simp
      | none =>
        rw [if_neg (by simpa using hr), ho]
        rfl
    · exact ⟨e.1, by rw [ha]; rfl, hp, hc⟩
  · intro h
    obtain ⟨k, hk, hp, hc⟩ := h
    cases ha : c.addedKeys.find k with
    | some v => exact .inr ⟨(k, v), ⟨ha, hp⟩, hc⟩
    | none =>
      rw [ha, Option.none_or] at hk
      by_cases hr : (c.removedKeys.find k).isSome
      · rw [if_pos hr] at hk
        cases hk
      · rw [if_neg hr] at hk
        obtain ⟨v, hv⟩ := Option.isSome_iff_exists.mp hk
        exact .inl ⟨(k, v), ⟨⟨hv, hp⟩, by simpa using hr⟩, hc⟩

/-! ### Sorting and dropping equal neighbours -/

theorem mem_uniqueFrom {x : Str} : ∀ {l : List Str} {a : Str}, x ∈ uniqueFrom a l ↔ x = a ∨ x ∈ l
  | [], a => by simp [uniqueFrom]
  | b :: l, a => by
    unfold uniqueFrom
    split
    · rename_i hab
      subst hab
      rw [mem_uniqueFrom, List.mem_cons]
      tauto
    · rw [List.mem_cons, mem_uniqueFrom, List.mem_cons]

theorem uniqueFrom_sorted : ∀ {l : List Str} {a : Str}, (a :: l).Pairwise (· ≤ ·) →
    (uniqueFrom a l).Pairwise (· < ·)
  | [], a, _ => List.pairwise_singleton _ _
  | b :: l, a, h => by
    obtain ⟨hle, hl⟩ := List.pairwise_cons.mp h
    unfold uniqueFrom
    split
    · rename_i hab
      subst hab
      exact uniqueFrom_sorted hl
    · rename_i hab
      refine List.pairwise_cons.mpr ⟨fun x hx => ?_, uniqueFrom_sorted hl⟩
      have hlt : a < b := lt_of_le_of_ne (hle b List.mem_cons_self) hab
      rcases mem_uniqueFrom.mp hx with rfl | hx
      · exact hlt
      · exact hlt.trans_le (List.rel_of_pairwise_cons hl hx)

theorem mem_unique {x : Str} {l : List Str} : x ∈ unique l ↔ x ∈ l := by
  cases l with
  | nil => rfl
  | cons a l => rw [unique, mem_uniqueFrom, List.mem_cons]

theorem unique_sorted {l : List Str} (h : l.Pairwise (· ≤ ·)) : (unique l).Pairwise (· < ·) := by
  cases l with
  | nil => exact List.Pairwise.nil
  | cons a l => exact uniqueFrom_sorted h

/-- The children of a map: every name once, in order. -/
structure Children (m : OrdMap Str V) (pre : Str) (spec : ChildSpec) (names : List Str) : Prop where
  sorted : names.Pairwise (· < ·)
  mem : ∀ name, name ∈ names ↔ ∃ k, (m.find k).isSome ∧ pre <+: k ∧
    processChild spec (k.drop pre.length) = some name

theorem getChildren_single (read : SectionReader V T) {c : ConfFile V T}
    (h : c.unparsedIniSections = .empty) (fallbacks : Bool) (pre : Str) (spec : ChildSpec) :
    Children c.getMergedKeyMap pre spec (getChildren read fallbacks pre spec [c]).1 ∧
      (getChildren read fallbacks pre spec [c]).2 = [c] := by
  have hfor : c.ensureFor read pre = c := by
    unfold ensureFor
    rw [ensureAllSectionsParsed_parsed read h, ensureSectionParsed_parsed read h, ite_self]
  have hgather : gatherChildren read fallbacks pre spec [c] = (childrenIn pre spec c, [c]) := by
    cases fallbacks <;> simp [gatherChildren, hfor]
  unfold getChildren
  simp only [hgather]
  refine ⟨⟨unique_sorted (List.pairwise_insertionSort _ _), fun name => ?_⟩, trivial⟩
  rw [mem_unique, (List.perm_insertionSort _ _).mem_iff, mem_childrenIn]

end ConfFile

end Libpdk.Settings

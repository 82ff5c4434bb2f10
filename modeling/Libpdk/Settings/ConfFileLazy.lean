import Libpdk.Core.Lts
import Libpdk.Settings.ConfFileGet
import Libpdk.Settings.ConfFileWriters
import Libpdk.Settings.IniMark

/-!
# Sections parsed when they are asked for

`get`, `remove` and `getChildren` parse the one section that `upper_bound` leads to. A
file whose sections are all parsed at once gives the same answers as long as no key that
a query is about is left in another section, and no section is parsed in front of one
with the same key and a smaller name (`Visible`).
-/
namespace Libpdk.Settings

namespace ConfFile

variable {V T : Type}

/-- `set` is no query, but may come between them. -/
inductive Query (V : Type) where
  | get (key : Str)
  | getChildren (pre : Str) (spec : ChildSpec)
  | remove (key : Str)
  | set (key : Str) (value : V)

inductive Answer (V : Type) where
  | entry (found : Option (Str × V))
  | names (children : List Str)
  | done

/-- What one file answers, and the tables behind that. -/
def perform (read : SectionReader V T) (c : ConfFile V T) : Query V → Answer V × ConfFile V T
  | .get key => (.entry (find read true key [c]).1, (c.findIn read key).2)
  | .getChildren pre spec => (.names (getChildren read true pre spec [c]).1, c.ensureFor read pre)
  | .remove key => (.done, c.remove read key)
  | .set key value => (.done, c.set key value)

/-- The answers to a sequence of queries. -/
def answers (read : SectionReader V T) : ConfFile V T → List (Query V) → List (Answer V)
  | _, [] => []
  | c, q :: queries => (c.perform read q).1 :: answers read (c.perform read q).2 queries

/-- The tables of a file that is asked. -/
def querySystem (read : SectionReader V T) : Lts (ConfFile V T) (Query V) :=
  .ofStep (fun _ => True) fun c q => some (c.perform read q).2

theorem findIn_snd (read : SectionReader V T) (c : ConfFile V T) (key : Str) :
    (c.findIn read key).2 =
      if (c.addedKeys.find key).isSome then c else c.ensureSectionParsed read key := by
  unfold findIn
  cases c.addedKeys.find key with
  | some v => rfl
  | none =>
    simp only
    split <;> rfl

/-! ## The condition -/

section Condition

variable (read : SectionReader V T) (keys : Str → T → List Str)

/-- A section that is not parsed yet assigns the key. -/
def Unparsed (c : ConfFile V T) (key : Str) : Prop :=
  ∃ t ∈ c.unparsedIniSections.entries, key ∈ keys t.1 t.2

/-- The section that is parsed for `key` has no key in common with one in front of it. -/
def InTurn (c : ConfFile V T) (key : Str) : Prop :=
  ∀ i, sectionOf c.unparsedIniSections key = some i →
    ∀ t ∈ c.unparsedIniSections.entries, t.1 < i.1 → ∀ k ∈ keys t.1 t.2, k ∉ keys i.1 i.2

/-- A change is pending for the key. -/
def Pending (c : ConfFile V T) (key : Str) : Prop :=
  (c.addedKeys.find key).isSome ∨ (c.removedKeys.find key).isSome

/-- The section that is parsed is the only one that matters. -/
def Visible (c : ConfFile V T) : Query V → Prop
  | .get key => c.addedKeys.find key = none →
    InTurn keys c key ∧
      (Unparsed keys (c.ensureSectionParsed read key) key → (c.removedKeys.find key).isSome)
  | .getChildren pre _ => pre ≠ [] →
    InTurn keys c pre ∧ ∀ k, pre <+: k → Unparsed keys (c.ensureSectionParsed read pre) k →
      Pending c k ∨ ((c.ensureSectionParsed read pre).originalKeys.find k).isSome
  | .remove key =>
    let c₁ := c.ensureSectionParsed read key
    let c₂ := c₁.ensureSectionParsed read (key ++ [slash])
    InTurn keys c key ∧ InTurn keys c₁ (key ++ [slash]) ∧
      ∀ k, removes key k = true → Unparsed keys c₂ k →
        (c.removedKeys.find k).isSome ∨ (c₂.originalKeys.find k).isSome
  | .set _ _ => True

end Condition

/-! ## Parsing one section ahead -/

section Parsing

variable {read : SectionReader V T} {entries : Str → T → List (Str × V)}
  (hread : ∀ name section_ m, read name section_ m = m.insertAll (entries name section_))
  (c : ConfFile V T)

/-- The entries that the unparsed sections assign, in their order. -/
def pendingEntries (entries : Str → T → List (Str × V)) (c : ConfFile V T) : List (Str × V) :=
  c.unparsedIniSections.entries.flatMap fun t => entries t.1 t.2

def keysOfEntries (entries : Str → T → List (Str × V)) (name : Str) (section_ : T) : List Str :=
  (entries name section_).map Prod.fst

include hread in
theorem foldl_read : ∀ (l : List (Str × T)) (m : OrdMap Str V),
    l.foldl (fun m e => read e.1 e.2 m) m = m.insertAll (l.flatMap fun t => entries t.1 t.2)
  | [], m => rfl
  | t :: l, m => by
    rw [List.foldl_cons, foldl_read l, hread, List.flatMap_cons, OrdMap.insertAll_append]

include hread in
theorem originalKeys_ensureAll :
    (c.ensureAllSectionsParsed read).originalKeys =
      c.originalKeys.insertAll (pendingEntries entries c) :=
  foldl_read hread _ _

theorem mem_pendingEntries {key : Str} :
    key ∈ (pendingEntries entries c).map Prod.fst ↔ Unparsed (keysOfEntries entries) c key := by
  unfold pendingEntries Unparsed keysOfEntries
  rw [List.map_flatMap, List.mem_flatMap]

/-- A section in the middle of the others. -/
theorem erase_middle {i : Str × T} {sections : OrdMap Str T} (h : i ∈ sections.entries) :
    ∃ before after, sections.entries = before ++ i :: after ∧
      (sections.erase i.1).entries = before ++ after ∧ ∀ t ∈ before, t.1 < i.1 := by
  obtain ⟨l, hs⟩ := sections
  obtain ⟨before, after, rfl⟩ := List.append_of_mem h
  obtain ⟨-, hafter, hbefore⟩ := List.pairwise_append.mp hs
  have hlt := fun t (ht : t ∈ before) => hbefore t ht i List.mem_cons_self
  have hgt := (List.pairwise_cons.mp hafter).1
  refine ⟨before, after, rfl, ?_, hlt⟩
  simp only [OrdMap.erase, OrdMap.filter, List.filter_append]
  rw [List.filter_cons_of_neg (by simp), List.filter_eq_self.mpr, List.filter_eq_self.mpr]
  · intro t ht
    simpa using (hgt t ht).ne'
  · intro t ht
    simpa using (hlt t ht).ne

include hread in
/-- In its turn, it makes no difference to all of them when a section is parsed. -/
theorem ensureAll_ensureSection {key : Str} (h : InTurn (keysOfEntries entries) c key) :
    (c.ensureSectionParsed read key).ensureAllSectionsParsed read =
      c.ensureAllSectionsParsed read := by
  unfold ensureSectionParsed
  cases hi : sectionOf c.unparsedIniSections key with
  | none => rfl
  | some i =>
    obtain ⟨before, after, hentries, herase, hbefore⟩ := erase_middle (sectionOf_mem hi)
    have hapart : ∀ k ∈ (before.flatMap fun t => entries t.1 t.2).map Prod.fst,
        k ∉ (entries i.1 i.2).map Prod.fst := by
      intro k hk
      rw [List.map_flatMap, List.mem_flatMap] at hk
      obtain ⟨t, ht, hk⟩ := hk
      exact h i hi t (by rw [hentries]; exact List.mem_append_left _ ht) (hbefore t ht) k hk
    unfold ensureAllSectionsParsed
    simp only [foldl_read hread, hentries, herase, hread i.1 i.2, List.flatMap_append, List.flatMap_cons,
      OrdMap.insertAll_append]
    rw [OrdMap.insertAll_disjoint _ hapart]

/-! ## One query -/

theorem ensureAll_twice (read : SectionReader V T) (c : ConfFile V T) :
    (c.ensureAllSectionsParsed read).ensureAllSectionsParsed read =
      c.ensureAllSectionsParsed read := ensureAllSectionsParsed_parsed read rfl

include hread in
/-- What is found without parsing the other sections is found with them. -/
theorem isSome_ensureAll {key : Str} :
    ((c.ensureAllSectionsParsed read).originalKeys.find key).isSome ↔
      (c.originalKeys.find key).isSome ∨ Unparsed (keysOfEntries entries) c key := by
  rw [originalKeys_ensureAll hread, OrdMap.find_insertAll, Option.isSome_or, Bool.or_eq_true,
    OrdMap.isSome_insertAll_empty, mem_pendingEntries]
  exact or_comm

include hread in
theorem find_ensureAll {key : Str} (h : ¬ Unparsed (keysOfEntries entries) c key) :
    (c.ensureAllSectionsParsed read).originalKeys.find key = c.originalKeys.find key := by
  rw [originalKeys_ensureAll hread]
  refine OrdMap.find_insertAll_of_not_mem fun e he hk => h ?_
  rw [← mem_pendingEntries, ← hk]
  exact List.mem_map_of_mem he

include hread in
theorem stored_ensureAll {key : Str}
    (h : Visible read (keysOfEntries entries) c (.get key)) :
    c.stored read key = (c.ensureAllSectionsParsed read).stored read key := by
  unfold stored
  rw [ensureSectionParsed_parsed read (c := c.ensureAllSectionsParsed read) rfl]
  have hpending : (c.ensureAllSectionsParsed read).addedKeys = c.addedKeys ∧
      (c.ensureAllSectionsParsed read).removedKeys = c.removedKeys := ⟨rfl, rfl⟩
  rw [hpending.1, hpending.2]
  cases ha : c.addedKeys.find key with
  | some v => rfl
  | none =>
    obtain ⟨hturn, hleft⟩ := h ha
    by_cases hr : (c.removedKeys.find key).isSome
    · rw [if_pos hr, if_pos hr]
    · rw [if_neg hr, if_neg hr, ← ensureAll_ensureSection hread c hturn,
        find_ensureAll hread _ fun hun => hr (hleft hun)]

include hread in
theorem listed_ensureAll {pre k : Str} (hk : pre <+: k) {spec : ChildSpec}
    (h : Visible read (keysOfEntries entries) c (.getChildren pre spec)) :
    listed read c pre k ↔ listed read (c.ensureAllSectionsParsed read) pre k := by
  have hfor : (c.ensureAllSectionsParsed read).ensureFor read pre =
      c.ensureAllSectionsParsed read := by
    unfold ensureFor
    rw [ensureSectionParsed_parsed read rfl, ensureAll_twice, ite_self]
  by_cases hpre : pre = []
  · unfold listed
    rw [hfor, ensureFor, if_pos hpre]
  · obtain ⟨hturn, hleft⟩ := h hpre
    have hall := ensureAll_ensureSection hread c hturn
    rw [listed_eq, listed_eq, hfor, ensureFor, if_neg hpre, ← hall, isSome_ensureAll hread, hall]
    have hpending : (c.ensureAllSectionsParsed read).addedKeys = c.addedKeys ∧
        (c.ensureAllSectionsParsed read).removedKeys = c.removedKeys := ⟨rfl, rfl⟩
    rw [hpending.1, hpending.2]
    have := hleft k hk
    unfold Pending at this
    cases hr : c.removedKeys.find k with
    | some u => simp
    | none =>
      simp only [hr, Option.isSome_none, Bool.false_eq_true, or_false] at this
      tauto

/-- The pending changes behind a removal from tables with no section left to parse. -/
theorem remove_parsed (read : SectionReader V T) {c : ConfFile V T}
    (h : c.unparsedIniSections = .empty) (key : Str) : c.remove read key =
      { c with
        addedKeys := (c.remove read key).addedKeys
        removedKeys := (c.remove read key).removedKeys } := by
  unfold remove
  simp only [ensureSectionParsed_parsed read h]

/-- The sections that a removal leaves unparsed do not matter for it. -/
theorem remove_eq (read : SectionReader V T) (c : ConfFile V T) (key : Str) :
    let c₂ := (c.ensureSectionParsed read key).ensureSectionParsed read (key ++ [slash])
    let c₀ : ConfFile V T := { c₂ with unparsedIniSections := .empty }
    c.remove read key =
      { c₂ with
        addedKeys := (c₀.remove read key).addedKeys
        removedKeys := (c₀.remove read key).removedKeys } := by
  intro c₂ c₀
  unfold remove
  simp only [ensureSectionParsed_parsed read (show c₀.unparsedIniSections = .empty from rfl)]
  rfl

theorem ext_unit {m m' : OrdMap Str Unit} (h : ∀ k, (m.find k).isSome ↔ (m'.find k).isSome) :
    m = m' := by
  apply OrdMap.ext_find
  intro k
  have hk := h k
  cases hm : m.find k <;> cases hm' : m'.find k <;> simp_all

include hread in
theorem remove_ensureAll {key : Str}
    (h : Visible read (keysOfEntries entries) c (.remove key)) :
    (c.remove read key).ensureAllSectionsParsed read =
      (c.ensureAllSectionsParsed read).remove read key := by
  obtain ⟨hturn, hturn', hleft⟩ := h
  have hremove := remove_eq read c key
  have hsame := (ensureAll_ensureSection hread _ hturn').trans (ensureAll_ensureSection hread c hturn)
  have h₁ := ensureSectionParsed_pending read c key
  have h₂ := ensureSectionParsed_pending read (c.ensureSectionParsed read key) (key ++ [slash])
  have hadded := h₂.1.trans h₁.1
  have hremoved := h₂.2.trans h₁.2
  generalize (c.ensureSectionParsed read key).ensureSectionParsed read (key ++ [slash]) = c₂ at *
  simp only at hremove
  generalize hc₀ : ({ c₂ with unparsedIniSections := .empty } : ConfFile V T) = c₀ at hremove
  have hparsed : c₀.unparsedIniSections = .empty := by rw [← hc₀]
  have hparsed' : (c.ensureAllSectionsParsed read).unparsedIniSections = .empty := rfl
  have hadd : (c₀.remove read key).addedKeys =
      ((c.ensureAllSectionsParsed read).remove read key).addedKeys := by
    apply OrdMap.ext_find
    intro k
    rw [find_addedKeys_remove read hparsed, find_addedKeys_remove read hparsed', ← hc₀]
    simp only [hadded]
    rfl
  have hrem : (c₀.remove read key).removedKeys =
      ((c.ensureAllSectionsParsed read).remove read key).removedKeys := by
    apply ext_unit
    intro k
    rw [isSome_removedKeys read hparsed, isSome_removedKeys read hparsed', ← hsame,
      isSome_ensureAll hread, ← hc₀]
    have hk := hleft k
    have hsame' : (c₂.ensureAllSectionsParsed read).removedKeys = c.removedKeys := hremoved
    simp only [hremoved, hsame']
    tauto
  rw [hremove, remove_parsed read hparsed' key, ← hadd, ← hrem, ← hsame]
  rfl

include hread in
/-- A query that is answered from the section it parses is answered as from all of
them, and leaves the same to be parsed. -/
theorem perform_ensureAll (q : Query V) (h : Visible read (keysOfEntries entries) c q) :
    (c.perform read q).1 = ((c.ensureAllSectionsParsed read).perform read q).1 ∧
      (c.perform read q).2.ensureAllSectionsParsed read =
        ((c.ensureAllSectionsParsed read).perform read q).2 := by
  cases q with
  | get key =>
    have hstored := stored_ensureAll hread c h
    simp only [perform]
    refine ⟨?_, ?_⟩
    · rw [find_lookup, find_lookup]
      simp only [lookup, hstored]
    · rw [findIn_snd, findIn_snd,
        ensureSectionParsed_parsed read (c := c.ensureAllSectionsParsed read) rfl, ite_self]
      split
      · rfl
      · rename_i ha
        exact ensureAll_ensureSection hread c (h (by simpa using ha)).1
  | getChildren pre spec =>
    simp only [perform]
    refine ⟨?_, ?_⟩
    · have hlisted := fun k (hk : pre <+: k) => listed_ensureAll hread c hk h
      have hnames := @getChildren_congr _ _ _ _ _ pre spec hlisted true [] []
      simp only [List.nil_append] at hnames
      rw [hnames]
    · unfold ensureFor
      rw [ensureSectionParsed_parsed read (c := c.ensureAllSectionsParsed read) rfl, ensureAll_twice,
        ite_self]
      split
      · rfl
      · rename_i hpre
        exact ensureAll_ensureSection hread c (h hpre).1
  | remove key => exact ⟨rfl, remove_ensureAll hread c h⟩
  | set key value => exact ⟨rfl, rfl⟩

include hread in
/-- In a run of such queries every answer is the one of a file whose sections were all
parsed before. -/
theorem answers_ensureAll {c c' : ConfFile V T} {queries : List (Query V)}
    (hr : ((querySystem read).restrict (Visible read (keysOfEntries entries))).Run c queries c') :
    answers read c queries = answers read (c.ensureAllSectionsParsed read) queries := by
  induction hr with
  | nil c => rfl
  | @cons c c₁ c' q queries hstep _ ih =>
    obtain ⟨hq, hvisible⟩ := hstep
    obtain ⟨hanswer, hleft⟩ := perform_ensureAll hread c q hvisible
    have hnext : (c.perform read q).2 = c₁ := Option.some.inj hq
    rw [← hnext] at ih
    simp only [answers]
    rw [hanswer, ih, hleft]

end Parsing

end ConfFile

/-! ## INI files -/

open ConfFile Codecs

/-- How the sections of an INI file are read. -/
def iniReader (codec : Option Codec) : SectionReader Any Bytes :=
  fun name data m => (readIniSectionCodec codec name data m).1

/-- The tables behind `readIniFile`. -/
def iniTables [Build] (codec : Option Codec) (data : Bytes) : ConfFile Any Bytes :=
  { (fresh : ConfFile Any Bytes) with unparsedIniSections := (readIniFileCodec codec data).1 }

theorem iniReader_eq (codec : Option Codec) (name : Str) (data : Bytes) (m : ParsedSettingsMap) :
    iniReader codec name data m = m.insertAll (sectionEntries codec name data) := by
  unfold iniReader
  rw [readIniSectionCodec_eq]

theorem keysOfEntries_ini (codec : Option Codec) :
    keysOfEntries (sectionEntries codec) = sectionKeys := by
  funext name data
  exact map_lineEntry codec name _

/-- For every content and codec, and in every run of queries whose steps are all visible,
the sections could as well have been parsed right after reading. -/
theorem lazy_parsing_invisible [Build] (codec : Option Codec) (data : Bytes)
    (queries : List (Query Any)) (c : ConfFile Any Bytes)
    (hr : ((querySystem (iniReader (readIniFileCodec codec data).2.2)).restrict
      (Visible (iniReader (readIniFileCodec codec data).2.2) sectionKeys)).Run
        (iniTables codec data) queries c) :
    answers (iniReader (readIniFileCodec codec data).2.2) (iniTables codec data) queries =
      answers (iniReader (readIniFileCodec codec data).2.2)
        ((iniTables codec data).ensureAllSectionsParsed
          (iniReader (readIniFileCodec codec data).2.2)) queries := by
  rw [← keysOfEntries_ini (readIniFileCodec codec data).2.2] at hr
  exact answers_ensureAll (iniReader_eq (readIniFileCodec codec data).2.2) hr

/-! ### Two files of one line -/

section Single

variable {V T : Type} {c : ConfFile V T} {data : T}

/-- The only section is always in its turn. -/
theorem inTurn_single {keys : Str → T → List Str}
    (h : c.unparsedIniSections.entries = [([], data)]) (key : Str) : InTurn keys c key := by
  intro i hi t ht hlt
  have hi' := sectionOf_mem hi
  rw [h, List.mem_singleton] at hi' ht
  rw [hi', ht] at hlt
  exact absurd hlt (lt_irrefl _)

/-- The default section is parsed for a key without a slash, and for no other one. -/
theorem sectionOf_single (h : c.unparsedIniSections.entries = [([], data)]) (key : Str) :
    sectionOf c.unparsedIniSections key = if slash ∈ key then none else some ([], data) := by
  have hle : ([] : Str) ≤ key := le_of_startsWith List.nil_prefix
  unfold sectionOf
  rw [h]
  split
  · rw [List.takeWhile_cons_of_pos (by simpa using hle)]
    simp
  · rfl

end Single

/-- A key is read, and the keys are listed. -/
theorem lazy_parsing_one :
    answers (iniReader none) (@iniTables ⟨false⟩ none (lit "a=1"))
        [.get (lit16 "a"), .getChildren [] .allKeys] =
      answers (iniReader none)
        ((@iniTables ⟨false⟩ none (lit "a=1")).ensureAllSectionsParsed (iniReader none))
        [.get (lit16 "a"), .getChildren [] .allKeys] := by
  have hread : readIniLine (lit "a=1") = (⟨[], lit "a=1", some 1, false⟩, []) := rfl
  obtain ⟨hsections, -⟩ := @sections_single ⟨false⟩ none _ _ hread (by decide) (by decide)
    (by decide)
  have hvisible : Visible (iniReader none) sectionKeys (@iniTables ⟨false⟩ none (lit "a=1"))
      (.get (lit16 "a")) := by
    intro _
    refine ⟨inTurn_single hsections _, fun hleft => ?_⟩
    obtain ⟨t, ht, -⟩ := hleft
    unfold ensureSectionParsed at ht
    rw [sectionOf_single hsections, if_neg (by decide)] at ht
    simp only [OrdMap.erase, OrdMap.filter] at ht
    rw [List.mem_filter] at ht
    obtain ⟨ht, hne⟩ := ht
    have ht : t ∈ (@readIniFileCodec ⟨false⟩ none (lit "a=1")).1.entries := ht
    rw [hsections, List.mem_singleton] at ht
    rw [ht] at hne
    exact absurd hne (by decide)
  exact @lazy_parsing_invisible ⟨false⟩ none (lit "a=1") _ _
    (.cons ⟨rfl, hvisible⟩ (.cons ⟨rfl, fun hne => absurd rfl hne⟩ (.nil _)))

/-- A key of the default section that has a slash in it is not found. -/
theorem lazy_parsing_seen : ¬ ∀ (codec : Option Codec) (data : Bytes) (queries : List (Query Any)),
    answers (iniReader (@readIniFileCodec ⟨false⟩ codec data).2.2)
        (@iniTables ⟨false⟩ codec data) queries =
      answers (iniReader (@readIniFileCodec ⟨false⟩ codec data).2.2)
        ((@iniTables ⟨false⟩ codec data).ensureAllSectionsParsed
          (iniReader (@readIniFileCodec ⟨false⟩ codec data).2.2)) queries := by
  intro h
  have hread : readIniLine (lit "a\\b=1") = (⟨[], lit "a\\b=1", some 3, false⟩, []) := rfl
  have hlines := iniLines_single hread (by decide)
  obtain ⟨hsections, -⟩ := @sections_single ⟨false⟩ none _ _ hread (by decide) (by decide)
    (by decide)
  have hkeys : sectionKeys [] (lit "a\\b=1") = [lit16 "a/b"] := by
    have hkey : iniUnescapedKey (lit "a\\b") = lit16 "a/b" := by
      have hword : lit "a\\b" = byte 'a' :: 0x5C :: lit "b" := by decide
      rw [hword, iniUnescapedKey_ordinary _ (by decide) (by decide), iniUnescapedKey_slash,
        iniUnescapedKey_plain rfl]
      rfl
    rw [← hkey]
    unfold sectionKeys sectionEntries
    rw [hlines]
    rfl
  have hone := h none (lit "a\\b=1") [.get (lit16 "a/b")]
  have hcodec : (@readIniFileCodec ⟨false⟩ none (lit "a\\b=1")).2.2 = none := rfl
  rw [hcodec] at hone
  simp only [answers, perform, List.cons.injEq, and_true, Answer.entry.injEq, find_lookup, lookup,
    if_true, Option.or_none] at hone
  generalize hc : @iniTables ⟨false⟩ none (lit "a\\b=1") = c at hone
  have hentries : c.unparsedIniSections.entries = [([], lit "a\\b=1")] := by
    rw [← hc]
    exact hsections
  have hlazy : c.stored (iniReader none) (lit16 "a/b") = none := by
    have hslash : slash ∈ lit16 "a/b" := by decide
    unfold stored ensureSectionParsed
    rw [sectionOf_single hentries, if_pos hslash, ← hc]
    rfl
  have heager : ((c.ensureAllSectionsParsed (iniReader none)).stored (iniReader none)
      (lit16 "a/b")).isSome := by
    have hassigned : Unparsed sectionKeys c (lit16 "a/b") :=
      ⟨([], lit "a\\b=1"), by rw [hentries]; exact List.mem_singleton_self _,
        by rw [hkeys]; exact List.mem_singleton_self _⟩
    rw [← keysOfEntries_ini none] at hassigned
    have hfound := (isSome_ensureAll (iniReader_eq none) c).mpr (.inr hassigned)
    unfold stored
    rw [ensureSectionParsed_parsed (c := c.ensureAllSectionsParsed (iniReader none)) _ rfl]
    rw [← hc] at hfound ⊢
    exact hfound
  rw [hlazy] at hone
  cases hs : (c.ensureAllSectionsParsed (iniReader none)).stored (iniReader none) (lit16 "a/b") with
  | none =>
    rw [hs] at heager
    cases heager
  | some v =>
    rw [hs] at hone
    cases hone

end Libpdk.Settings

import Mathlib.Data.List.DropRight
import Libpdk.Lang.StringSplit
import Libpdk.Io.ResourceFind

/-!
# Entries of a file system

`FileSystemEntry` made from a path, as it is built where paths begin with a slash. Where the last
slash and the dots are is looked for when it is asked for, and kept in 16 bits: the last slash, the
first dot behind it, and the last dot behind that one.
-/
namespace Libpdk.Io

section

open Lang (substring)

/-- What separates the segments of a path. -/
def separator : UInt16 := unit '/'

def dot : UInt16 := unit '.'

/-- A number that is stored in a `pint16`. -/
def pint16 (n : Int) : Int := n.bmod 65536

/-- The last place of a unit, or -1.
mirrors lang/String.cpp:1886-1912 -/
def lastIndexOf (s : Str) (c : UInt16) : Int :=
  if c ∈ s then (s.rdropWhile (· ≠ c)).length - 1 else -1

/-- mirrors lang/String.cpp:2244-2250 -/
def left (s : Str) (n : Int) : Str := if n % 2 ^ 32 ≥ s.length then s else s.take n.toNat

/-- mirrors io/fs/internal/FileSystemEntryPrivate.h:104-110 -/
structure FileSystemEntry where
  filePath : Str
  lastSeparator : Int
  firstDotInFileName : Int
  lastDotInFileName : Int

namespace FileSystemEntry

/-- mirrors io/fs/FileSystemEntry.cpp:67-73 -/
def ofPath (filePath : Str) : FileSystemEntry := ⟨filePath, -2, -2, 0⟩

/-! ## Looking for separators -/

/-- mirrors io/fs/FileSystemEntry.cpp:304-310 -/
def findLastSeparator (e : FileSystemEntry) : FileSystemEntry :=
  if e.lastSeparator = -2 then
    { e with lastSeparator := pint16 (lastIndexOf e.filePath separator) }
  else e

/-- `i`, the dots and `lastSeparator` behind the first loop; the argument is `i + 1`. -/
def lastDotLoop (p : Str) (stop : Nat) (lastSeparator : Int) : Nat → Int × Int × Int
  | 0 => (-1, -1, lastSeparator)
  | i + 1 =>
    if i < stop then (i, -1, lastSeparator)
    else if p.getD i 0 = dot then (i, i, lastSeparator)
    else if p.getD i 0 = separator then (i, -1, i)
    else lastDotLoop p stop lastSeparator i

/-- `firstDotInFileName` and `lastSeparator` behind the second loop. -/
def firstDotLoop (p : Str) (stop : Nat) (firstDot lastSeparator : Int) : Nat → Int × Int
  | 0 => (firstDot, lastSeparator)
  | i + 1 =>
    if i < stop then (firstDot, lastSeparator)
    else if p.getD i 0 = dot then firstDotLoop p stop i lastSeparator i
    else if p.getD i 0 = separator then (firstDot, i)
    else firstDotLoop p stop firstDot lastSeparator i

/-- mirrors io/fs/FileSystemEntry.cpp:312-359 -/
def findFileNameSeparators (e : FileSystemEntry) : FileSystemEntry :=
  if e.firstDotInFileName = -2 then
    let lastSeparator := if e.lastSeparator < 0 then -1 else e.lastSeparator
    let stop := if e.lastSeparator < 0 then 0 else e.lastSeparator.toNat
    let (i, lastDot, lastSeparator) := lastDotLoop e.filePath stop lastSeparator e.filePath.length
    let (firstDot, lastSeparator) :=
      if lastSeparator ≠ i then firstDotLoop e.filePath stop lastDot lastSeparator i.toNat
      else (lastDot, lastSeparator)
    { e with
      lastSeparator := pint16 lastSeparator
      firstDotInFileName := pint16 (if firstDot = -1 then -1 else firstDot - max 0 lastSeparator)
      lastDotInFileName := pint16
        (if lastDot = -1 then -1 else if firstDot = lastDot then 0 else lastDot - firstDot) }
  else e

/-! ## Names -/

/-- mirrors io/fs/FileSystemEntry.cpp:148-157 -/
def getFileName (e : FileSystemEntry) : Str × FileSystemEntry :=
  let e := e.findLastSeparator
  (substring e.filePath (e.lastSeparator + 1) (-1), e)

/-- mirrors io/fs/FileSystemEntry.cpp:159-179 -/
def getPath (e : FileSystemEntry) : Str × FileSystemEntry :=
  let e := e.findLastSeparator
  if e.lastSeparator = -1 then ([dot], e)
  else if e.lastSeparator = 0 then ([separator], e)
  else (left e.filePath e.lastSeparator, e)

/-- `length` of `getBaseName` and `getCompleteBaseName`. -/
def nameLength (e : FileSystemEntry) (offset : Int) : Int :=
  if e.firstDotInFileName ≥ 0 then
    if e.lastSeparator ≠ -1 then e.firstDotInFileName + offset - 1
    else e.firstDotInFileName + offset
  else -1

/-- mirrors io/fs/FileSystemEntry.cpp:181-197 -/
def getBaseName (e : FileSystemEntry) : Str × FileSystemEntry :=
  let e := e.findFileNameSeparators
  (substring e.filePath (e.lastSeparator + 1) (e.nameLength 0), e)

/-- mirrors io/fs/FileSystemEntry.cpp:199-215 -/
def getCompleteBaseName (e : FileSystemEntry) : Str × FileSystemEntry :=
  let e := e.findFileNameSeparators
  (substring e.filePath (e.lastSeparator + 1) (e.nameLength e.lastDotInFileName), e)

/-- mirrors io/fs/FileSystemEntry.cpp:217-224 -/
def getSuffix (e : FileSystemEntry) : Str × FileSystemEntry :=
  let e := e.findFileNameSeparators
  if e.lastDotInFileName = -1 then ([], e)
  else
    (substring e.filePath
      (max 0 e.lastSeparator + e.firstDotInFileName + e.lastDotInFileName + 1) (-1), e)

/-- mirrors io/fs/FileSystemEntry.cpp:226-233 -/
def getCompleteSuffix (e : FileSystemEntry) : Str × FileSystemEntry :=
  let e := e.findFileNameSeparators
  if e.firstDotInFileName = -1 then ([], e)
  else (substring e.filePath (max 0 e.lastSeparator + e.firstDotInFileName + 1) (-1), e)

/-! ## Paths -/

/-- mirrors io/fs/FileSystemEntry.cpp:261-265 -/
def isAbsolute (e : FileSystemEntry) : Bool := e.filePath.head? = some separator

/-- mirrors io/fs/FileSystemEntry.cpp:256-259 -/
def isRelative (e : FileSystemEntry) : Bool := !e.isAbsolute

/-- The loop over the path; `dots` are those that may be a segment of their own. -/
def cleanLoop : Str → Nat → Bool → Bool → Bool
  | [], dots, _, _ => dots ≠ 1 ∧ dots ≠ 2
  | c :: p, dots, dotok, slashok =>
    if c = separator then
      if dots = 1 ∨ dots = 2 then false
      else if !slashok then false
      else cleanLoop p 0 true false
    else if dotok then
      if c = dot then cleanLoop p (dots + 1) (dots + 1 ≤ 2) true
      else cleanLoop p 0 false true
    else cleanLoop p dots dotok slashok

/-- mirrors io/fs/FileSystemEntry.cpp:361-393 -/
def isClean (e : FileSystemEntry) : Bool := cleanLoop e.filePath 0 true true

end FileSystemEntry

end

/-!
## Segments between slashes

Segments that are not empty and hold no slash can be joined with slashes and split again.
-/

theorem mem_splitOn {p s : Str} (h : s ∈ p.splitOn separator) : separator ∉ s := by
  induction p generalizing s with
  | nil =>
    obtain rfl : s = [] := by simpa using h
    exact List.not_mem_nil
  | cons c p ih =>
    rw [List.splitOn_cons_eq_if_modifyHead] at h
    by_cases hc : c = separator
    · rw [if_pos (by simpa using hc)] at h
      rcases List.mem_cons.mp h with rfl | h
      · exact List.not_mem_nil
      · exact ih h
    · rw [if_neg (by simpa using hc)] at h
      cases hsplit : p.splitOn separator with
      | nil => exact absurd hsplit (List.splitOn_ne_nil _ _)
      | cons first rest =>
        rw [hsplit] at h ih
        rcases List.mem_cons.mp h with rfl | h
        · have hfirst := ih (s := first) List.mem_cons_self
          rw [List.mem_cons, not_or]
          exact ⟨fun heq => hc heq.symm, hfirst⟩
        · exact ih (List.mem_cons_of_mem _ h)

theorem mem_segments {p s : Str} (h : s ∈ segments p) : s ≠ [] ∧ separator ∉ s := by
  obtain ⟨hmem, hne⟩ := List.mem_filter.mp h
  exact ⟨by simpa using hne, mem_splitOn hmem⟩

/-- Segments that can be joined and split again. -/
def Joinable (segs : List Str) : Prop := ∀ s ∈ segs, s ≠ [] ∧ separator ∉ s

theorem joinable_cons {s : Str} {segs : List Str} :
    Joinable (s :: segs) ↔ (s ≠ [] ∧ separator ∉ s) ∧ Joinable segs := List.forall_mem_cons

section

variable {segs : List Str}

theorem intercalate_ne_nil (h : Joinable segs) (hne : segs ≠ []) :
    [separator].intercalate segs ≠ [] := by
  obtain ⟨s, segs, rfl⟩ := List.exists_cons_of_ne_nil hne
  have hs := (joinable_cons.mp h).1.1
  cases segs with
  | nil => rwa [List.intercalate_singleton]
  | cons t segs =>
    rw [List.intercalate_cons_of_ne_nil (List.cons_ne_nil _ _)]
    simp [hs]

theorem head_intercalate (h : Joinable segs) :
    ([separator].intercalate segs).head? ≠ some separator := by
  cases segs with
  | nil => exact nofun
  | cons s segs =>
    obtain ⟨hs, hfree⟩ := (joinable_cons.mp h).1
    obtain ⟨c, s, rfl⟩ := List.exists_cons_of_ne_nil hs
    have hc : c ≠ separator := fun heq => hfree (heq ▸ List.mem_cons_self)
    cases segs with
    | nil => simpa [List.intercalate_singleton] using hc
    | cons t segs =>
      rw [List.intercalate_cons_of_ne_nil (List.cons_ne_nil _ _)]
      simpa using hc

theorem segments_intercalate (h : Joinable segs) : segments ([separator].intercalate segs) = segs := by
  induction segs with
  | nil => rfl
  | cons s segs ih =>
    obtain ⟨⟨hne, hfree⟩, hrest⟩ := joinable_cons.mp h
    have hword : segments s = [s] :=
      segments_word (fun c hc heq => hfree (by rw [separator, ← heq]; exact hc)) hne
    by_cases hnil : segs = []
    · subst hnil
      rw [List.intercalate_singleton, hword]
    · have hsplit := segments_append s ([separator].intercalate segs)
      rw [hword, ih hrest] at hsplit
      rw [List.intercalate_cons_of_ne_nil hnil, List.append_assoc]
      exact hsplit

theorem last_intercalate (h : Joinable segs) :
    ([separator].intercalate segs).getLast? ≠ some separator := by
  induction segs with
  | nil => exact nofun
  | cons s segs ih =>
    obtain ⟨⟨hne, hfree⟩, hrest⟩ := joinable_cons.mp h
    by_cases hnil : segs = []
    · subst hnil
      rw [List.intercalate_singleton]
      exact fun hlast => hfree (List.mem_of_getLast? hlast)
    · rw [List.intercalate_cons_of_ne_nil hnil,
        List.getLast?_append_of_ne_nil _ (intercalate_ne_nil hrest hnil)]
      exact ih hrest

theorem splitOn_intercalate (h : Joinable segs) (hne : segs ≠ []) :
    ([separator].intercalate segs).splitOn separator = segs :=
  List.splitOn_intercalate separator (fun s hs => (h s hs).2) hne

end

end Libpdk.Io

import Libpdk.Core.Lts
import Libpdk.Io.FileSystemEntry

/-!
# Groups and arrays

The stack of groups that `Settings` keeps, and `m_groupPrefix`, which is edited in place while groups
and arrays begin and end. The functions that a kind of settings implements are a parameter
(`Backend`), and so is `std::any`. A call is `none` where an index and one do not fit in an `int`.
-/
namespace Libpdk.Settings.Groups

open Io (separator segments)

/-! ## Keys -/

/-- The outer loop of `normalizedKey`; `front` is what is in front of `i`.
mirrors io/fs/Settings.cpp:250-271 -/
def normalizeLoop : Nat → Str → Str → Str
  | 0, front, rest => front ++ rest
  | rounds + 1, front, rest =>
    let rest := rest.dropWhile (· = separator)
    if rest = [] then front.dropLast
    else
      let front := front ++ rest.takeWhile (· ≠ separator)
      let rest := rest.dropWhile (· ≠ separator)
      if rest = [] then front else normalizeLoop rounds (front ++ [separator]) rest.tail

/-- mirrors io/fs/Settings.cpp:246-272 -/
def normalizedKey (key : Str) : Str := normalizeLoop (key.length + 1) [] key

/-- mirrors lang/String.cpp:2514-2519 -/
def truncate (s : Str) (pos : Int) : Str := if pos < s.length then s.take pos.toNat else s

/-- mirrors lang/String.cpp:1238-1249 -/
def replace (s : Str) (pos length : Int) (after : Str) : Str :=
  if pos < 0 ∨ pos > s.length then s
  else s.take pos.toNat ++ after ++ s.drop (pos.toNat + (min length (s.length - pos)).toNat)

/-- `String::number` of a number that is not negative. -/
def number (n : Nat) : Str := (Nat.toDigits 10 n).map unit

/-! ## Groups -/

/-- mirrors io/fs/internal/SettingsPrivate.h:116-161 -/
structure SettingsGroup where
  str : Str
  num : Int
  maxNum : Int

namespace SettingsGroup

def ofGroup (s : Str) : SettingsGroup := ⟨s, -1, -1⟩

def ofArray (s : Str) (guessArraySize : Bool) : SettingsGroup :=
  ⟨s, 0, if guessArraySize then 0 else -1⟩

/-- mirrors io/fs/internal/SettingsPrivate.h:163-172 -/
def toString (g : SettingsGroup) : Str :=
  if g.num > 0 then g.str ++ separator :: number g.num.toNat else g.str

def isArray (g : SettingsGroup) : Bool := g.num ≠ -1

/-- mirrors io/fs/internal/SettingsPrivate.h:150-156 -/
def setArrayIndex (g : SettingsGroup) (i : Int) : SettingsGroup :=
  { g with
    num := i + 1
    maxNum := if g.maxNum ≠ -1 ∧ i + 1 > g.maxNum then i + 1 else g.maxNum }

end SettingsGroup

/-! ## Settings -/

/-- The virtual functions, and numbers as values. -/
structure Backend (S V : Type) where
  set : S → Str → V → S
  get : S → Str → Option V
  remove : S → Str → S
  clear : S → S
  ofInt : Int → V
  toInt : Option V → Option Int

/-- `m_groupStack` with its top in front, `m_groupPrefix`, and what the kind of settings keeps. -/
structure State (S : Type) where
  groupStack : List SettingsGroup
  groupPrefix : Str
  store : S

section

variable {S V : Type} (b : Backend S V) (st : State S)

/-- mirrors io/fs/Settings.cpp:228-233 -/
def actualKey (key : Str) : Str := st.groupPrefix ++ normalizedKey key

/-- mirrors io/fs/Settings.cpp:2075-2085 -/
def setValue (key : Str) (value : V) : State S :=
  if key = [] then st else { st with store := b.set st.store (actualKey st key) value }

/-- mirrors io/fs/Settings.cpp:2137-2148 -/
def getValue (key : Str) : Option V := if key = [] then none else b.get st.store (actualKey st key)

/-- mirrors io/fs/Settings.cpp:1992-1996 -/
def getGroup : Str := st.groupPrefix.dropLast

/-- mirrors io/fs/Settings.cpp:2087-2106 -/
def remove (key : Str) : State S :=
  let theKey := if normalizedKey key = [] then getGroup st else st.groupPrefix ++ normalizedKey key
  { st with store := if theKey = [] then b.clear st.store else b.remove st.store theKey }

/-- mirrors io/fs/Settings.cpp:307-314 -/
def beginGroupOrArray (group : SettingsGroup) : State S :=
  { st with
    groupStack := group :: st.groupStack
    groupPrefix :=
      if group.str = [] then st.groupPrefix else st.groupPrefix ++ group.str ++ [separator] }

/-- mirrors io/fs/Settings.cpp:1968-1972 -/
def beginGroup (groupPrefix : Str) : State S :=
  beginGroupOrArray st (.ofGroup (normalizedKey groupPrefix))

/-- What both ends do with the group on top: it is popped, and its text taken off the prefix. -/
def popGroup (group : SettingsGroup) : State S :=
  let len : Int := group.toString.length
  { st with
    groupStack := st.groupStack.tail
    groupPrefix :=
      if len > 0 then truncate st.groupPrefix (st.groupPrefix.length - (len + 1))
      else st.groupPrefix }

/-- mirrors io/fs/Settings.cpp:1974-1990 -/
def endGroup : State S :=
  match st.groupStack with
  | [] => st
  | group :: _ => popGroup st group

/-- The size that is read, if it is one, and the state; that of a failed cast is the same.
mirrors io/fs/Settings.cpp:1998-2003 -/
def beginReadArray (groupPrefix : Str) : Option Int × State S :=
  let st := beginGroupOrArray st (.ofArray (normalizedKey groupPrefix) false)
  (b.toInt (getValue b st (lit16 "size")), st)

/-- mirrors io/fs/Settings.cpp:2005-2014 -/
def beginWriteArray (groupPrefix : Str) (size : Int) : State S :=
  let st := beginGroupOrArray st (.ofArray (normalizedKey groupPrefix) (size < 0))
  if size < 0 then remove b st (lit16 "size") else setValue b st (lit16 "size") (b.ofInt size)

/-- mirrors io/fs/Settings.cpp:2016-2035 -/
def endArray : State S :=
  match st.groupStack with
  | [] => st
  | group :: _ =>
    let st := popGroup st group
    if group.maxNum ≠ -1 then
      setValue b st (group.str ++ lit16 "/size") (b.ofInt group.maxNum)
    else st

/-- mirrors io/fs/Settings.cpp:2037-2049 -/
def setArrayIndex (i : Int) : Option (State S) :=
  match st.groupStack with
  | [] => some st
  | top :: groups =>
    if !top.isArray then some st
    else if max i 0 + 1 < 2 ^ 31 then
      let len : Int := top.toString.length
      let top := top.setArrayIndex (max i 0)
      some { st with
        groupStack := top :: groups
        groupPrefix :=
          replace st.groupPrefix (st.groupPrefix.length - len - 1) len top.toString }
    else none

end

/-! ## Calls -/

inductive Call
  | beginGroup (groupPrefix : Str)
  | endGroup
  | beginReadArray (groupPrefix : Str)
  | beginWriteArray (groupPrefix : Str) (size : Int)
  | setArrayIndex (i : Nat)
  | endArray

section

variable {S V : Type}

def perform (b : Backend S V) (st : State S) : Call → Option (State S)
  | .beginGroup p => some (beginGroup st p)
  | .endGroup => some (endGroup st)
  | .beginReadArray p => some (beginReadArray b st p).2
  | .beginWriteArray p size => some (beginWriteArray b st p size)
  | .setArrayIndex i => setArrayIndex st i
  | .endArray => some (endArray b st)

/-- Settings that no group was begun on. -/
def Fresh (st : State S) : Prop := st.groupStack = [] ∧ st.groupPrefix = []

/-- An index is set where an array has a name, and so that one more fits in an `int`. -/
def Indexable (st : State S) : Call → Prop
  | .setArrayIndex i =>
    ∀ top ∈ st.groupStack.head?, top.isArray = true → top.str ≠ [] ∧ i + 1 < 2 ^ 31
  | _ => True

instance (st : State S) : ∀ c, Decidable (Indexable st c)
  | .setArrayIndex i => inferInstanceAs (Decidable
      (∀ top ∈ st.groupStack.head?, top.isArray = true → top.str ≠ [] ∧ i + 1 < 2 ^ 31))
  | .beginGroup _ | .endGroup | .beginReadArray _ | .beginWriteArray _ _ | .endArray =>
    isTrue trivial

/-- All calls. -/
def groupSystem (b : Backend S V) : Lts (State S) Call := .ofStep Fresh (perform b)

end

end Libpdk.Settings.Groups

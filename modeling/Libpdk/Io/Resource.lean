import Libpdk.Core.Mem
import Libpdk.Core.Collect

/-!
# Resources

`ResourceRoot` reads a tree of directories and files from memory: a record for each node, and
names with their hashes beside. A read outside of the memory, or at an offset that is no `int`,
fails. `pdk_internal_hash` is any function: what is found does not depend on it.
-/
namespace Libpdk.Io

section

open Mem

/-! ## Paths -/

/-- What is left of the text, from `m_pos` on.
mirrors io/fs/Resource.cpp:69-99 -/
structure StringSplitter where
  rest : Str

namespace StringSplitter

def hasNext (s : StringSplitter) : Bool × StringSplitter :=
  let rest := s.rest.dropWhile (· = unit '/')
  (!rest.isEmpty, ⟨rest⟩)

def next (s : StringSplitter) : Str × StringSplitter :=
  (s.rest.takeWhile (· ≠ unit '/'), ⟨s.rest.dropWhile (· ≠ unit '/')⟩)

end StringSplitter

/-! ## Memory -/

/-- A `pint32` -/
def toInt32 (n : Nat) : Int := if n < 2147483648 then n else n - 4294967296

/-- A `pint16` -/
def toInt16 (n : Nat) : Int := if n < 32768 then n else n - 65536

/-- `from_big_endian` at an offset of type `int` -/
def fromBigEndian (n : Nat) (m : Bytes) (offset : Int) : Option Nat :=
  if 0 ≤ offset ∧ offset < 2147483648 then be n m offset.toNat else none

structure Locale where
  country : Int
  language : Int

def anyCountry : Int := 0

/-- `Locale::Language::C` -/
def languageC : Int := 1

/-- mirrors io/fs/Resource.cpp:102-160 -/
structure ResourceRoot where
  tree : Bytes
  names : Bytes
  version : Int
  mappingRoot : Str

namespace ResourceRoot

/-- "sizeof each tree element" -/
def findOffset (r : ResourceRoot) (node : Int) : Int :=
  node * (14 + if r.version ≥ 2 then 8 else 0)

/-- mirrors io/fs/Resource.cpp:397-407 -/
def hash (r : ResourceRoot) (node : Int) : Option Nat :=
  if node = 0 then some 0
  else do
    let offset := r.findOffset node
    let nameOffset ← fromBigEndian 4 r.tree offset
    fromBigEndian 4 r.names (toInt32 nameOffset + 2)

/-- mirrors io/fs/Resource.cpp:409-430 -/
def getName (r : ResourceRoot) (node : Int) : Option Str :=
  if node = 0 then some []
  else do
    let offset := r.findOffset node
    let nameOffset ← fromBigEndian 4 r.tree offset
    let nameLength ← fromBigEndian 2 r.names (toInt32 nameOffset)
    let nameOffset := toInt32 nameOffset + 2 + 4
    collect (fun i => do
      let c ← fromBigEndian 2 r.names (nameOffset + 2 * i)
      some (UInt16.ofNat c)) 0 (toInt16 nameLength).toNat

/-- `flags & Flags::Directory` -/
def isDirectory (flags : Nat) : Bool := flags.testBit 1

section

variable (r : ResourceRoot) (locale : Locale)

/-- "do the binary search for the hash" -/
def search (h : Nat) (child : Int) : Nat → Int → Int → Int → Option Int
  | 0, _, _, _ => none
  | fuel + 1, l, r', subNode =>
    if r' ≠ l then do
      let subNodeHash ← r.hash (child + subNode)
      if h = subNodeHash then some subNode
      else if h < subNodeHash then search h child fuel l (subNode - 1) ((l + (subNode - 1) + 1).tdiv 2)
      else search h child fuel subNode r' ((subNode + r' + 1).tdiv 2)
    else some subNode

/-- "backup for collisions" -/
def backup (h : Nat) (child : Int) : Nat → Int → Option Int
  | 0, _ => none
  | fuel + 1, subNode =>
    if subNode > child then do
      let before ← r.hash (subNode - 1)
      if before = h then backup h child fuel (subNode - 1) else some subNode
    else some subNode

/-- How the compares of one segment end: in a `return`, in another directory, or behind the
nodes of this hash. -/
inductive Compared
  | answer (node : Int)
  | descend (childCount child : Int)
  | through (found : Bool) (node : Int)
  deriving DecidableEq

/-- A file with the name of the last segment: whether it is the one, and the best until now. -/
def compareLocale (offset subNode node : Int) : Option (Bool × Int) := do
  let country ← fromBigEndian 2 r.tree offset
  let language ← fromBigEndian 2 r.tree (offset + 2)
  if toInt16 country = locale.country ∧ toInt16 language = locale.language then some (true, node)
  else if (toInt16 country = anyCountry ∧ toInt16 language = locale.language) ∨
      (toInt16 country = anyCountry ∧ toInt16 language = languageC ∧ node = -1) then
    some (false, subNode)
  else some (false, node)

/-- "now do the "harder" compares": the loop over the nodes of the hash, up to `last`.
mirrors io/fs/Resource.cpp:498-553 -/
def compares (h : Nat) (segment : Str) (more : Bool) (last : Int) :
    Nat → Int → Bool → Int → Option Compared
  | 0, _, _, _ => none
  | fuel + 1, subNode, found, node =>
    if subNode < last then do
      let subNodeHash ← r.hash subNode
      if subNodeHash = h then do
        let name ← r.getName subNode
        if name = segment then do
          let offset := r.findOffset subNode + 4
          let flags ← fromBigEndian 2 r.tree offset
          let offset := offset + 2
          if !more then
            if !isDirectory flags then do
              let (exact, node) ← compareLocale r locale offset subNode node
              if exact then some (.answer subNode)
              else compares h segment more last fuel (subNode + 1) true node
            else some (.answer subNode)
          else if !isDirectory flags then some (.answer (-1))
          else do
            let childCount ← fromBigEndian 4 r.tree offset
            let child ← fromBigEndian 4 r.tree (offset + 4)
            some (.descend (toInt32 childCount) (toInt32 child))
        else compares h segment more last fuel (subNode + 1) found node
      else some (.through found node)
    else some (.through found node)

variable (pdkInternalHash : Str → UInt32)

/-- The nodes of one segment. -/
def findSegment (segment : Str) (more : Bool) (childCount child node : Int) : Option Compared := do
  let h := (pdkInternalHash segment).toNat
  let subNode ← search r h child (childCount.toNat + 1) 0 (childCount - 1)
    ((0 + (childCount - 1) + 1).tdiv 2)
  let subNode := subNode + child
  let subNodeHash ← r.hash subNode
  if subNodeHash = h then do
    let subNode ← backup r h child (childCount.toNat + 1) subNode
    compares r locale h segment more (child + childCount) (childCount.toNat + 1) subNode false node
  else some (.through false node)

/-- "now iterate up the tree" -/
def iterate : Nat → Int → Int → Int → StringSplitter → Option Int
  | 0, _, _, _, _ => none
  | fuel + 1, childCount, child, node, splitter =>
    if childCount ≠ 0 ∧ splitter.hasNext.1 then do
      let (segment, splitter) := splitter.hasNext.2.next
      let compared ← findSegment r locale pdkInternalHash segment splitter.hasNext.1 childCount child
        node
      match compared with
      | .answer node => some node
      | .descend childCount child => iterate fuel childCount child node splitter
      | .through true node => iterate fuel childCount child node splitter
      | .through false node => some node
    else some node

end

/-- `ppath`, which is not read again. -/
def ppath (r : ResourceRoot) (path : Str) : Str :=
  let root := r.mappingRoot
  if root.isEmpty then path
  else if root = path then [unit '/']
  else
    let root := if root.getLast? = some (unit '/') then root else root ++ [unit '/']
    let ppath := if root.length ≤ path.length ∧ root.isPrefixOf path then path.drop (root.length - 1)
      else path
    if path.isEmpty then [unit '/'] else ppath

/-- mirrors io/fs/Resource.cpp:432-564 -/
def findNode (r : ResourceRoot) (pdkInternalHash : Str → UInt32) (path : Str) (locale : Locale) :
    Option Int := do
  let _ppath := r.ppath path
  if path = [unit '/'] then some 0
  else do
    let childCount ← fromBigEndian 4 r.tree 6
    let child ← fromBigEndian 4 r.tree 10
    iterate r locale pdkInternalHash (path.length + 1) (toInt32 childCount) (toInt32 child) (-1)
      ⟨path⟩

end ResourceRoot

end

/-!
## Trees of resources

`ResourceTree` is what the memory of a `ResourceRoot` says (`Encodes`): nodes with names, where
the children of a directory follow each other in the order of their hashes. `lookup` is the node
at a path: of the variants of a name the one of this country and language, then that of the
language for any country, then that of no language.
-/

open Mem

inductive Kind
  | directory (childCount child : Nat)
  | file (country language : UInt16)

structure Entry where
  name : Str
  kind : Kind

/-- The nodes, with the root at 0. -/
structure ResourceTree where
  size : Nat
  entry : Nat → Entry

/-! ## Paths -/

/-- What is between the slashes. -/
def segments (path : Str) : List Str := (path.splitOn (unit '/')).filter (· ≠ [])

namespace Kind

def isDirectory : Kind → Bool
  | directory .. => true
  | file .. => false

def isExact (locale : Locale) : Kind → Bool
  | directory .. => false
  | file country language =>
    toInt16 country.toNat = locale.country && toInt16 language.toNat = locale.language

def isLanguage (locale : Locale) : Kind → Bool
  | directory .. => false
  | file country language =>
    toInt16 country.toNat = anyCountry && toInt16 language.toNat = locale.language

def isC : Kind → Bool
  | directory .. => false
  | file country language =>
    toInt16 country.toNat = anyCountry && toInt16 language.toNat = languageC

end Kind

def asNode (n : Option Nat) : Int :=
  match n with
  | some node => node
  | none => -1

namespace ResourceTree

variable (t : ResourceTree) (locale : Locale)

def nameOf (node : Nat) : Str := (t.entry node).name

def kindOf (node : Nat) : Kind := (t.entry node).kind

def children (node : Nat) : List Nat :=
  match t.kindOf node with
  | .directory childCount child => List.range' child childCount
  | .file .. => []

/-- The variants of a name. -/
def named (directory : Nat) (segment : Str) : List Nat :=
  (t.children directory).filter fun node => t.nameOf node = segment

/-- Of variants that are the same the first, for any country the last. -/
def prefer (variants : List Nat) : Option Nat :=
  (variants.find? fun node => (t.kindOf node).isExact locale).or
    ((variants.reverse.find? fun node => (t.kindOf node).isLanguage locale).or
      (variants.find? fun node => (t.kindOf node).isC))

/-- A directory has no variants. -/
def directoryOf (variants : List Nat) : Option Nat :=
  variants.find? fun node => (t.kindOf node).isDirectory

/-- The node that is reached from a directory. -/
def resolve : Nat → List Str → Option Nat
  | _, [] => none
  | directory, [segment] =>
    let variants := t.named directory segment
    (t.directoryOf variants).or (t.prefer locale variants)
  | directory, segment :: next :: rest =>
    (t.directoryOf (t.named directory segment)).bind (resolve · (next :: rest))

/-- The node at a path, or -1. -/
def lookup (path : Str) : Int :=
  if path = [unit '/'] then 0 else asNode (t.resolve locale 0 (segments path))

/-- Children are contiguous, behind the root and sorted by the hashes of their names; no node is
the child of two directories, and no other node beside a directory has its name. -/
structure WellFormed (hashOf : Str → UInt32) : Prop where
  root : 0 < t.size ∧ (t.kindOf 0).isDirectory = true
  inside : ∀ d < t.size, ∀ childCount child, t.kindOf d = .directory childCount child →
    0 < child ∧ child + childCount ≤ t.size
  sorted : ∀ d < t.size, (t.children d).Pairwise fun i j =>
    hashOf (t.nameOf i) ≤ hashOf (t.nameOf j)
  apart : ∀ d < t.size, ∀ d' < t.size, ∀ i ∈ t.children d, i ∈ t.children d' → d = d'
  alone : ∀ d < t.size, ∀ i ∈ t.children d, ∀ j ∈ t.children d, t.nameOf i = t.nameOf j →
    (t.kindOf i).isDirectory = true → i = j

end ResourceTree

/-! ## In memory -/

def Kind.bytes : Kind → Bytes
  | directory childCount child => toBe 4 childCount ++ toBe 4 child
  | file country language => toBe 2 country.toNat ++ toBe 2 language.toNat

/-- Length, hash and units. -/
def nameBytes (hashOf : Str → UInt32) (name : Str) : Bytes :=
  toBe 2 name.length ++ (toBe 4 (hashOf name).toNat ++ name.flatMap fun c => toBe 2 c.toNat)

/-- The record of a node, and its name; the root has none. -/
def Stored (r : ResourceRoot) (hashOf : Str → UInt32) (e : Entry) (node : Nat) : Prop :=
  ∃ nameOffset flags, nameOffset < 2147483648 ∧ flags < 65536 ∧
    ResourceRoot.isDirectory flags = e.kind.isDirectory ∧
    Lies r.tree (r.findOffset node).toNat (toBe 4 nameOffset ++ (toBe 2 flags ++ e.kind.bytes)) ∧
    (node ≠ 0 → e.name.length < 32768 ∧ Lies r.names nameOffset (nameBytes hashOf e.name))

/-- The memory says what the tree is; its offsets are of type `int`. -/
structure Encodes (r : ResourceRoot) (hashOf : Str → UInt32) (t : ResourceTree) : Prop where
  tree_length : r.tree.length < 2147483648
  names_length : r.names.length < 2147483648
  stored : ∀ node < t.size, Stored r hashOf (t.entry node) node

end Libpdk.Io

import Libpdk.Core.Pieces
import Libpdk.Ds.ByteArraySearch

/-!
# What replacing leaves in a byte array

The bytes of one array while every occurrence of a pattern is replaced. The arguments are pointers
with a length, and they may point into the array itself. The copies that are made of such arguments
are not used; what is read and copied is what the pointers lead to (`readPointer`, `copyTo`), and
once the block was reallocated a pointer into it leads nowhere.
-/
namespace Libpdk.Ds.ByteArrayReplaceAll

open Libpdk.Ds.ByteArray (bmInitSkiptable)
open Libpdk.Ds.ByteArraySearch (bmFind)

/-- Where an argument points: into the array itself, to bytes elsewhere, or to a copy. -/
inductive Pointer
  | own (offset : Nat)
  | outside (address : Nat)
  | buffer (bytes : Bytes)
  deriving DecidableEq

/-- `length` bytes that are there. -/
structure Argument (s : Bytes) where
  pointer : Pointer
  length : Nat
  valid : match pointer with
    | .own offset => offset + length ≤ s.length
    | .outside _ => True
    | .buffer bytes => length ≤ bytes.length

/-- An array; a null one has no bytes. -/
structure Content where
  bytes : Bytes
  null : Bool
  empty : null = true → bytes = []

/-- The bytes of the array; `moved` when the block was reallocated. -/
structure Rewriting where
  bytes : Bytes
  moved : Bool

/-- `ByteArrayMatcher`: the pattern stays where it is. -/
structure Matcher where
  pattern : Pointer
  length : Nat
  skiptable : UInt8 → Nat

/-- The locals of the loop for replacements that are shorter. -/
structure Shrinking where
  t : Rewriting
  index : Nat
  moveto : Nat
  movestart : Nat
  num : Nat

section

variable (outside fresh : Nat → UInt8)

/-- `n` bytes at a pointer. -/
def readPointer (t : Rewriting) (n : Nat) : Pointer → Option Bytes
  | .own offset =>
    if n = 0 then some [] else if t.moved then none else Block.read t.bytes offset n
  | .outside address => some ((List.range n).map fun i => outside (address + i))
  | .buffer bytes => Block.read bytes 0 n

/-- Whether `n` bytes at a pointer and those at `pos` have some in common. -/
def overlaps (pos n : Nat) : Pointer → Bool
  | .own offset => n ≠ 0 ∧ offset < pos + n ∧ pos < offset + n
  | _ => false

/-- `memcpy(selfDataPtr + pos, after, alength)` -/
def copyTo (t : Rewriting) (pos : Nat) (after : Pointer) (alength : Nat) : Option Rewriting := do
  let text ← readPointer outside t alength after
  if overlaps pos alength after then none
  else do
    let bytes ← Block.write t.bytes pos text
    some { t with bytes := bytes }

/-- `memmove(selfDataPtr + dst, selfDataPtr + src, n)` -/
def moveBytes (t : Rewriting) (dst src n : Nat) : Option Rewriting := do
  let bytes ← Block.move t.bytes dst src n
  some { t with bytes := bytes }

/-- mirrors ds/ByteArrayMatcher.cpp:84-91 -/
def newMatcher (t : Rewriting) (pattern : Pointer) (length : Nat) : Option Matcher := do
  let bytes ← readPointer outside t length pattern
  some ⟨pattern, length, bmInitSkiptable bytes⟩

/-- mirrors ds/ByteArrayMatcher.cpp:126-133 -/
def indexIn (matcher : Matcher) (t : Rewriting) (index : Nat) : Option Int := do
  let pattern ← readPointer outside t matcher.length matcher.pattern
  bmFind t.bytes index pattern matcher.skiptable

/-! ## Text of the same length -/

/-- mirrors ds/ByteArray.cpp:1120-1123 -/
def overwriteLoop (matcher : Matcher) (after : Pointer) (alength : Nat) :
    Nat → Rewriting → Nat → Option Rewriting
  | 0, _, _ => none
  | rounds + 1, t, index => do
    let index ← indexIn outside matcher t index
    if index = -1 then some t
    else do
      let t ← copyTo outside t index.toNat after alength
      overwriteLoop matcher after alength rounds t (index.toNat + matcher.length)

/-! ## Text that is shorter -/

/-- The text in front of an occurrence moves up to the replacement in front of it.
mirrors ds/ByteArray.cpp:1130-1138 -/
def moveUp (l : Shrinking) (index : Nat) : Option (Rewriting × Nat) :=
  if l.num ≠ 0 then
    if l.movestart < index then do
      let t ← moveBytes l.t l.moveto l.movestart (index - l.movestart)
      some (t, l.moveto + (index - l.movestart))
    else some (l.t, l.moveto)
  else some (l.t, index)

/-- mirrors ds/ByteArray.cpp:1139-1141 -/
def putText (t : Rewriting) (moveto : Nat) (after : Pointer) (alength : Nat) : Option Rewriting :=
  if alength ≠ 0 then copyTo outside t moveto after alength else some t

/-- There is no `moveto += alength` behind the copy.
mirrors ds/ByteArray.cpp:1129-1145 -/
def shrinkLoop (matcher : Matcher) (after : Pointer) (alength : Nat) :
    Nat → Shrinking → Option Shrinking
  | 0, _ => none
  | rounds + 1, l => do
    let index ← indexIn outside matcher l.t l.index
    if index = -1 then some l
    else do
      let (t, moveto) ← moveUp l index.toNat
      let t ← putText outside t moveto after alength
      let index := index.toNat + matcher.length
      shrinkLoop matcher after alength rounds ⟨t, index, moveto, index, l.num + 1⟩

/-- mirrors ds/ByteArray.cpp:1147-1150 -/
def moveRest (l : Shrinking) (size : Nat) : Option Rewriting :=
  if l.movestart < size then moveBytes l.t l.moveto l.movestart (size - l.movestart) else some l.t

/-- mirrors ds/ByteArray.cpp:1125-1152 -/
def shrink (matcher : Matcher) (after : Pointer) (alength : Nat) (t : Rewriting) :
    Option Rewriting := do
  let size := t.bytes.length
  let l ← shrinkLoop outside matcher after alength (size + 1) ⟨t, 0, 0, 0, 0⟩
  if l.num ≠ 0 then do
    let t ← moveRest l size
    some { t with bytes := t.bytes.take (size - l.num * (matcher.length - alength)) }
  else some l.t

/-! ## Text that is longer -/

/-- The next places, no more than there is room for in `indices`, and where the search goes on.
mirrors ds/ByteArray.cpp:1157-1170 -/
def collectIndices (matcher : Matcher) (t : Rewriting) : Nat → Nat → Option (List Nat × Int)
  | 0, index => some ([], index)
  | count + 1, index => do
    let index ← indexIn outside matcher t index
    if index = -1 then some ([], -1)
    else do
      let next := index.toNat + matcher.length
      let (indices, last) ←
        collectIndices matcher t count (if matcher.length = 0 then next + 1 else next)
      some (index.toNat :: indices, last)

/-- The places from the last one down.
mirrors ds/ByteArray.cpp:1189-1199 -/
def expandLoop (blength : Nat) (after : Pointer) (alength : Nat) :
    List Nat → Rewriting → Nat → Option Rewriting
  | [], t, _ => some t
  | index :: earlier, t, moveend => do
    let movestart := index + blength
    let insertstart := index + earlier.length * (alength - blength)
    let t ← moveBytes t (insertstart + alength) movestart (moveend - movestart)
    let t ← copyTo outside t insertstart after alength
    expandLoop blength after alength earlier t (movestart - blength)

/-- mirrors ds/ByteArray.cpp:1156-1200 -/
def growLoop (matcher : Matcher) (after : Pointer) (alength : Nat) :
    Nat → Rewriting → Nat → Option Rewriting
  | 0, _, _ => none
  | rounds + 1, t, index => do
    let (indices, last) ← collectIndices outside matcher t 4095 index
    if indices = [] then some t
    else do
      let adjust := indices.length * (alength - matcher.length)
      let room : Rewriting := ⟨t.bytes ++ (List.range adjust).map fresh, true⟩
      let t ← expandLoop outside matcher.length after alength indices.reverse room t.bytes.length
      if last = -1 then some t
      else growLoop matcher after alength rounds t (last.toNat + adjust)

/-! ## The overloads -/

/-- mirrors ds/ByteArray.cpp:1118-1201 -/
def replaceWith (matcher : Matcher) (after : Pointer) (alength : Nat) (t : Rewriting) :
    Option Rewriting :=
  if matcher.length = alength then
    if matcher.length ≠ 0 then
      overwriteLoop outside matcher after alength (t.bytes.length + 1) t 0
    else some t
  else if alength < matcher.length then shrink outside matcher after alength t
  else growLoop outside fresh matcher after alength (t.bytes.length + 2) t 0

/-- mirrors ds/ByteArray.cpp:1093-1209 -/
def replaceText (s : Content) (before after : Argument s.bytes) : Option Bytes :=
  if s.null ∨ (before.pointer = after.pointer ∧ before.length = after.length) then some s.bytes
  else do
    let t : Rewriting := ⟨s.bytes, false⟩
    let matcher ← newMatcher outside t before.pointer before.length
    let t ← replaceWith outside fresh matcher after.pointer after.length t
    some t.bytes

/-- An array that has the block of the one that is written, or another one. -/
inductive Operand
  | shared
  | block (address length : Nat)
  deriving DecidableEq

/-- The pointer and the size of an array. -/
def Operand.argument (s : Bytes) : Operand → Argument s
  | .shared => ⟨.own 0, s.length, Nat.le_of_eq (Nat.zero_add _)⟩
  | .block address length => ⟨.outside address, length, trivial⟩

/-- What is put in is detached if it has the block that is written.
mirrors ds/ByteArray.cpp:1076-1079 -/
def Operand.replacement (s : Bytes) : Operand → Argument s
  | .shared => ⟨.buffer s, s.length, Nat.le_refl _⟩
  | .block address length => ⟨.outside address, length, trivial⟩

end

end Libpdk.Ds.ByteArrayReplaceAll

import Libpdk.Json.Entries
import Libpdk.Json.JsonArrayAccount
import Libpdk.Json.JsonObject

/-!
# The account of an object

An insertion stores an entry where `indexOf` says. Whatever it says, the content is what it was but
for that entry, and the account that of an insertion or of a replacement.
-/
namespace Libpdk.Json.JsonObject

open Libpdk.Mem
open JsonArray (dropAt isContainer dropAt_spec exists_split exists_split_cons)

/-! ## Entries -/

section Search

variable (k : KeyOrder) {m : Bytes} {size : Nat} {es : List ((Str × Val) × Nat)}

end Search

/-! ## Operations -/

section Operations

variable (k : KeyOrder) (fill : Nat → UInt8) (shared : Bool) {d : Data} {x : Account}
  {o o' : Handle} {key : Str}

/-- The account after an insertion into a block with some counter. -/
def bookInsert (x : Account) (counter n : Nat) (r : Inserted) : Account :=
  if r.stored then
    (if r.keyExists then x.replace r.pos n else x.insert r.pos n).settle
      (counter + r.keyExists.toNat)
  else x

/-- The account after an entry has been taken out. -/
def bookRemove (x : Account) (counter : Nat) : Option Nat → Account
  | none => x
  | some i => (x.remove i).settle (counter + 1)

/-- The storage of an entry. -/
def entryStorage (key : Str) (n : Nat) : Nat := 4 + stringSize key (useCompressed key) + n

end Operations

/-! ## Whole runs -/

/-- The operations that change an object. -/
inductive Op where
  | insert (key : Str) (v : JsonValue)
  | remove (key : Str)
  | take (key : Str)
  | erase (i : Int)

/-- An object next to its account, after an insertion. -/
def performInsert (k : KeyOrder) (fill : Nat → UInt8) (shared : Bool) (o : Handle) (key : Str)
    (v : JsonValue) (x : Account) : Option (Handle × Account) := do
  let n ← storageOf fill v
  let counter ← keptCounter shared o (entryStorage key n + 4)
  let r ← insertValue k fill shared o key v
  some (r.object, bookInsert x counter (entryStorage key n) r)

/-- An object next to its account, after `remove`. -/
def performRemove (k : KeyOrder) (fill : Nat → UInt8) (shared : Bool) (o : Handle) (key : Str)
    (x : Account) : Option (Handle × Account) := do
  let counter ← keptCounter shared o 0
  let r ← removeKey k fill shared o key
  some (r.2, bookRemove x counter r.1)

/-- An operation, with what it does to the account. `Undefined` takes the key out.
mirrors utils/json/JsonObject.cpp:224-304 and 355-369 -/
def perform (k : KeyOrder) (fill : Nat → UInt8) (shared : Bool) (o : Handle) (x : Account) :
    Op → Option (Handle × Account)
  | .insert key .undefined => performRemove k fill shared o key x
  | .insert key v => performInsert k fill shared o key v x
  | .remove key => performRemove k fill shared o key x
  | .take key => do
    let (v, i, o') ← take k fill shared o key
    let counter ← keptCounter (shared || isContainer v) o 0
    some (o', bookRemove x counter i)
  | .erase i => do
    let counter ← keptCounter shared o 0
    let r ← erase fill shared o i
    some (r.2, bookRemove x counter r.1)

def Op.Valid : Op → Prop
  | .insert _ v => ∃ y, Represents v y
  | _ => True

section

variable (k : KeyOrder) (fill : Nat → UInt8) (shared : Bool) {x x' : Account} {o o' : Handle}

end

/-- Whether other references to the block are around, and an operation. -/
structure Act where
  shared : Bool
  op : Op

end Libpdk.Json.JsonObject

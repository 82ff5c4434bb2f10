import Libpdk.Json.Handle

/-!
# `JsonArray`

The operations of an array that change it, and those that read it. `none` is an
access outside of the block, or an index that the assertions of `insert` and
`replace` exclude; `false` is a document that has become too large.
-/
namespace Libpdk.Json.JsonArray

open Libpdk.Mem

/-! ## Reading -/

/-- mirrors utils/json/JsonArray.cpp:148-154 -/
def getSize : Handle → Option Nat
  | none => some 0
  | some (d, p) => baseLength d.raw p

/-- mirrors utils/json/JsonArray.cpp:164-170 -/
def at? (a : Handle) (i : Int) : Option JsonValue :=
  match a with
  | none => some .undefined
  | some (d, p) => do
    let len ← baseLength d.raw p
    if i < 0 ∨ (len : Int) ≤ i then some .undefined
    else
      let w ← tableAt d.raw p i.toNat
      JsonValue.ofWord d p w

/-- mirrors utils/json/JsonArray.cpp:172-175 -/
def first (a : Handle) : Option JsonValue := at? a 0

/-- The index of an empty array wraps to -1.
mirrors utils/json/JsonArray.cpp:177-180 -/
def last (a : Handle) : Option JsonValue := do
  let len ← getSize a
  at? a (if a.isSome then (len : Int) - 1 else 0)

/-! ## Writing -/

/-- The value word and the data behind it, of `insert` and `replace`. -/
def storeValue (m : Bytes) (p i : Nat) (val : JsonValue) (valueOffset valueSize : Nat)
    (compressed : Bool) : Option Bytes := do
  let m ← setTableAt m p i (valueWord (typeTag val) compressed false (valueToStore val valueOffset))
  if valueSize = 0 then some m else copyData m (p + valueOffset) val compressed

/-- `insert` after `detach`; the flag is whether the value has been stored. -/
def insertAt (d : Data) (p i : Nat) (val : JsonValue) (valueSize : Nat) (compressed : Bool) :
    Option (Bool × Handle) := do
  let m ← resetTable d.raw p
  let (valueOffset, m) ← reserveSpace m p valueSize i 1 false
  if valueOffset = 0 then some (false, some ({ d with raw := m }, p))
  else
    let m ← storeValue m p i val valueOffset valueSize compressed
    some (true, some ({ d with raw := m }, p))

/-- mirrors utils/json/JsonArray.cpp:216-241 -/
def insert (fill : Nat → UInt8) (shared : Bool) (a : Handle) (i : Int) (value : JsonValue) :
    Option (Bool × Handle) := do
  let len ← getSize a
  if i < 0 ∨ (len : Int) < i then none
  else
    let (val, valueSize, compressed) ← requiredStorage fill value
    let x ← detach fill false shared a (valueSize + 4)
    match x with
    | none => some (false, a)
    | some (d, p) => insertAt d p i.toNat val valueSize compressed

/-- mirrors utils/json/JsonArray.cpp:182-185 -/
def prepend (fill : Nat → UInt8) (shared : Bool) (a : Handle) (value : JsonValue) :
    Option (Bool × Handle) := insert fill shared a 0 value

/-- mirrors utils/json/JsonArray.cpp:187-190 -/
def append (fill : Nat → UInt8) (shared : Bool) (a : Handle) (value : JsonValue) :
    Option (Bool × Handle) := do
  let len ← getSize a
  insert fill shared a len value

/-- `replace` after `detach`. -/
def replaceAt (fill : Nat → UInt8) (d : Data) (p i : Nat) (val : JsonValue) (valueSize : Nat)
    (compressed : Bool) : Option (Bool × Handle) := do
  let m ← resetTable d.raw p
  let (valueOffset, m) ← reserveSpace m p valueSize i 1 true
  if valueOffset = 0 then some (false, some ({ d with raw := m }, p))
  else
    let m ← storeValue m p i val valueOffset valueSize compressed
    let a ← compactIfDue fill ⟨m, d.compactionCounter + 1⟩ p
    some (true, a)

/-- mirrors utils/json/JsonArray.cpp:243-270 -/
def replace (fill : Nat → UInt8) (shared : Bool) (a : Handle) (i : Int) (value : JsonValue) :
    Option (Bool × Handle) := do
  let len ← getSize a
  if i < 0 ∨ (len : Int) ≤ i then none
  else
    let (val, valueSize, compressed) ← requiredStorage fill value
    let x ← detach fill false shared a valueSize
    match x with
    | none => some (false, a)
    | some (d, p) => replaceAt fill d p i.toNat val valueSize compressed

/-- What follows the `detach` of an operation that takes an element out. -/
def dropAt (fill : Nat → UInt8) (d : Data) (p i : Nat) : Option Handle := do
  let m ← removeItems d.raw p i 1
  compactIfDue fill ⟨m, d.compactionCounter + 1⟩ p

/-- mirrors utils/json/JsonArray.cpp:192-204 -/
def removeAt (fill : Nat → UInt8) (shared : Bool) (a : Handle) (i : Int) : Option Handle := do
  let len ← getSize a
  if i < 0 ∨ (len : Int) ≤ i then some a
  else
    let x ← detach fill false shared a 0
    match x with
    | none => none
    | some (d, p) => dropAt fill d p i.toNat

/-- Whether a value keeps a reference to the block it has been read from. -/
def isContainer : JsonValue → Bool
  | .array _ | .object _ => true
  | _ => false

/-- The value that is taken out refers to the block when it is a container.
mirrors utils/json/JsonArray.cpp:206-214 -/
def takeAt (fill : Nat → UInt8) (shared : Bool) (a : Handle) (i : Int) :
    Option (JsonValue × Handle) := do
  let v ← at? a i
  let a ← removeAt fill (shared || isContainer v) a i
  some (v, a)

end Libpdk.Json.JsonArray

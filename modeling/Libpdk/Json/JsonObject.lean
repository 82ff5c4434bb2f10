import Libpdk.Json.JsonArray

/-!
# `JsonObject`

The operations of an object that change it, and those that read it. The table is in the order of
the keys, and `indexOf` looks for a key by halving it.

A stored key is compared with another one in different ways when it is in Latin-1 and when it is
not, so the comparison (`KeyOrder`) is a parameter: what is proved here holds whatever it says.
-/
namespace Libpdk.Json

open Libpdk.Mem

/-- How a stored key compares with a key; the flag is whether it is stored in Latin-1.
mirrors utils/json/internal/JsonPrivate.h:670-677 -/
structure KeyOrder where
  ge : Bool → Str → Str → Bool
  eq : Bool → Str → Str → Bool

namespace JsonObject

open JsonArray (dropAt isContainer)

variable (k : KeyOrder)

/-! ## Reading -/

/-- mirrors utils/json/JsonObject.cpp:159-165 -/
def getSize : Handle → Option Nat
  | none => some 0
  | some (d, p) => baseLength d.raw p

/-- `entryAt(i)` next to a key. -/
def compareEntry (op : Bool → Str → Str → Bool) (m : Bytes) (p i : Nat) (key : Str) :
    Option Bool := do
  let off ← tableAt m p i
  let w ← le 4 m (p + off)
  let stored ← readString m (latinKey w) (p + off + 4)
  some (op (latinKey w) stored key)

/-- The search over `n` entries from `min` on; every turn leaves fewer. -/
def halve (m : Bytes) (p : Nat) (key : Str) : Nat → Nat → Nat → Option Nat
  | 0, min, _ => some min
  | turns + 1, min, n =>
    if n = 0 then some min
    else do
      let ge ← compareEntry k.ge m p (min + n / 2) key
      if ge then halve m p key turns min (n / 2)
      else halve m p key turns (min + n / 2 + 1) (n - (n / 2 + 1))

/-- The place of a key, and whether it is there.
mirrors utils/json/Json.cpp:151-171 -/
def indexOf (m : Bytes) (p : Nat) (key : Str) : Option (Nat × Bool) := do
  let len ← baseLength m p
  let min ← halve k m p key len 0 len
  if min < len then (compareEntry k.eq m p min key).map fun eq => (min, eq)
  else some (min, false)

/-- mirrors utils/json/JsonObject.cpp:175-186 -/
def getValue (o : Handle) (key : Str) : Option JsonValue :=
  match o with
  | none => some .undefined
  | some (d, p) => do
    let (i, keyExists) ← indexOf k d.raw p key
    if keyExists then
      let w ← elementWord d.raw true p i
      JsonValue.ofWord d p w
    else some .undefined

/-! ## Writing -/

/-- The entry of a key and its value, behind the offset that `reserveSpace` has stored. -/
def storeEntry (m : Bytes) (p pos : Nat) (key : Str) (val : JsonValue) (valueSize : Nat)
    (compressed : Bool) : Option Bytes := do
  let off ← tableAt m p pos
  let valueOffset := 4 + stringSize key (useCompressed key)
  let m ← poke m (p + off)
    (toLe 4 (valueWord (typeTag val) compressed (useCompressed key)
      (valueToStore val (off + valueOffset))))
  let m ← poke m (p + off + 4) (copyString (p + off + 4) key (useCompressed key))
  if valueSize = 0 then some m else copyData m (p + off + valueOffset) val compressed

/-- What `insert` reports: whether the value has been stored, where, and whether the key was
there before. -/
structure Inserted where
  stored : Bool
  object : Handle
  pos : Nat
  keyExists : Bool

/-- `insert` after `detach`. -/
def insertAt (fill : Nat → UInt8) (d : Data) (p : Nat) (key : Str) (val : JsonValue)
    (valueSize : Nat) (compressed : Bool) : Option Inserted := do
  let requiredSize := 4 + stringSize key (useCompressed key) + valueSize
  let m ← resetTable d.raw p
  let (pos, keyExists) ← indexOf k m p key
  let counter := d.compactionCounter + keyExists.toNat
  let (off, m) ← reserveSpace m p requiredSize pos 1 keyExists
  if off = 0 then some ⟨false, some (⟨m, counter⟩, p), pos, keyExists⟩
  else
    let m ← storeEntry m p pos key val valueSize compressed
    let o ← compactIfDue fill ⟨m, counter⟩ p
    some ⟨true, o, pos, keyExists⟩

/-- `insert` of a value that is not `Undefined`.
mirrors utils/json/JsonObject.cpp:230-266 -/
def insertValue (fill : Nat → UInt8) (shared : Bool) (o : Handle) (key : Str) (value : JsonValue) :
    Option Inserted := do
  let (val, valueSize, compressed) ← requiredStorage fill value
  let requiredSize := 4 + stringSize key (useCompressed key) + valueSize
  let x ← detach fill true shared o (requiredSize + 4)
  match x with
  | none => some ⟨false, o, 0, false⟩
  | some (d, p) => insertAt k fill d p key val valueSize compressed

/-- The object without the entry of a key, and where it was.
mirrors utils/json/JsonObject.cpp:268-284 -/
def removeKey (fill : Nat → UInt8) (shared : Bool) (o : Handle) (key : Str) :
    Option (Option Nat × Handle) :=
  match o with
  | none => some (none, none)
  | some (d, p) => do
    let (i, keyExists) ← indexOf k d.raw p key
    if !keyExists then some (none, some (d, p))
    else
      let x ← detach fill true shared (some (d, p)) 0
      match x with
      | none => none
      | some (d, p) =>
        let o ← dropAt fill d p i
        some (some i, o)

/-- A container that is taken out refers to the block.
mirrors utils/json/JsonObject.cpp:286-304 -/
def take (fill : Nat → UInt8) (shared : Bool) (o : Handle) (key : Str) :
    Option (JsonValue × Option Nat × Handle) := do
  let v ← getValue k o key
  let r ← removeKey k fill (shared || isContainer v) o key
  some (v, r)

/-- `erase` of the iterator at an index; it asserts that nobody else refers to the block.
mirrors utils/json/JsonObject.cpp:355-369 -/
def erase (fill : Nat → UInt8) (shared : Bool) (o : Handle) (i : Int) :
    Option (Option Nat × Handle) :=
  match o with
  | none => none
  | some (d, p) =>
    if shared then none
    else do
      let len ← baseLength d.raw p
      if i < 0 ∨ (len : Int) ≤ i then some (none, some (d, p))
      else
        let o ← dropAt fill d p i.toNat
        some (some i.toNat, o)

end JsonObject

end Libpdk.Json

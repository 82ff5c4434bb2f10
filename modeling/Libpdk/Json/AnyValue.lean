import Libpdk.Json.JsonObject

/-!
# Arrays and objects as `std::any`

`toStdAny` makes a tree of lists and maps of what a value refers to, and `fromStdAny` builds blocks
from such a tree. It does not use `insert`: the entries are written one after the other, and the
table behind all of them.

`list.resize(n)` and `keys.resize(n)` make `n` elements in front of those that are then appended.
-/
namespace Libpdk.Json

section

open Libpdk.Mem

/-- The kinds of `std::any` that `toStdAny` makes; a map is in the order of its keys. -/
inductive Any where
  | empty
  | null
  | bool (b : Bool)
  | double (bits : UInt64)
  | string (s : Str)
  | list (xs : List Any)
  | map (es : List (Str × Any))

/-- An access outside of a block, or the exception of `std::any_cast`. -/
inductive Failure where
  | outside
  | badAnyCast
  deriving DecidableEq

/-- A read or a write that has to be inside of a block. -/
def inside {α : Type} : Option α → Except Failure α
  | none => .error .outside
  | some x => .ok x

/-! ## To `std::any` -/

/-- `map[key] = value` -/
def mapSet (key : Str) (value : Any) : List (Str × Any) → List (Str × Any)
  | [] => [(key, value)]
  | e :: es =>
    if e.1 < key then e :: mapSet key value es
    else if key < e.1 then (key, value) :: e :: es
    else (e.1, value) :: es

/-- mirrors utils/json/JsonValue.cpp:207-233 -/
def toStdAny (sub : Bool → Data → Nat → Option Any) : JsonValue → Option Any
  | .undefined => some .empty
  | .null => some .null
  | .bool b => some (.bool b)
  | .double bits => some (.double bits)
  | .string s => some (.string s)
  | .array none => some (.list [])
  | .object none => some (.map [])
  | .array (some (d, p)) => sub false d p
  | .object (some (d, p)) => sub true d p

/-- The value of an element, and the key of an entry. -/
def anyElement (sub : Bool → Data → Nat → Option Any) (d : Data) (p i : Nat) : Option Any := do
  let w ← elementWord d.raw false p i
  let v ← JsonValue.ofWord d p w
  toStdAny sub v

def anyEntry (sub : Bool → Data → Nat → Option Any) (d : Data) (p i : Nat) :
    Option (Str × Any) := do
  let key ← entryKey d.raw p i
  let w ← elementWord d.raw true p i
  let v ← JsonValue.ofWord d p w
  let value ← toStdAny sub v
  some (key, value)

/-- The list or the map of a base. The fuel bounds the depth.
mirrors utils/json/JsonArray.cpp:136-146 and JsonObject.cpp:134-144 -/
def toAnyBase : Nat → Bool → Data → Nat → Option Any
  | 0, _, _, _ => none
  | n + 1, false, d, p => do
    let len ← baseLength d.raw p
    let xs ← collect (anyElement (toAnyBase n) d p) 0 len
    some (.list (List.replicate len .empty ++ xs))
  | n + 1, true, d, p => do
    let len ← baseLength d.raw p
    let es ← collect (anyEntry (toAnyBase n) d p) 0 len
    some (.map (es.foldl (fun map e => mapSet e.1 e.2 map) []))

/-- mirrors utils/json/JsonArray.cpp:136-146 -/
def toAnyList (n : Nat) (a : Handle) : Option (List Any) :=
  match a with
  | none => some []
  | some (d, p) => do
    let len ← baseLength d.raw p
    let xs ← collect (anyElement (toAnyBase n) d p) 0 len
    some (List.replicate len .empty ++ xs)

/-- mirrors utils/json/JsonObject.cpp:134-144 -/
def toAnyMap (n : Nat) (o : Handle) : Option (List (Str × Any)) :=
  match o with
  | none => some []
  | some (d, p) => do
    let len ← baseLength d.raw p
    let es ← collect (anyEntry (toAnyBase n) d p) 0 len
    some (es.foldl (fun map e => mapSet e.1 e.2 map) [])

/-- mirrors utils/json/JsonObject.cpp:146-157 -/
def getKeys (o : Handle) : Option (List Str) :=
  match o with
  | none => some []
  | some (d, p) => do
    let len ← baseLength d.raw p
    let keys ← collect (entryKey d.raw p) 0 len
    some (List.replicate len [] ++ keys)

/-! ## From `std::any` -/

/-- What a turn of `fromAnyList` does with a value.
mirrors utils/json/JsonArray.cpp:109-128 -/
def placeValue (fill : Nat → UInt8) (d : Data) (offset : Nat) (val : JsonValue) :
    Option (Option (Data × Nat)) := do
  let (val, valueSize, compressed) ← requiredStorage fill val
  let x ← detach fill false false (some (d, root)) valueSize
  match x with
  | none => some none
  | some (d, p) => do
    let m ← if valueSize = 0 then some d.raw else copyData d.raw (p + offset) val compressed
    let m ← setSize m p (offset + valueSize)
    some (some (⟨m, d.compactionCounter⟩, offset + valueSize))

/-- What a turn of `fromAnyMap` does with a member.
mirrors utils/json/JsonObject.cpp:99-122 -/
def placeEntry (fill : Nat → UInt8) (d : Data) (offset : Nat) (key : Str) (val : JsonValue) :
    Option (Option (Data × Nat)) := do
  let (val, valueSize, compressed) ← requiredStorage fill val
  let latinKey := useCompressed key
  let valueOffset := 4 + stringSize key latinKey
  let requiredSize := valueOffset + valueSize
  let x ← detach fill true false (some (d, root)) (requiredSize + 4)
  match x with
  | none => some none
  | some (d, p) => do
    let m ← poke d.raw (p + offset)
      (toLe 4 (valueWord (typeTag val) compressed latinKey (valueToStore val (offset + valueOffset))))
    let m ← poke m (p + offset + 4) (copyString (p + offset + 4) key latinKey)
    let m ← if valueSize = 0 then some m else copyData m (p + offset + valueOffset) val compressed
    let m ← setSize m p (offset + requiredSize)
    some (some (⟨m, d.compactionCounter⟩, offset + requiredSize))

/-- The table behind the entries.
mirrors utils/json/JsonArray.cpp:129-138 and JsonObject.cpp:123-132 -/
def placeTable (fill : Nat → UInt8) (obj : Bool) (d : Data) (offset : Nat) (words : List Nat) :
    Option Handle := do
  let m ← setTableOffset d.raw root offset
  let x ← detach fill obj false (some (⟨m, d.compactionCounter⟩, root)) (4 * words.length)
  match x with
  | none => some none
  | some (d, p) => do
    let t ← tableOffset d.raw p
    let m ← poke d.raw (p + t) (words.flatMap (toLe 4))
    let m ← setLength m p words.length
    let m ← setSize m p (offset + 4 * words.length)
    some (some (⟨m, d.compactionCounter⟩, p))

mutual

/-- mirrors utils/json/JsonValue.cpp:172-205 -/
def fromStdAny (fill : Nat → UInt8) : Any → Except Failure JsonValue
  | .empty => .error .badAnyCast
  | .null => .ok .null
  | .bool b => .ok (.bool b)
  | .double bits => .ok (.double bits)
  | .string s => .ok (.string s)
  | .list [] => .ok (.array none)
  | .list (x :: xs) => do
    let a ← listLoop fill (x :: xs) (newData fill 1024 false) 12
    .ok (.array a)
  | .map [] => .ok (.object none)
  | .map (e :: es) => do
    let o ← mapLoop fill (e :: es) (newData fill 1024 true) 12 []
    .ok (.object o)

/-- The loop of `fromAnyList`. The words go to memory that the vector has reserved only; its size
stays 0, so the table is empty.
mirrors utils/json/JsonArray.cpp:94-134 -/
def listLoop (fill : Nat → UInt8) : List Any → Data → Nat → Except Failure Handle
  | [], d, offset => inside (placeTable fill false d offset [])
  | x :: xs, d, offset => do
    let val ← fromStdAny fill x
    let r ← inside (placeValue fill d offset val)
    match r with
    | none => .ok none
    | some (d, offset) => listLoop fill xs d offset

/-- The loop of `fromAnyMap`.
mirrors utils/json/JsonObject.cpp:85-132 -/
def mapLoop (fill : Nat → UInt8) : List (Str × Any) → Data → Nat → List Nat → Except Failure Handle
  | [], d, offset, offsets => inside (placeTable fill true d offset offsets)
  | (key, x) :: es, d, offset, offsets => do
    let val ← fromStdAny fill x
    let r ← inside (placeEntry fill d offset key val)
    match r with
    | none => .ok none
    | some (d, offset') => mapLoop fill es d offset' (offsets ++ [offset])

end

/-- mirrors utils/json/JsonArray.cpp:94-134 -/
def fromAnyList (fill : Nat → UInt8) : List Any → Except Failure Handle
  | [] => .ok none
  | x :: xs => listLoop fill (x :: xs) (newData fill 1024 false) 12

/-- mirrors utils/json/JsonObject.cpp:85-132 -/
def fromAnyMap (fill : Nat → UInt8) : List (Str × Any) → Except Failure Handle
  | [] => .ok none
  | e :: es => mapLoop fill (e :: es) (newData fill 1024 true) 12 []

/-! ## Equality -/

/-- `==` of two doubles. -/
def sameDouble (x y : UInt64) : Bool :=
  let nan (bits : UInt64) : Bool := decide (0x7FF0000000000000 < bits.toNat % 2 ^ 63)
  !nan x && !nan y && (x == y || (x.toNat % 2 ^ 63 == 0 && y.toNat % 2 ^ 63 == 0))

/-- Two bases of different blocks; the same address is that of no base only.
mirrors utils/json/JsonArray.cpp:294-304 and JsonObject.cpp:326-336 -/
def equalHandles (sub : Bool → Data × Nat → Data × Nat → Option Bool) (obj : Bool) :
    Handle → Handle → Option Bool
  | none, none => some true
  | none, some (d, p) => (baseLength d.raw p).map (· == 0)
  | some (d, p), none => (baseLength d.raw p).map (· == 0)
  | some x, some y => sub obj x y

/-- mirrors utils/json/JsonValue.cpp:335-376 -/
def equalValues (sub : Bool → Data × Nat → Data × Nat → Option Bool) :
    JsonValue → JsonValue → Option Bool
  | .undefined, .undefined => some true
  | .null, .null => some true
  | .bool b, .bool c => some (b == c)
  | .double x, .double y => some (sameDouble x y)
  | .string s, .string t => some (s == t)
  | .array a, .array b => equalHandles sub false a b
  | .object a, .object b => equalHandles sub true a b
  | _, _ => some false

/-- A loop that ends at the first `false`. -/
def allFrom (f : Nat → Option Bool) : Nat → Nat → Option Bool
  | _, 0 => some true
  | i, n + 1 => do
    let b ← f i
    if b then allFrom f (i + 1) n else some false

/-- The value of an element or of an entry. -/
def valueAt (obj : Bool) (x : Data × Nat) (i : Nat) : Option JsonValue := do
  let w ← elementWord x.1.raw obj x.2 i
  JsonValue.ofWord x.1 x.2 w

/-- The fuel bounds the depth.
mirrors utils/json/JsonArray.cpp:305-314 and JsonObject.cpp:337-348 -/
def equalBases (k : KeyOrder) : Nat → Bool → Data × Nat → Data × Nat → Option Bool
  | 0, _, _, _ => none
  | n + 1, obj, x, y => do
    let len ← baseLength x.1.raw x.2
    let len' ← baseLength y.1.raw y.2
    if len ≠ len' then some false
    else allFrom (fun i => do
      let v ← valueAt obj x i
      let v' ← if obj then do
          let key ← entryKey x.1.raw x.2 i
          JsonObject.getValue k (some y) key
        else valueAt obj y i
      equalValues (equalBases k n) v v') 0 len

end

/-!
## There and back through `std::any`

The list of an array begins with an empty `std::any` for each element, which `fromStdAny` takes
for a string and fails to cast; the keys of an object begin with an empty one for each member. So
nothing but what is empty comes back (`lossless_iff`).
-/

open Libpdk.Mem

/-- `fromAnyList(a.toAnyList()) == a` -/
def ArrayReturns (k : KeyOrder) (fill : Nat → UInt8) (a : Handle) : Prop :=
  ∃ n list b, toAnyList n a = some list ∧ fromAnyList fill list = .ok b ∧
    equalHandles (equalBases k n) false b a = some true

/-- `fromAnyMap(o.toAnyMap()) == o` -/
def ObjectReturns (k : KeyOrder) (fill : Nat → UInt8) (o : Handle) : Prop :=
  ∃ n map b, toAnyMap n o = some map ∧ fromAnyMap fill map = .ok b ∧
    equalHandles (equalBases k n) true b o = some true

/-- The list has the elements of the array, in order. -/
def ListExact (a : Handle) : Prop :=
  ∃ n list, toAnyList n a = some list ∧ JsonArray.getSize a = some list.length ∧
    ∀ i (hi : i < list.length), ∃ v, JsonArray.at? a i = some v ∧
      toStdAny (toAnyBase n) v = some (list.get ⟨i, hi⟩)

/-- The keys are in order, and as many as there are members. -/
def KeysExact (o : Handle) : Prop :=
  ∃ keys, getKeys o = some keys ∧ JsonObject.getSize o = some keys.length ∧ keys.Pairwise (· < ·)

/-- What a conversion that loses nothing does. -/
structure Lossless (k : KeyOrder) (fill : Nat → UInt8) (a o : Handle) : Prop where
  array : ArrayReturns k fill a
  object : ObjectReturns k fill o
  list : ListExact a
  keys : KeysExact o

section

variable {k : KeyOrder} {fill : Nat → UInt8} {a o : Handle}

/-- There is an empty `std::any` in front for each element. -/
theorem toAnyList_padded {n : Nat} {list : List Any} (h : toAnyList n a = some list) :
    ∃ len xs, JsonArray.getSize a = some len ∧ list = List.replicate len .empty ++ xs ∧
      xs.length = len := by
  cases a with
  | none =>
    cases h
    exact ⟨0, [], rfl, rfl, rfl⟩
  | some b =>
    obtain ⟨d, p⟩ := b
    obtain ⟨len, hlen, h⟩ := Option.bind_eq_some_iff.mp h
    obtain ⟨xs, hxs, h⟩ := Option.bind_eq_some_iff.mp h
    cases h
    exact ⟨len, xs, hlen, rfl, (collect_eq_some.mp hxs).1⟩

theorem getKeys_padded {keys : List Str} (h : getKeys o = some keys) :
    ∃ len xs, JsonObject.getSize o = some len ∧ keys = List.replicate len [] ++ xs ∧
      xs.length = len := by
  cases o with
  | none =>
    cases h
    exact ⟨0, [], rfl, rfl, rfl⟩
  | some b =>
    obtain ⟨d, p⟩ := b
    obtain ⟨len, hlen, h⟩ := Option.bind_eq_some_iff.mp h
    obtain ⟨xs, hxs, h⟩ := Option.bind_eq_some_iff.mp h
    cases h
    exact ⟨len, xs, hlen, rfl, (collect_eq_some.mp hxs).1⟩

/-- The first empty `std::any` is no string. -/
theorem fromAnyList_padded (fill : Nat → UInt8) (len : Nat) (xs : List Any) :
    fromAnyList fill (List.replicate (len + 1) .empty ++ xs) = .error .badAnyCast := by
  rw [List.replicate_succ, List.cons_append, fromAnyList, listLoop, fromStdAny]
  rfl

theorem toAnyList_empty (h : JsonArray.getSize a = some 0) : toAnyList 1 a = some [] := by
  cases a with
  | none => rfl
  | some b =>
    have hlen : baseLength b.1.raw b.2 = some 0 := h
    rw [toAnyList, hlen]
    rfl

theorem toAnyMap_empty (h : JsonObject.getSize o = some 0) : toAnyMap 1 o = some [] := by
  cases o with
  | none => rfl
  | some b =>
    have hlen : baseLength b.1.raw b.2 = some 0 := h
    rw [toAnyMap, hlen]
    rfl

/-- No base is equal to an empty one. -/
theorem equalHandles_none (sub : Bool → Data × Nat → Data × Nat → Option Bool) (obj : Bool)
    (h : ∀ d p, a = some (d, p) → baseLength d.raw p = some 0) :
    equalHandles sub obj none a = some true := by
  cases a with
  | none => rfl
  | some b =>
    obtain ⟨d, p⟩ := b
    rw [equalHandles, h d p rfl]
    rfl

theorem arrayReturns_iff : ArrayReturns k fill a ↔ JsonArray.getSize a = some 0 := by
  refine ⟨fun ⟨n, list, b, hlist, hfrom, _⟩ => ?_, fun h => ⟨1, [], none, toAnyList_empty h, rfl, ?_⟩⟩
  · obtain ⟨len, xs, hsize, rfl, -⟩ := toAnyList_padded hlist
    cases len with
    | zero => exact hsize
    | succ len =>
      rw [fromAnyList_padded] at hfrom
      cases hfrom
  · exact equalHandles_none _ _ fun d p hd => by rwa [hd] at h

theorem objectReturns_empty (h : JsonObject.getSize o = some 0) : ObjectReturns k fill o :=
  ⟨1, [], none, toAnyMap_empty h, rfl, equalHandles_none _ _ fun d p hd => by rwa [hd] at h⟩

theorem listExact_iff : ListExact a ↔ JsonArray.getSize a = some 0 := by
  refine ⟨fun ⟨n, list, hlist, hsize, _⟩ => ?_, fun h => ⟨1, [], toAnyList_empty h, h, ?_⟩⟩
  · obtain ⟨len, xs, hsize', rfl, hxs⟩ := toAnyList_padded hlist
    rw [hsize', Option.some.injEq, List.length_append, List.length_replicate] at hsize
    rw [hsize', show len = 0 by omega]
  · intro i hi
    cases hi

theorem keysExact_iff : KeysExact o ↔ JsonObject.getSize o = some 0 := by
  refine ⟨fun ⟨keys, hkeys, hsize, _⟩ => ?_, fun h => ⟨[], ?_, h, .nil⟩⟩
  · obtain ⟨len, xs, hsize', rfl, hxs⟩ := getKeys_padded hkeys
    rw [hsize', Option.some.injEq, List.length_append, List.length_replicate] at hsize
    rw [hsize', show len = 0 by omega]
  · cases o with
    | none => rfl
    | some b =>
      have hlen : baseLength b.1.raw b.2 = some 0 := h
      rw [getKeys, hlen]
      rfl

end

/-- The conversions lose nothing exactly if there is nothing. -/
theorem lossless_iff (k : KeyOrder) (fill : Nat → UInt8) (a o : Handle) :
    Lossless k fill a o ↔ JsonArray.getSize a = some 0 ∧ JsonObject.getSize o = some 0 :=
  ⟨fun h => ⟨arrayReturns_iff.mp h.array, keysExact_iff.mp h.keys⟩,
    fun ⟨ha, ho⟩ => ⟨arrayReturns_iff.mpr ha, objectReturns_empty ho, listExact_iff.mpr ha,
      keysExact_iff.mpr ho⟩⟩

/-- An array with one element does not come back. -/
theorem element_lost : ¬Lossless ⟨fun _ _ _ => true, fun _ _ _ => true⟩ (fun _ => 0)
    (some (⟨header ++ toLe 4 16 ++ toLe 4 2 ++ toLe 4 12 ++ toLe 4 33, 0⟩, root)) none := by
  intro h
  exact absurd (arrayReturns_iff.mp h.array) (by decide)

end Libpdk.Json

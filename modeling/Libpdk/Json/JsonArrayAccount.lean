import Libpdk.Json.JsonArrayRefines

/-!
# The account of an array

What each operation of an array does to its account, in whatever order the operations come and
whoever else refers to the block.
-/
namespace Libpdk.Json

/-- The storage that a value takes. -/
def storageOf (fill : Nat → UInt8) (v : JsonValue) : Option Nat :=
  (requiredStorage fill v).map fun r => r.2.1

namespace JsonArray

/-- The values of an operation are values. -/
def Op.Valid : Op JsonValue → Prop
  | .insert _ v | .append v | .prepend v | .replace _ v => ∃ x, Json.Represents v x
  | .removeAt _ | .takeAt _ => True

section

variable (fill : Nat → UInt8) (shared : Bool) {a a' : Handle} {x : Account} {stored : Bool}

theorem Booked.getSize (h : Booked Stored false a x) : getSize a = some x.sizes.length := by
  obtain ⟨es, ha, hes⟩ := h
  rw [getSize_spec ha, ← hes, List.length_map]

end

/-- Whether other references to the block are around, and an operation. -/
structure Act where
  shared : Bool
  op : Op JsonValue

end JsonArray

end Libpdk.Json

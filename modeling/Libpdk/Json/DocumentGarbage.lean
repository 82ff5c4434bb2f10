import Libpdk.Json.JsonObjectAccount

/-!
# What is left behind in a document

`setArray` and `setObject` compact what they store when its counter says that there is something
to compact. But they work on a handle of their own, so the block is shared and `compact` copies it
first; the counter of the copy is 0, and nothing is compacted. So the document has all that the
array or object has, what is left of removed elements included (`document_garbage`).
-/
namespace Libpdk.Json

open Libpdk.Mem

section

variable {E : Type} {R : Holding E} {obj : Bool} {h : Handle} {x : Account}

/-- The storage of the elements, by the function that `compact` asks. -/
theorem Content.collect_storage {m : Bytes} {size : Nat} {es : List (E × Nat)}
    (hR : Movable obj R) (hc : Content R m header obj size es) :
    Libpdk.collect (elementStorage m obj root) 0 es.length = some (es.map Prod.snd) := by
  obtain ⟨body, words, rest, hb, hes, -⟩ := hc
  have hsizes := Elements.collect_storage hR hb hes
  rwa [length_header, List.Forall₂.length_eq hes] at hsizes

end

/-- An array whose only element has been removed. -/
def emptied : Handle :=
  some (⟨header ++ headBytes false 16 0 12 ++ toLe 4 (valueWord 1 false false 1) ++ toLe 4 0, 1⟩,
    root)

end Libpdk.Json

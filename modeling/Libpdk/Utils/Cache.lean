import Libpdk.Core.Links
import Libpdk.Core.Lts

/-!
# The object cache

`Cache` of utils/Cache.h: a map from keys to nodes, a doubly linked
list through the nodes in the order of their last use, and the sum of the costs.
A node is known by its key; `m_keyPtr` is that key. A pointer that leads to no
node is `none` of the whole operation.

`deleted` records the objects that the cache has deleted. The sum is an `int`:
adding to it wraps.
-/
namespace Libpdk.Utils

open Links

variable {K O : Type} [DecidableEq K]

/-- mirrors utils/Cache.h:29-47 -/
structure Cell (O : Type) where
  cost : Int
  data : Option O
  deriving DecidableEq, Repr

/-- mirrors utils/Cache.h:49-53 -/
structure Cache (K O : Type) where
  forward : Option K
  last : Option K
  map : LinkMap K (Cell O)
  mx : Int
  total : Int
  deleted : List O

namespace Cache

/-- mirrors utils/Cache.h:162-168 -/
def init (maxCost : Int) : Cache K O := ⟨none, none, ∅, maxCost, 0, []⟩

/-- What `unlink` and `relink` begin with: the neighbours are linked to each other.
mirrors utils/Cache.h:57-65 and 84-92 -/
def bypass (c : Cache K O) (k : K) : Option (Cache K O) := do
  let node ← c.map.lookup k
  let map ← setNext c.map node.prev node.next
  let node ← map.lookup k
  let map ← setPrev map node.next node.prev
  let node ← map.lookup k
  some { c with map := map, last := if c.last = some k then node.prev else c.last }

/-- mirrors utils/Cache.h:55-72 -/
def unlink (c : Cache K O) (k : K) : Option (Cache K O) := do
  let c ← c.bypass k
  let node ← c.map.lookup k
  some { c with
    forward := if c.forward = some k then node.next else c.forward
    map := c.map.erase k
    deleted := c.deleted ++ node.val.data.toList }

/-- A node goes to the front; `m_forward` is not null then.
mirrors utils/Cache.h:74-97 -/
def relink (c : Cache K O) (k : K) : Option (Option O × Cache K O) :=
  match c.map.lookup k with
  | none => some (none, c)
  | some node =>
    if c.forward = some k then some (node.val.data, c)
    else do
      let c ← c.bypass k
      let node ← c.map.lookup k
      let front ← c.forward
      let map ← setPrev (c.map.insert k { node with prev := none, next := some front }) front k
      some (node.val.data, { c with map := map, forward := some k })

/-- The loop of `clear`; the fuel is the number of nodes. -/
def clearLoop : Nat → Cache K O → Option (Cache K O)
  | 0, _ => none
  | n + 1, c =>
    match c.forward with
    | none => some c
    | some k => do
      let node ← c.map.lookup k
      clearLoop n { c with deleted := c.deleted ++ node.val.data.toList, forward := node.next }

/-- mirrors utils/Cache.h:170-179 -/
def clear (c : Cache K O) : Option (Cache K O) := do
  let c ← clearLoop (c.map.keys.length + 1) c
  some { c with map := ∅, last := none, total := 0 }

/-- The loop of `trim`, with `node` in hand; the fuel is the number of nodes. -/
def trimLoop (m : Int) : Nat → Option K → Cache K O → Option (Cache K O)
  | 0, _, _ => none
  | n + 1, node, c =>
    match node with
    | none => some c
    | some u =>
      if c.total ≤ m then some c
      else do
        let node ← c.map.lookup u
        let c ← c.unlink u
        trimLoop m n node.prev c

/-- mirrors utils/Cache.h:254-263 -/
def trim (m : Int) (c : Cache K O) : Option (Cache K O) :=
  trimLoop m (c.map.keys.length + 1) c.last c

/-- mirrors utils/Cache.h:181-187 -/
def setMaxCost (c : Cache K O) (maxCost : Int) : Option (Cache K O) :=
  trim maxCost { c with mx := maxCost }

/-- mirrors utils/Cache.h:189-193 -/
def getData (c : Cache K O) (k : K) : Option (Option O × Cache K O) := c.relink k

/-- mirrors utils/Cache.h:201-211 -/
def remove (c : Cache K O) (k : K) : Option (Bool × Cache K O) :=
  match c.map.lookup k with
  | none => some (false, c)
  | some _ => do
    let c ← c.unlink k
    some (true, c)

/-- mirrors utils/Cache.h:213-225 -/
def take (c : Cache K O) (k : K) : Option (Option O × Cache K O) :=
  match c.map.lookup k with
  | none => some (none, c)
  | some node => do
    let emptied := { node with val := { node.val with data := none } }
    let c ← unlink { c with map := c.map.insert k emptied } k
    some (node.val.data, c)

/-- The new node becomes the first one. -/
def link (c : Cache K O) (k : K) (obj : O) (cost : Int) : Option (Cache K O) := do
  let map := c.map.insert k ⟨⟨cost, some obj⟩, none, none⟩
  let map ← setPrev map c.forward (some k)
  let map ← setNext map (some k) c.forward
  some { c with
    map := map
    total := (c.total + cost).bmod (2 ^ 32)
    forward := some k
    last := if c.last.isNone then some k else c.last }

/-- mirrors utils/Cache.h:228-251 -/
def insert (c : Cache K O) (k : K) (obj : O) (cost : Int) : Option (Bool × Cache K O) := do
  let (_, c) ← c.remove k
  if c.mx < cost then some (false, { c with deleted := c.deleted ++ [obj] })
  else
    let c ← trim (c.mx - cost) c
    let c ← c.link k obj cost
    some (true, c)

end Cache

end Libpdk.Utils

import Wiring.Graph.Basic

/-!
# Reading the links of a node

`Graph.properties` and `Graph.listItems?` go through all links of a graph, in the order in which they
have been made. A graph that keeps its links by node gives out those of one node in no order that could
be relied on. Each of them has its place in the order of creation, however, and sorted by it they say the
same.

- `Graph.outgoing`: the links of a node, each with its place.
- `Outgoing.selected`: the links with certain labels, out of links in any order, sorted by their places.
- `Outgoing.values`, `Outgoing.items`: what these say of a predicate, and of the items of a list. Items
  are sorted a second time, by their positions.
-/

namespace Wiring

/-- A link of a node: its place in the order of creation, its label and its target. -/
structure Outgoing where
  place : Nat
  label : Label
  target : NodeId
deriving DecidableEq, Repr

namespace Outgoing

/-- What a link, with its place, is for its source. -/
def ofLink? (id : NodeId) : Link × Nat → Option Outgoing
  | (l, place) => if l.source = id then some ⟨place, l.label, l.target⟩ else none

/-- The links with certain labels, in order of creation. -/
def selected (keeps : Label → Bool) (found : List Outgoing) : List Outgoing :=
  (found.filter fun o => keeps o.label).mergeSort fun o o' => o.place ≤ o'.place

/-- The values of a predicate. -/
def values (predicate : String) (found : List Outgoing) : List NodeId :=
  (selected (·.predicate? = some predicate) found).map (·.target)

/-- The position of an item, with the item. -/
def item? (o : Outgoing) : Option (UInt32 × NodeId) := o.label.position?.map (·, o.target)

/-- The items of a list. -/
def items (found : List Outgoing) : List NodeId :=
  (((selected (·.position?.isSome) found).filterMap item?).mergeSort fun i j => i.1 ≤ j.1).map (·.2)

end Outgoing

namespace Graph

/-- The links of a node, in order of creation. -/
def outgoing (g : Graph) (id : NodeId) : List Outgoing :=
  g.links.toList.zipIdx.filterMap (Outgoing.ofLink? id)

end Graph

end Wiring

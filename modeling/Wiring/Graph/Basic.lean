import Wiring.TypedValue
import Wiring.Vocabulary

/-!
# Config graphs

A graph numbers its nodes from zero in the order of creation and keeps its links in the order in
which they are made. A link is a property or the membership of a list.

Reading never fails: a node that does not exist has no term, no properties and no types.

- `properties`: the targets of a predicate, in order of insertion; `property?` is the first.
- `listItems?`: the items of a list, by position; a node of another kind has none.
- `types`, `isA`: the values of the type links.
- `find?`: the node of a non-literal term.
-/

namespace Wiring

/-- What a link says about its target. -/
inductive Label where
  /-- The value of a predicate. -/
  | property (predicate : String)
  /-- Membership of an ordered list. -/
  | item (position : UInt32)
deriving DecidableEq, Repr

namespace Label

/-- The predicate of a property. -/
def predicate? : Label → Option String
  | .property p => some p
  | .item _ => none

/-- The position of a list item. -/
def position? : Label → Option UInt32
  | .property _ => none
  | .item n => some n

/-- A label as a tagged JSON value. -/
def toJson : Label → Json
  | .property p => .obj [("Property", .str p)]
  | .item n => .obj [("Item", .int n.toNat)]

/-- The label that a tagged JSON value stands for. Positions have 32 bits. -/
def ofJson? (j : Json) : Option Label :=
  match j.asTagged? with
  | some ("Property", .str p) => some (.property p)
  | some ("Item", content) => (content.asNat? 0xFFFFFFFF).map fun n => .item (UInt32.ofNat n)
  | _ => none

end Label

/-- A labelled link between two nodes. -/
structure Link where
  source : NodeId
  label : Label
  target : NodeId
deriving DecidableEq, Repr

/-- Nodes and links, each in order of creation. -/
structure Graph where
  /-- The terms of the nodes. A node is its place in this list. -/
  nodes : Array Term := #[]
  links : Array Link := #[]
  /-- How many labels have been generated for blank nodes and lists. -/
  labels : Nat := 0
deriving DecidableEq, Repr

namespace Graph

/-- The number of nodes. -/
def size (g : Graph) : Nat := g.nodes.size

/-- The term of a node. -/
def term? (g : Graph) (id : NodeId) : Option Term := g.nodes[id]?

/-- The kind of a node. -/
def kind? (g : Graph) (id : NodeId) : Option Kind := (g.term? id).map (·.kind)

/-- The value of a node's term. -/
def value? (g : Graph) (id : NodeId) : Option String := (g.term? id).map (·.value)

/-- Whether there is such a node. -/
def contains (g : Graph) (id : NodeId) : Bool := id < g.size

/-! ## Properties and types -/

/-- All values of a predicate, in order of insertion. -/
def properties (g : Graph) (id : NodeId) (predicate : String) : List NodeId :=
  (g.links.toList.filter fun l => l.source = id ∧ l.label = .property predicate).map (·.target)

/-- The first value of a predicate. -/
def property? (g : Graph) (id : NodeId) (predicate : String) : Option NodeId :=
  (g.properties id predicate).head?

/-- The term of the first value of a predicate. -/
def propertyTerm? (g : Graph) (id : NodeId) (predicate : String) : Option Term :=
  (g.property? id predicate).bind g.term?

/-- The value of the first value's term. -/
def propertyValue? (g : Graph) (id : NodeId) (predicate : String) : Option String :=
  (g.propertyTerm? id predicate).map (·.value)

/-- The values of the declared types. -/
def types (g : Graph) (id : NodeId) : List String :=
  (g.properties id Rdf.type).filterMap g.value?

/-- Whether a node is tagged with a type. -/
def isA (g : Graph) (id : NodeId) (iri : String) : Bool := iri ∈ g.types id

/-- Whether the settings of a construction decide what the node stands for. -/
def isVariable (g : Graph) (id : NodeId) : Bool :=
  g.kind? id = some .placeholder || g.isA id Components.variableType

/-! ## Lists -/

/-- Inserts before the first item whose position is not smaller. -/
def insertItem (item : UInt32 × NodeId) : List (UInt32 × NodeId) → List (UInt32 × NodeId)
  | [] => [item]
  | other :: rest =>
    if item.1 ≤ other.1 then item :: other :: rest else other :: insertItem item rest

/-- The items by position; of equal positions the earlier link comes first. -/
def sortItems (items : List (UInt32 × NodeId)) : List (UInt32 × NodeId) :=
  items.foldr insertItem []

/-- The items that are linked to a node, in order of insertion. -/
def itemLinks (g : Graph) (id : NodeId) : List (UInt32 × NodeId) :=
  g.links.toList.filterMap fun l =>
    if l.source = id then l.label.position?.map (·, l.target) else none

/-- The ordered items of a list. -/
def listItems? (g : Graph) (id : NodeId) : Option (List NodeId) :=
  if g.kind? id = some .list then some ((sortItems (g.itemLinks id)).map (·.2)) else none

/-! ## Looking up a node -/

/-- The node of a term that is not a literal. Literals are never looked up, only created. -/
def find? (g : Graph) (kind : Kind) (value : String) : Option NodeId :=
  if kind = .literal then none
  else g.nodes.findIdx? fun t => t.kind = kind ∧ t.value = value

@[simp] theorem find?_literal (g : Graph) (value : String) : g.find? .literal value = none := rfl

@[simp] theorem properties_empty (id : NodeId) (p : String) :
    Graph.properties {} id p = [] := rfl

/-- The nodes are those below the size. -/
theorem term?_isSome {g : Graph} {id : NodeId} : (g.term? id).isSome ↔ id < g.size := by
  simp [term?, size]

end Graph

end Wiring

import Wiring.Graph.Update
import Wiring.Range.Lowering

/-!
# Ranges written into a graph

`Range.encode` writes a range into a graph: a type as the named node of its IRI, and any other range as
a new blank node, a *resource*, that is tagged with its shape and linked to what it wraps. What it
wraps is written first.

- `Writing`: the updates that write something, with the nodes that describe ranges among the nodes
  that are created or found.
- `Style`: what is free in writing. Members of a composite range can be the items of a list or repeated
  values, and a literal range can use a node of its term that is there already.
- `Range.isWritable`: what can be written. There is no resource for `any`, and documents give literal
  ranges the terms of named nodes and of literals.
-/

namespace Wiring

namespace Shape

/-- The tag of a shape. -/
def tag : Shape → String
  | .undefined => Components.rangeUndefined
  | .array => Components.rangeArray
  | .rest => Components.rangeRest
  | .union => Components.rangeUnion
  | .intersection => Components.rangeIntersection
  | .tuple => Components.rangeTuple
  | .literal => Components.rangeLiteral
  | .collectEntries => Components.rangeCollectEntries

/-- A shape is told by its tag. -/
@[simp] theorem ofTypes_tag (s : Shape) : ofTypes [s.tag] = some s := by
  cases s <;> decide +kernel

end Shape

/-- How the members of a composite range are given. -/
inductive Layout where
  /-- As the items of one list. -/
  | list
  /-- As values, one after the other. -/
  | values
deriving DecidableEq, Repr

/-- What is free in writing a range. Each time it is asked with the graph so far, which has grown since
the last time; so it may answer differently each time. -/
structure Style where
  /-- How to give the members of a composite range. -/
  layout : Graph → Layout
  /-- The node to use for a term, if it is a literal and the node has this term. -/
  reuse? : Graph → Term → Option NodeId

/-- Updates that write something. -/
structure Writing (α : Type) where
  updates : List Update
  /-- The nodes that describe ranges. -/
  resources : List NodeId
  /-- Where to find what has been written. -/
  result : α

namespace Writing

variable {α : Type}

/-- The graph after the updates. -/
def after (w : Writing α) (g : Graph) : Graph := g.applyAll w.updates

/-- A new resource, with values of a predicate. -/
def resourceUpdates (s : Shape) (predicate : String) (id : NodeId) (values : List NodeId) :
    List Update :=
  .blank :: .addType id s.tag :: values.map (.addProperty id predicate)

/-- Writes a resource after the nodes that it is linked to. -/
def describe (w : Writing (List NodeId)) (s : Shape) (predicate : String) (g : Graph) :
    Writing NodeId where
  updates := w.updates ++ resourceUpdates s predicate (w.after g).size w.result
  resources := w.resources ++ [(w.after g).size]
  result := (w.after g).size

/-- What a single range is linked to. -/
def single (w : Writing NodeId) : Writing (List NodeId) := { w with result := [w.result] }

/-- Puts members into a list, or leaves them as they are. Members that are more than a list has
positions stay as they are. -/
def arrange (w : Writing (List NodeId)) (layout : Graph → Layout) (g : Graph) :
    Writing (List NodeId) :=
  if layout (w.after g) = .list ∧ w.result.length ≤ UInt32.size then
    { w with updates := w.updates ++ [.list w.result], result := [(w.after g).size] }
  else w

/-- Writes a resource that wraps what has been written, if anything. -/
def wrap (s : Shape) (w : Writing (List NodeId)) (g : Graph) : Writing NodeId :=
  w.describe s Components.parameterRangeValue g

/-- Writes a resource that has members. -/
def compose (style : Style) (s : Shape) (w : Writing (List NodeId)) (g : Graph) : Writing NodeId :=
  (w.arrange style.layout g).describe s Components.parameterRangeElements g

/-- The named node of an IRI. -/
def named (iri : String) (g : Graph) : Writing NodeId where
  updates := [.named iri]
  resources := []
  result := (g.intern .named iri).1

/-- A node of a term, which is a named one or a literal. -/
def term (style : Style) (t : Term) (g : Graph) : Writing NodeId :=
  match t with
  | ⟨.literal, text, some datatype⟩ =>
    match (style.reuse? g t).filter fun id => g.term? id = some t with
    | some id => { updates := [], resources := [], result := id }
    | none => { updates := [.typedLiteral text datatype], resources := [], result := g.size }
  | t => named t.value g

end Writing

namespace Range

mutual

/-- Whether a range has no `any` and, as terms of literal ranges, only named nodes and literals. -/
def isWritable : Range → Bool
  | .any => false
  | .literal ⟨.named, _, none⟩ => true
  | .literal ⟨.literal, _, some _⟩ => true
  | .literal _ => false
  | .array element => element.isWritable
  | .rest element => element.isWritable
  | .tuple entries => eachWritable entries
  | .union options => eachWritable options
  | .intersection options => eachWritable options
  | _ => true

/-- Whether this is so for all members. -/
def eachWritable : List Range → Bool
  | [] => true
  | r :: rs => r.isWritable && eachWritable rs

end

mutual

/-- Writes a range into a graph. There is no resource for `any`. -/
def encode (style : Style) : Range → Graph → Writing NodeId
  | .any, g => { updates := [], resources := [], result := g.size }
  | .type iri, g =>
    let w := Writing.named iri g
    { w with resources := [w.result] }
  | .undefined, g => Writing.wrap .undefined ⟨[], [], []⟩ g
  | .collectEntries, g => Writing.wrap .collectEntries ⟨[], [], []⟩ g
  | .literal t, g => Writing.wrap .literal (Writing.term style t g).single g
  | .array element, g => Writing.wrap .array (encode style element g).single g
  | .rest element, g => Writing.wrap .rest (encode style element g).single g
  | .union options, g => Writing.compose style .union (encodeEach style options g) g
  | .intersection options, g => Writing.compose style .intersection (encodeEach style options g) g
  | .tuple entries, g => Writing.compose style .tuple (encodeEach style entries g) g

/-- Writes members, one after the other. -/
def encodeEach (style : Style) : List Range → Graph → Writing (List NodeId)
  | [], _ => { updates := [], resources := [], result := [] }
  | r :: rs, g =>
    let first := encode style r g
    let rest := encodeEach style rs (first.after g)
    { updates := first.updates ++ rest.updates
      resources := first.resources ++ rest.resources
      result := first.result :: rest.result }

end

end Range

end Wiring

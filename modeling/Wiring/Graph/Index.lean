import Std.Data.HashMap
import Wiring.Graph.Update

/-!
# Graphs with an index

`Graph.find?` looks through all nodes. A `Graph.Indexed` keeps a map from kinds and values to nodes
beside its graph, and looks there before it creates a node. Nodes enter the map when they are created:
named nodes and placeholders under their value, blank nodes and lists under the label that they get.
Literals never do.
-/

namespace Wiring

deriving instance Hashable for Kind

/-- A graph with a map to the nodes that are not literals. -/
structure Graph.Indexed where
  graph : Graph := {}
  index : Std.HashMap (Kind × String) NodeId := ∅

namespace Graph.Indexed

/-- The node that the map has for a kind and a value. -/
def find? (x : Indexed) (kind : Kind) (value : String) : Option NodeId := x.index[(kind, value)]?

/-- The node of a term without datatype, created and entered if there is none. -/
def intern (x : Indexed) (kind : Kind) (value : String) : NodeId × Indexed :=
  match x.find? kind value with
  | some id => (id, x)
  | none =>
    let (id, graph) := x.graph.push ⟨kind, value, none⟩
    (id, { graph, index := x.index.insert (kind, value) id })

/-- Adds a node with a generated label and enters it under the label. -/
def pushLabelled (x : Indexed) (kind : Kind) (letter : String) : NodeId × Indexed :=
  let (id, graph) := x.graph.pushLabelled kind letter
  (id, { graph, index := x.index.insert (kind, s!"_:{letter}{graph.labels}") id })

/-- Performs an update. Literals and links do not concern the map. -/
def apply (x : Indexed) : Update → Outcome × Indexed
  | .named iri => let (id, x) := x.intern .named iri; (.node id, x)
  | .placeholder name => let (id, x) := x.intern .placeholder name; (.node id, x)
  | .blank => let (id, x) := x.pushLabelled .blank "b"; (.node id, x)
  | .list items =>
    let (id, x) := x.pushLabelled .list "l"
    let (complete, graph) := x.graph.linkItems id 0 items
    (if complete then .node id else .dangling, { x with graph })
  | .addType subject iri =>
    let (object, x) := x.intern .named iri
    match x.graph.addProperty? subject Rdf.type object with
    | some graph => (.done, { x with graph })
    | none => (.dangling, x)
  | u => let (outcome, graph) := x.graph.apply u; (outcome, { x with graph })

/-- Performs updates in order, whatever comes of them. -/
def applyAll (x : Indexed) (us : List Update) : Indexed := us.foldl (fun x u => (x.apply u).2) x

end Graph.Indexed

end Wiring

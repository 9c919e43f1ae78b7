import Wiring.Graph.Update

/-!
# Stores

A store is a graph together with the typed values that checks have left on its literals. Updates change
the graph alone; checks change the typed values alone.
-/

namespace Wiring

/-- A graph and the typed values of its literals. -/
structure Store where
  graph : Graph := {}
  typed : TypedValues := ∅

namespace Store

/-- Performs an update of the graph. -/
def apply (s : Store) (u : Update) : Outcome × Store :=
  let (outcome, graph) := s.graph.apply u
  (outcome, { s with graph })

@[simp] theorem typed_apply (s : Store) (u : Update) : (s.apply u).2.typed = s.typed := rfl

/-- The typed value of a node, if a check has left one. -/
def typed? (s : Store) (id : NodeId) : Option TypedValue := s.typed[id]?

/-- What a literal stands for in an instance: its typed value, or else its text. -/
def literalValue (s : Store) (id : NodeId) (t : Term) : Json :=
  match s.typed? id with
  | some v => v.toJson
  | none => .str t.value

end Store

end Wiring

import Wiring.Graph.Basic

/-!
# Growing a graph

Graphs only grow. An `Update` is one operation that a document reader performs; `Graph.apply` performs
it and says what came of it.

- Named nodes and placeholders are created at their first mention; literals are always new.
- Blank nodes and lists get labels from one counter.
- A link from or to a node that does not exist is refused (`Outcome.dangling`). What an update has
  done before stays: a list keeps the items before the missing one, and a refused type has its node.
-/

namespace Wiring

/-- One operation of a document reader. -/
inductive Update where
  /-- The node of an IRI. -/
  | named (iri : String)
  /-- The node of a variable. -/
  | placeholder (name : String)
  /-- A new blank node. -/
  | blank
  /-- A literal of the datatype string. -/
  | literal (text : String)
  /-- A literal of any datatype. -/
  | typedLiteral (text datatype : String)
  /-- A new list with its items. -/
  | list (items : List NodeId)
  /-- A further value of a predicate. -/
  | addProperty (subject : NodeId) (predicate : String) (object : NodeId)
  /-- A further type. -/
  | addType (subject : NodeId) (iri : String)
deriving DecidableEq, Repr

/-- What came of an update. -/
inductive Outcome where
  /-- The node that was created or found. -/
  | node (id : NodeId)
  /-- A link was made. -/
  | done
  /-- A link would have had no source or no target. -/
  | dangling
deriving DecidableEq, Repr

namespace Graph

/-- Adds a node. -/
def push (g : Graph) (t : Term) : NodeId × Graph := (g.size, { g with nodes := g.nodes.push t })

/-- The node of a term without datatype, created if there is none. -/
def intern (g : Graph) (kind : Kind) (value : String) : NodeId × Graph :=
  match g.find? kind value with
  | some id => (id, g)
  | none => g.push ⟨kind, value, none⟩

/-- Adds a node with a generated label, whose letter tells what it labels. -/
def pushLabelled (g : Graph) (kind : Kind) (letter : String) : NodeId × Graph :=
  { g with labels := g.labels + 1 }.push ⟨kind, s!"_:{letter}{g.labels + 1}", none⟩

/-- Adds a blank node. -/
def pushBlank (g : Graph) : NodeId × Graph := g.pushLabelled .blank "b"

/-- Adds a plain literal, whose datatype is string. -/
def pushLiteral (g : Graph) (text : String) : NodeId × Graph := g.push (.literal text Xsd.string)

/-- Adds a link, unless one of its ends is missing. -/
def link? (g : Graph) (source : NodeId) (label : Label) (target : NodeId) : Option Graph :=
  if g.contains source ∧ g.contains target then
    some { g with links := g.links.push ⟨source, label, target⟩ }
  else none

/-- Adds a value of a predicate, unless one of the nodes is missing. -/
def addProperty? (g : Graph) (subject : NodeId) (predicate : String) (object : NodeId) :
    Option Graph :=
  g.link? subject (.property predicate) object

/-- Links items to a list, from a position on, up to the first missing item. Says whether all were
linked. -/
def linkItems (g : Graph) (list : NodeId) (position : Nat) : List NodeId → Bool × Graph
  | [] => (true, g)
  | item :: rest => match g.link? list (.item (UInt32.ofNat position)) item with
    | none => (false, g)
    | some g => g.linkItems list (position + 1) rest

/-- Performs an update. -/
def apply (g : Graph) : Update → Outcome × Graph
  | .named iri => let (id, g) := g.intern .named iri; (.node id, g)
  | .placeholder name => let (id, g) := g.intern .placeholder name; (.node id, g)
  | .blank => let (id, g) := g.pushBlank; (.node id, g)
  | .literal text => let (id, g) := g.pushLiteral text; (.node id, g)
  | .typedLiteral text datatype => let (id, g) := g.push (.literal text datatype); (.node id, g)
  | .list items =>
    let (id, g) := g.pushLabelled .list "l"
    let (complete, g) := g.linkItems id 0 items
    (if complete then .node id else .dangling, g)
  | .addProperty subject predicate object => match g.addProperty? subject predicate object with
    | some g => (.done, g)
    | none => (.dangling, g)
  | .addType subject iri =>
    let (object, g) := g.intern .named iri
    match g.addProperty? subject Rdf.type object with
    | some g => (.done, g)
    | none => (.dangling, g)

/-- Performs updates in order, whatever comes of them. -/
def applyAll (g : Graph) (us : List Update) : Graph := us.foldl (fun g u => (g.apply u).2) g

/-! ## What one step does to the views -/

@[simp] theorem size_push (g : Graph) (t : Term) : (g.push t).2.size = g.size + 1 := by
  simp [push, size]

/-- A new node gets the next number; the terms of the others stay. -/
theorem term?_push (g : Graph) (t : Term) (id : NodeId) :
    (g.push t).2.term? id = if id = g.size then some t else g.term? id := by
  simp only [push, term?, size, Array.getElem?_push]
  rfl

@[simp] theorem links_push (g : Graph) (t : Term) : (g.push t).2.links = g.links := rfl

@[simp] theorem properties_push (g : Graph) (t : Term) (id : NodeId) (p : String) :
    (g.push t).2.properties id p = g.properties id p := rfl

/-- A link is made between existing nodes only, and only the links change. -/
theorem link?_eq_some {g g' : Graph} {s o : NodeId} {l : Label} (h : g.link? s l o = some g') :
    s < g.size ∧ o < g.size ∧ g' = { g with links := g.links.push ⟨s, l, o⟩ } := by
  simp only [link?, contains, decide_eq_true_eq, Option.ite_none_right_eq_some,
    Option.some.injEq] at h
  exact ⟨h.1.1, h.1.2, h.2.symm⟩

/-- A new link comes last among the properties of its subject and touches no other. -/
theorem properties_link? {g g' : Graph} {s o : NodeId} {l : Label}
    (h : g.link? s l o = some g') (id : NodeId) (p : String) :
    g'.properties id p =
      g.properties id p ++ (if s = id ∧ l = .property p then [o] else []) := by
  obtain ⟨-, -, rfl⟩ := link?_eq_some h
  by_cases hl : s = id ∧ l = .property p <;> simp [properties, hl]

end Graph

end Wiring

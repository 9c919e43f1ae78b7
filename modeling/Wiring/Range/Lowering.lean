import Wiring.Graph.Basic
import Wiring.Range.Basic
import Wiring.Range.Error

/-!
# Ranges described by a graph

A range resource is tagged with the kind of range it describes; a resource without such a tag stands
for itself, as a type. The resources that it wraps are ranges too, and nothing keeps a document from
making a range part of itself. Lowering such a resource never ends, so the result is an `Option`:

- `Shape.ofTypes`: the kind of range that a resource describes, by the first of the tags in a fixed
  order.
- `Range.lowerWithin`: lowers along paths of at most so many resources. `none` says that a path was
  longer.
- `Range.lower`: lowers along paths of any length. A path longer than the graph meets a resource twice,
  so `none` says that the range is part of itself.
- `Parameter.ofNode`: a parameter resource with the first of its ranges; `any` if it has none.
-/

namespace Wiring

/-- The kind of range that a resource describes. -/
inductive Shape where
  | undefined
  | array
  | rest
  | union
  | intersection
  | tuple
  | literal
  | collectEntries
deriving DecidableEq, Repr

namespace Shape

/-- The tags, in the order in which they are looked for. -/
def tags : List (String × Shape) :=
  [(Components.rangeUndefined, .undefined),
    (Components.rangeArray, .array),
    (Components.rangeRest, .rest),
    (Components.rangeUnion, .union),
    (Components.rangeIntersection, .intersection),
    (Components.rangeTuple, .tuple),
    (Components.rangeLiteral, .literal),
    (Components.rangeCollectEntries, .collectEntries)]

/-- The shape of a resource with the given types. -/
def ofTypes (types : List String) : Option Shape :=
  (tags.find? fun (tag, _) => tag ∈ types).map (·.2)

end Shape

namespace Graph

/-- The members of a composite range: the items of a single list, or all values in order. -/
def rangeElements (g : Graph) (id : NodeId) : List NodeId :=
  match g.properties id Components.parameterRangeElements with
  | [single] => (g.listItems? single).getD [single]
  | values => values

end Graph

namespace Range

/-- The error of a composite range that wraps nothing. -/
def missingValue (t : Term) : Range.Error := .missingValue t.value "parameterRangeValue"

/-- What lowering gives: a range or an error, or nothing if it never ends. -/
abbrev Lowered (α : Type) := ExceptT Range.Error Option α

/-- The wrapped range, lowered by `next`. -/
def lowerValue (g : Graph) (next : NodeId → Lowered Range) (id : NodeId) (t : Term) :
    Lowered Range :=
  match g.property? id Components.parameterRangeValue with
  | none => throw (missingValue t)
  | some value => next value

/-- The members, lowered by `next` in order, up to the first error. -/
def lowerElements (g : Graph) (next : NodeId → Lowered Range) (id : NodeId) :
    Lowered (List Range) :=
  (g.rangeElements id).mapM next

/-- The term that a literal range wraps. -/
def lowerLiteral (g : Graph) (id : NodeId) (t : Term) : Lowered Range :=
  match g.propertyTerm? id Components.parameterRangeValue with
  | none => throw (missingValue t)
  | some value => pure (.literal value)

/-- Lowers a resource along paths of at most `limit` resources. -/
def lowerWithin (g : Graph) : (limit : Nat) → NodeId → Lowered Range
  | 0, _ => none
  | limit + 1, id =>
    match g.term? id with
    | none => throw (.unknownRange id)
    | some t =>
      match Shape.ofTypes (g.types id) with
      | none => pure (.type t.value)
      | some .undefined => pure .undefined
      | some .array => array <$> lowerValue g (lowerWithin g limit) id t
      | some .rest => rest <$> lowerValue g (lowerWithin g limit) id t
      | some .union => union <$> lowerElements g (lowerWithin g limit) id
      | some .intersection => intersection <$> lowerElements g (lowerWithin g limit) id
      | some .tuple => tuple <$> lowerElements g (lowerWithin g limit) id
      | some .literal => lowerLiteral g id t
      | some .collectEntries => pure .collectEntries

/-- The range that a resource describes. -/
def lower (g : Graph) (id : NodeId) : Lowered Range := lowerWithin g (g.size + 1) id

end Range

/-- The parameter that a resource describes. -/
def Parameter.ofNode (g : Graph) (id : NodeId) : Range.Lowered Parameter := do
  let name := (g.value? id).getD ""
  match g.property? id Rdfs.range with
  | none => pure ⟨name, .any⟩
  | some range => pure ⟨name, ← Range.lower g range⟩

end Wiring

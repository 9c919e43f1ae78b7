import Wiring.Primitive
import Wiring.Range.Basic
import Wiring.Store

/-!
# Checking values against ranges

`Range.accepts g r value` decides whether a value of the graph `g` is in the range `r`. The decision
reads the graph alone. On the way, each literal that passes a primitive range receives the typed value
of that range in place of an earlier one, whether or not the check as a whole succeeds in the end; so
a check is a step on the `TypedValues`.

Rules, in the order in which they are tried:

- everything is in `any`;
- an absent value, or a node that does not exist, is in `undefined`, in `collectEntries`, in a union of
  which some option takes it and in an intersection of which all options take it;
- for a primitive range, the text of a literal decides; a named node passes for a string;
- a variable is in every range, and a value tagged with a type is in that type;
- the structure of the range decides.

Options and items are tried in order, up to the first that settles the matter. In a tuple, a rest
entry takes items as long as they match and then hands over to the next entry; no item is given back
(`Range.acceptsEntries`).
-/

namespace Wiring

/-- A decision that may leave typed values on literals. -/
abbrev Check := StateM TypedValues Bool

namespace Check

/-- Leaves a typed value on a literal. -/
def leave (id : NodeId) (v : TypedValue) : StateM TypedValues Unit := modify (·.insert id v)

/-- Accepts a literal's text as a primitive accepts it. -/
def literalText (id : NodeId) (p : Primitive) (text : String) : Check :=
  match p.coerce text with
  | none => pure false
  | some none => pure true
  | some (some v) => do leave id v; pure true

/-- Whether all items are accepted, tried in order up to the first that is not. -/
def allOf (accepts : NodeId → Check) : List NodeId → Check
  | [] => pure true
  | item :: items => do if ← accepts item then allOf accepts items else pure false

/-- The items from the first one on that is not accepted. -/
def dropAccepted (accepts : NodeId → Check) : List NodeId → StateM TypedValues (List NodeId)
  | [] => pure []
  | item :: items => do if ← accepts item then dropAccepted accepts items else pure (item :: items)

end Check

namespace Range

/-- A type range: a primitive datatype where there is one for the value, else a type tag. -/
def acceptsType (g : Graph) (iri : String) (id : NodeId) (t : Term) : Check :=
  match Primitive.ofIri? iri, t.kind with
  | some p, .literal => Check.literalText id p t.value
  | some .string, .named => pure true
  | _, _ => pure (g.isVariable id || g.isA id iri)

mutual

/-- Whether a value is in a range. -/
def accepts (g : Graph) : Range → Option NodeId → Check
  | .any, _ => pure true
  | .collectEntries, _ => pure true
  | .undefined, value => pure (value.all fun id => !g.contains id || g.isVariable id)
  | .union options, value =>
    if value.any g.isVariable then pure true else acceptsSome g options value
  | .intersection options, value =>
    if value.any g.isVariable then pure true else acceptsEvery g options value
  | .literal _, none => pure false
  | .literal t, some id => pure (g.isVariable id || g.term? id = some t)
  | .type _, none => pure false
  | .type iri, some id => match g.term? id with
    | none => pure false
    | some t => acceptsType g iri id t
  | .array _, none => pure false
  | .array element, some id =>
    if g.isVariable id then pure true
    else match g.listItems? id with
      | none => pure false
      | some items => Check.allOf (fun item => accepts g element (some item)) items
  | .rest _, value => pure (value.any g.isVariable)
  | .tuple _, none => pure false
  | .tuple entries, some id =>
    if g.isVariable id then pure true
    else match g.listItems? id with
      | none => pure false
      | some items => acceptsEntries g entries items

/-- Whether some option takes the value. Options after the first that does are not tried. -/
def acceptsSome (g : Graph) : List Range → Option NodeId → Check
  | [], _ => pure false
  | r :: rs, value => do if ← accepts g r value then pure true else acceptsSome g rs value

/-- Whether every option takes the value. Options after the first that does not are not tried. -/
def acceptsEvery (g : Graph) : List Range → Option NodeId → Check
  | [], _ => pure true
  | r :: rs, value => do if ← accepts g r value then acceptsEvery g rs value else pure false

/-- Whether the entries of a tuple describe the items. A rest entry takes all items up to the first
that does not match; once the items are used up, only a last entry may be such a one. -/
def acceptsEntries (g : Graph) : List Range → List NodeId → Check
  | [], items => pure items.isEmpty
  | .rest element :: entries, items => do
    let left ← Check.dropAccepted (fun item => accepts g element (some item)) items
    -- With no item left, every entry further on stays unmatched, even one that needs no item.
    if left.isEmpty then pure entries.isEmpty else acceptsEntries g entries left
  | _ :: _, [] => pure false
  | entry :: entries, item :: items => do
    if ← accepts g entry (some item) then acceptsEntries g entries items else pure false

end

end Range

namespace Store

/-- Checks a value and keeps the typed values that the check leaves. -/
def accepts (s : Store) (r : Range) (value : Option NodeId) : Bool × Store :=
  let (verdict, typed) := (r.accepts s.graph value).run s.typed
  (verdict, { s with typed })

@[simp] theorem graph_accepts (s : Store) (r : Range) (value : Option NodeId) :
    (s.accepts r value).2.graph = s.graph := rfl

end Store

end Wiring

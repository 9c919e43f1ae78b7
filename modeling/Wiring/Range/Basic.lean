import Wiring.Term

/-!
# Parameter ranges

A range says what the value of a parameter may be. Ranges are read from the config document once and
never change.

- `Range.display`: the form that messages show. It is not meant to be read back: a literal shows its
  value, and unions show no brackets.
- `Parameter`: a range with the name that messages use. A parameter whose range is `any` is not
  checked.
-/

namespace Wiring

/-- What the value of a parameter may be. -/
inductive Range where
  /-- No constraint. -/
  | any
  /-- Only an absent value. -/
  | undefined
  /-- Exactly this term. -/
  | literal (term : Term)
  /-- A primitive datatype, or a type that the value must be tagged with. -/
  | type (iri : String)
  /-- A list whose items are all in the element range. -/
  | array (element : Range)
  /-- Inside a tuple: any number of items in the element range, one after the other. -/
  | rest (element : Range)
  /-- A list that the entries describe in order. -/
  | tuple (entries : List Range)
  /-- A value that is in some option. -/
  | union (options : List Range)
  /-- A value that is in every option. -/
  | intersection (options : List Range)
  /-- A nested collection of fields, whose entries are not checked. -/
  | collectEntries
deriving Repr, Inhabited

namespace Range

/-- Whether the range is a rest entry of a tuple. -/
def isRest : Range → Bool
  | .rest _ => true
  | _ => false

/-- Whether the range is no constraint. -/
def isAny : Range → Bool
  | .any => true
  | _ => false

mutual

/-- The form of a range in messages. -/
def display : Range → String
  | .any => "any"
  | .undefined => "undefined"
  | .literal t => t.value
  | .type iri => iri
  | .array r => r.display ++ "[]"
  | .rest r => "..." ++ r.display
  | .tuple rs => "[" ++ ", ".intercalate (displayEach rs) ++ "]"
  | .union rs => " | ".intercalate (displayEach rs)
  | .intersection rs => " & ".intercalate (displayEach rs)
  | .collectEntries => "collectEntries"

/-- The forms of the members of a composite range. -/
def displayEach : List Range → List String
  | [] => []
  | r :: rs => r.display :: displayEach rs

end

end Range

/-- One constructor argument, as messages call it and with what it may hold. -/
structure Parameter where
  id : String
  range : Range
deriving Repr

/-- Whether values of the parameter are checked. -/
def Parameter.isChecked (p : Parameter) : Bool := !p.range.isAny

end Wiring

import Wiring.Decimal.Leading
import Wiring.TypedValue
import Wiring.Vocabulary

/-!
# Primitive datatypes

A literal's text is checked against a primitive datatype, not against the datatype that the literal
was created with. The check is `Primitive.coerce`: it refuses the text, or accepts it, with or without
a typed value.

- strings accept every text and give no value;
- booleans are the words `true` and `false`;
- integers are canonical decimals of 64 bits;
- floats are the number that the text starts with;
- JSON is one JSON text.
-/

namespace Wiring

/-- The families of primitive datatypes. -/
inductive Primitive where
  | string
  | boolean
  | integer
  | float
  | json
deriving DecidableEq, Repr

namespace Primitive

/-- All primitives. -/
def all : List Primitive := [.string, .boolean, .integer, .float, .json]

/-- The datatypes that a primitive stands for. -/
def iris : Primitive → List String
  | .string => [Xsd.string]
  | .boolean => [Xsd.boolean]
  | .integer => [Xsd.integer, Xsd.number, Xsd.int, Xsd.byte, Xsd.long]
  | .float => [Xsd.float, Xsd.decimal, Xsd.double]
  | .json => [Rdf.json]

/-- The primitive that a datatype belongs to, if it is a primitive one. -/
def ofIri? (iri : String) : Option Primitive := all.find? fun p => iri ∈ p.iris

/-- The verdict on a text: `none` refuses it, `some none` accepts it without a typed value, and
`some (some v)` accepts it as `v`. -/
def coerce (p : Primitive) (text : String) : Option (Option TypedValue) :=
  match p with
  | .string => some none
  | .boolean =>
    if text = "true" then some (some (.boolean true))
    else if text = "false" then some (some (.boolean false))
    else none
  | .integer => (Decimal.canonicalInt64? text).map fun n => some (.integer n)
  | .float => (Decimal.leadingDouble? text.toList).map fun x => some (.float x)
  | .json => (Json.readValue? text).map fun j => some (.json j)

@[simp] theorem coerce_string (text : String) : Primitive.string.coerce text = some none := rfl

/-- Only strings are accepted without a typed value. -/
theorem eq_string_of_coerce_eq {p : Primitive} {text : String} (h : p.coerce text = some none) :
    p = .string := by
  cases p with
  | string => rfl
  | boolean =>
    simp only [coerce] at h
    split at h
    · cases h
    · split at h <;> cases h
  | integer => simp [coerce] at h
  | float => simp [coerce] at h
  | json => simp [coerce] at h

end Primitive

end Wiring

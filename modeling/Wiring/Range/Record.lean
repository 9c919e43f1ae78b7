import Wiring.Range.Basic

/-!
# Ranges as JSON

Ranges without content are written as their name, all others as an object with one field. The reader
also takes an object with a null field for a name, and any record of a term or a parameter: with
unknown fields, which need not be readable, or without keys.

- `Range.toJson`, `Range.text`: the JSON of a range and its compact text.
- `Range.ofJson?`, `Range.read?`: the range that a JSON value, or a text, stands for.
- `Parameter.toJson`, `Parameter.ofJson?`: the same for parameters, whose two fields are required;
  `Parameter.text`, `Parameter.read?` for their texts.
-/

namespace Wiring

namespace Range

mutual

/-- A range as JSON. -/
def toJson : Range → Json
  | .any => .str "any"
  | .undefined => .str "undefined"
  | .literal t => .obj [("literal", t.toJson)]
  | .type iri => .obj [("type", .str iri)]
  | .array r => .obj [("array", r.toJson)]
  | .rest r => .obj [("rest", r.toJson)]
  | .tuple rs => .obj [("tuple", .arr (toJsonEach rs))]
  | .union rs => .obj [("union", .arr (toJsonEach rs))]
  | .intersection rs => .obj [("intersection", .arr (toJsonEach rs))]
  | .collectEntries => .str "collectEntries"

/-- The JSON of the members of a composite range. -/
def toJsonEach : List Range → List Json
  | [] => []
  | r :: rs => r.toJson :: toJsonEach rs

end

/-- The range without content that has a given name. -/
def ofName? (name : String) : Option Range :=
  if name = "any" then some .any
  else if name = "undefined" then some .undefined
  else if name = "collectEntries" then some .collectEntries
  else none

mutual

/-- The range that a JSON value stands for. -/
def ofJson? : Json → Option Range
  | .str name => ofName? name
  | .obj [(name, content)] => match name with
    | "literal" => (Term.ofJson? content).map .literal
    | "type" => content.asString?.map .type
    | "array" => (ofJson? content).map .array
    | "rest" => (ofJson? content).map .rest
    | "tuple" => (ofMembers? content).map .tuple
    | "union" => (ofMembers? content).map .union
    | "intersection" => (ofMembers? content).map .intersection
    | _ => match content with
      | .null => ofName? name
      | _ => none
  | _ => none

/-- The members of a composite range, given as an array. -/
def ofMembers? : Json → Option (List Range)
  | .arr items => ofJsonEach? items
  | _ => none

/-- The ranges of a list of JSON values, if all of them are ranges. -/
def ofJsonEach? : List Json → Option (List Range)
  | [] => some []
  | j :: js => do
    let r ← ofJson? j
    let rs ← ofJsonEach? js
    some (r :: rs)

end

mutual

/-- A range is read back from its JSON. -/
@[simp] theorem ofJson?_toJson : ∀ r : Range, ofJson? r.toJson = some r
  | .any => rfl
  | .undefined => rfl
  | .literal t => by simp [toJson, ofJson?]
  | .type _ => rfl
  | .array r => by simp [toJson, ofJson?, ofJson?_toJson r]
  | .rest r => by simp [toJson, ofJson?, ofJson?_toJson r]
  | .tuple rs => by simp [toJson, ofJson?, ofMembers?, ofJsonEach?_toJsonEach rs]
  | .union rs => by simp [toJson, ofJson?, ofMembers?, ofJsonEach?_toJsonEach rs]
  | .intersection rs => by simp [toJson, ofJson?, ofMembers?, ofJsonEach?_toJsonEach rs]
  | .collectEntries => rfl

/-- The members of a composite range are read back from their JSON. -/
@[simp] theorem ofJsonEach?_toJsonEach : ∀ rs : List Range, ofJsonEach? (toJsonEach rs) = some rs
  | [] => rfl
  | r :: rs => by simp [toJsonEach, ofJsonEach?, ofJson?_toJson r, ofJsonEach?_toJsonEach rs]

end

/-- The compact JSON text of a range. -/
def text (r : Range) : String := r.toJson.text

/-- The range that a JSON text stands for. -/
def read? (s : String) : Option Range := (Json.read? s).bind ofJson?

end Range

namespace Parameter

/-- A parameter as a JSON record. -/
def toJson (p : Parameter) : Json := .obj [("id", .str p.id), ("range", p.range.toJson)]

/-- The parameter that a JSON record stands for. Fields that it does not know are ignored. -/
def ofJson? (j : Json) : Option Parameter :=
  match Json.record? ["id", "range"] j with
  | some [some id, some range] => do some ⟨← id.asString?, ← Range.ofJson? range⟩
  | _ => none

/-- A parameter is read back from its JSON. -/
@[simp] theorem ofJson?_toJson (p : Parameter) : ofJson? p.toJson = some p := by
  simp [toJson, ofJson?, Json.record?, Json.field?, Json.valuesOf, Json.asString?]

/-- The compact JSON text of a parameter. -/
def text (p : Parameter) : String := p.toJson.text

/-- The parameter that a JSON text stands for. -/
def read? (s : String) : Option Parameter := (Json.read? s).bind ofJson?

end Parameter

end Wiring

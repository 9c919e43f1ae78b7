import Wiring.Json.Text

/-!
# Terms

A term identifies a resource of a config document: its kind, its value and, for literals, its
datatype. Terms are equal exactly when all three agree.

- `Kind.name` is the kind's name in JSON, `Kind.label` the one that messages show.
- `Term.toJson`, `Term.ofJson?`: a term as a JSON record. The reader ignores fields it does not know
  and takes a null datatype for none.
- `Term.text`, `Term.read?`: the same as compact JSON text.
-/

namespace Wiring

/-- What kind of term a resource is identified by. -/
inductive Kind where
  /-- A global IRI. -/
  | named
  /-- A generated label. -/
  | blank
  /-- A text with a datatype. -/
  | literal
  /-- The label of an ordered sequence. -/
  | list
  /-- A name that the settings of a construction resolve. -/
  | placeholder
deriving DecidableEq, Repr

/-- An enumeration constant: a bare name, or an object whose only field has the name as key and a null
value. -/
def Json.asConstant? : Json → Option String
  | .str s => some s
  | .obj [(key, .null)] => some key
  | _ => none

/-- A tagged value: an object with one field. -/
def Json.asTagged? : Json → Option (String × Json)
  | .obj [field] => some field
  | _ => none

namespace Kind

/-- All kinds. -/
def all : List Kind := [.named, .blank, .literal, .list, .placeholder]

/-- The name in JSON. -/
def name : Kind → String
  | .named => "Named"
  | .blank => "Blank"
  | .literal => "Literal"
  | .list => "List"
  | .placeholder => "Variable"

/-- The name in messages. -/
def label : Kind → String
  | .named => "NamedNode"
  | .blank => "BlankNode"
  | .literal => "Literal"
  | .list => "List"
  | .placeholder => "Variable"

/-- The kind with a given name. -/
def ofName? (s : String) : Option Kind := all.find? (·.name = s)

@[simp] theorem ofName?_name (k : Kind) : ofName? k.name = some k := by
  cases k <;> decide

/-- A kind as JSON. -/
def toJson (k : Kind) : Json := .str k.name

/-- The kind that a JSON constant names. -/
def ofJson? (j : Json) : Option Kind := j.asConstant?.bind ofName?

@[simp] theorem ofJson?_toJson (k : Kind) : ofJson? k.toJson = some k := ofName?_name k

end Kind

/-- What identifies a resource. -/
structure Term where
  kind : Kind
  /-- The IRI, the label, the name, or the literal's text. -/
  value : String
  /-- Literals have one. -/
  datatype : Option String
deriving DecidableEq, Repr

namespace Term

/-- A literal with its datatype. -/
def literal (text datatype : String) : Term := ⟨.literal, text, some datatype⟩

/-- Whether the term is a literal. -/
def isLiteral (t : Term) : Bool := t.kind = .literal

@[simp] theorem isLiteral_literal (text datatype : String) :
    (literal text datatype).isLiteral = true := rfl

/-- A term as a JSON record, without the datatype if there is none. -/
def toJson (t : Term) : Json :=
  .obj ([("kind", t.kind.toJson), ("value", .str t.value)] ++
    t.datatype.toList.map fun d => ("datatype", .str d))

/-- An optional string: absent, null, or a string. -/
def optionalString? : Option Json → Option (Option String)
  | none => some none
  | some .null => some none
  | some (.str s) => some (some s)
  | _ => none

/-- The term that a JSON record stands for. -/
def ofJson? (j : Json) : Option Term :=
  match Json.record? ["kind", "value", "datatype"] j with
  | some [some kind, some value, datatype] => do
    some ⟨← Kind.ofJson? kind, ← value.asString?, ← optionalString? datatype⟩
  | _ => none

/-- An unknown field is passed over, even when it cannot be read. -/
example : ofJson? (.obj [("kind", .str "Named"), ("note", .unreadable), ("value", .str "v")]) =
    some ⟨.named, "v", none⟩ := rfl

/-- A record without keys may leave out the datatype. -/
example : ofJson? (.arr [.str "Named", .str "v"]) = some ⟨.named, "v", none⟩ := rfl

/-- A term is read back from its JSON. -/
@[simp] theorem ofJson?_toJson (t : Term) : ofJson? t.toJson = some t := by
  obtain ⟨kind, value, datatype⟩ := t
  cases datatype <;>
    simp [toJson, ofJson?, optionalString?, Json.record?, Json.field?, Json.valuesOf, Json.asString?]

/-- The compact JSON text of a term. -/
def text (t : Term) : String := t.toJson.text

/-- The term that a JSON text stands for. -/
def read? (s : String) : Option Term := (Json.read? s).bind ofJson?

end Term

end Wiring

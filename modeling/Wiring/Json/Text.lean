import Wiring.Json.Token

/-!
# Compact JSON text

- `Json.tokens`, `Json.text`: the compact text of a value, fields in the order in which the value
  holds them.
- `Json.ofTokens?`: what a list of tokens says. The reader walks the tokens once; a `Pending` value
  says what is due next and which brackets are open. Brackets inside of more than `nestingLimit` others
  are well formed, but cannot be read.
- `Json.read?`: what a text says. `Json.readValue?`: the value of a text, if all of it can be read.
-/

namespace Wiring.Json

/-! ## Writing -/

mutual

/-- The tokens of the compact text. -/
def tokens : Json → List Token
  | .null => [.null]
  | .bool b => [.bool b]
  | .int n => [.int n]
  | .float x => [.float x]
  | .str s => [.str s]
  | .unreadable => [.brokenStr]
  | .arr items => .openArray :: (itemTokens items ++ [.closeArray])
  | .obj fields => .openObject :: (fieldTokens fields ++ [.closeObject])

/-- The items, with commas between them. -/
def itemTokens : List Json → List Token
  | [] => []
  | [j] => j.tokens
  | j :: rest => j.tokens ++ .comma :: itemTokens rest

/-- The fields, with commas between them. -/
def fieldTokens : List (String × Json) → List Token
  | [] => []
  | [(key, value)] => .str key :: .colon :: value.tokens
  | (key, value) :: rest => .str key :: .colon :: (value.tokens ++ .comma :: fieldTokens rest)

end

/-- The compact text of a value. -/
def text (j : Json) : String := String.ofList (j.tokens.flatMap Token.text)

/-! ## Reading -/

/-- How many brackets may be open at once around what is read. -/
def nestingLimit : Nat := 127

/-- An open bracket with what has been read inside it, latest first. A key may be one that cannot be
read. -/
inductive Frame where
  | items (read : List Json)
  | field (read : List (Option String × Json)) (key : Option String)

/-- What the reader waits for, given the open brackets, innermost first. -/
inductive Pending where
  /-- A value. -/
  | value (opened : List Frame)
  /-- The first item of an array, or its end. -/
  | firstItem (opened : List Frame)
  /-- The first key of an object, or its end. -/
  | firstKey (opened : List Frame)
  /-- A further key of an object. -/
  | key (read : List (Option String × Json)) (opened : List Frame)
  /-- The colon after a key. -/
  | colon (read : List (Option String × Json)) (key : Option String) (opened : List Frame)
  /-- A separator or a closing bracket after a value; the end of the text when no bracket is open. -/
  | after (j : Json) (opened : List Frame)

/-- Whether another bracket inside the open ones can be read. -/
def hasRoom (opened : List Frame) : Bool := (opened.drop (nestingLimit - 1)).isEmpty

@[simp] theorem hasRoom_iff (opened : List Frame) :
    hasRoom opened = true ↔ opened.length < nestingLimit := by
  rw [hasRoom, List.isEmpty_iff, List.drop_eq_nil_iff, nestingLimit]
  omega

/-- The object with the given fields; it cannot be read when one of its keys cannot. -/
def ofKeys (fields : List (Option String × Json)) : Json :=
  match fields.mapM fun (key, value) => key.map (·, value) with
  | some fields => .obj fields
  | none => .unreadable

/-- The end of a bracket that was opened inside of others. -/
def Pending.close (j : Json) (opened : List Frame) : Pending :=
  .after (if hasRoom opened then j else .unreadable) opened

/-- A token where a value is due. -/
def Pending.begin (opened : List Frame) : Token → Option Pending
  | .null => some (.after .null opened)
  | .bool b => some (.after (.bool b) opened)
  | .int n => some (.after (.int n) opened)
  | .float x => some (.after (if x.isFinite then .float x else .unreadable) opened)
  | .str s => some (.after (.str s) opened)
  | .brokenStr => some (.after .unreadable opened)
  | .openArray => some (.firstItem opened)
  | .openObject => some (.firstKey opened)
  | _ => none

/-- A token where a key is due. -/
def Pending.beginField (read : List (Option String × Json)) (opened : List Frame) :
    Token → Option Pending
  | .str k => some (.colon read (some k) opened)
  | .brokenStr => some (.colon read none opened)
  | _ => none

/-- One token. -/
def Pending.step : Pending → Token → Option Pending
  | .value opened, t => Pending.begin opened t
  | .firstItem opened, .closeArray => some (.close (.arr []) opened)
  | .firstItem opened, t => Pending.begin (.items [] :: opened) t
  | .firstKey opened, .closeObject => some (.close (.obj []) opened)
  | .firstKey opened, t => Pending.beginField [] opened t
  | .key read opened, t => Pending.beginField read opened t
  | .colon read k opened, .colon => some (.value (.field read k :: opened))
  | .after j (.items read :: opened), .comma => some (.value (.items (j :: read) :: opened))
  | .after j (.items read :: opened), .closeArray =>
    some (.close (.arr (j :: read).reverse) opened)
  | .after j (.field read k :: opened), .comma => some (.key ((k, j) :: read) opened)
  | .after j (.field read k :: opened), .closeObject =>
    some (.close (ofKeys ((k, j) :: read).reverse) opened)
  | _, _ => none

/-- What a finished text says. -/
def Pending.finish : Pending → Option Json
  | .after j [] => some j
  | _ => none

/-- Reads the rest of the tokens. -/
def Pending.run (p : Pending) : List Token → Option Json
  | [] => p.finish
  | t :: ts => do
    let p ← p.step t
    p.run ts

/-- What a list of tokens says. -/
def ofTokens? (ts : List Token) : Option Json := (Pending.value []).run ts

/-- What a text says, fields as written. -/
def read? (s : String) : Option Json := (Token.scan s.toList).bind ofTokens?

/-- The value of a text, if all of it can be read. -/
def readValue? (s : String) : Option Json := (read? s).bind value?

/-- A number beyond the largest double is well formed, but has no value. -/
example : (read? "[1e400]").isSome = true ∧ (readValue? "[1e400]").isSome = false := by
  decide +kernel

/-- So is a surrogate without its partner; two that belong together are one character. -/
example : ((read? "[\"\\ud83d\"]").map text, (readValue? "[\"\\ud83d\\ude00\"]").map text) =
    (some "[\"\\ud800\"]", some "[\"😀\"]") := by
  decide +kernel

end Wiring.Json

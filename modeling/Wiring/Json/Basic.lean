import Wiring.Binary64.Basic

/-!
# JSON values

A `Json` keeps what a text says: integers and doubles apart, and the fields of an object as they are
written, in order and with repetitions. A text can be well formed and still say something that is no
value, such as a number beyond the largest double; `Json.unreadable` stands in for it, since a record
may hold one in a field that its reader does not know. Two views forget some of what a text says.

- `Json.value?`: the value of a text, if all of it can be read. Of repeated keys the last one counts,
  and the fields of each object ascend by key, in the order of code points (`Json.normal`).
- `Json.record?`: the fields of a record, where a known key may be written at most once and an
  unknown key is passed over with whatever it holds.
-/

namespace Wiring

/-- A JSON value as a text writes it. -/
inductive Json where
  | null
  | bool (b : Bool)
  | int (n : Int)
  | float (x : Binary64)
  | str (s : String)
  | arr (items : List Json)
  | obj (fields : List (String × Json))
  /-- Well formed, but no value: a number beyond the largest double, a string with an unpaired
  surrogate, an object with such a key, or what is inside of too many brackets. -/
  | unreadable
deriving Repr, Inhabited

namespace Json

/-! ## The value of a text -/

/-- Adds a field to an object with ascending keys, unless the key is there already. -/
def addField (key : String) (value : Json) : List (String × Json) → List (String × Json)
  | [] => [(key, value)]
  | (k, v) :: rest =>
    if key < k then (key, value) :: (k, v) :: rest
    else if key = k then (k, v) :: rest
    else (k, v) :: addField key value rest

mutual

/-- The same value with each object's fields in ascending order, the last of repeated keys kept. -/
def normal : Json → Json
  | .arr items => .arr (normalItems items)
  | .obj fields => .obj (normalFields fields)
  | j => j

/-- The normal forms of the items. -/
def normalItems : List Json → List Json
  | [] => []
  | j :: rest => j.normal :: normalItems rest

/-- The fields of the rest come first, so that an earlier field of the same key is left out. -/
def normalFields : List (String × Json) → List (String × Json)
  | [] => []
  | (key, value) :: rest => addField key value.normal (normalFields rest)

end

mutual

/-- Whether all of a text can be read. -/
def isReadable : Json → Bool
  | .arr items => itemsReadable items
  | .obj fields => fieldsReadable fields
  | .unreadable => false
  | _ => true

/-- Whether all items can be read. -/
def itemsReadable : List Json → Bool
  | [] => true
  | j :: rest => j.isReadable && itemsReadable rest

/-- Whether the values of all fields can be read, those of repeated keys included. -/
def fieldsReadable : List (String × Json) → Bool
  | [] => true
  | (_, value) :: rest => value.isReadable && fieldsReadable rest

end

/-- The value of a text, if all of it can be read. -/
def value? (j : Json) : Option Json := if j.isReadable then some j.normal else none

mutual

/-- How many brackets of the text of a value are open at once, at most. -/
def nesting : Json → Nat
  | .arr items => nestingItems items + 1
  | .obj fields => nestingFields fields + 1
  | _ => 0

/-- The deepest nesting among the items. -/
def nestingItems : List Json → Nat
  | [] => 0
  | j :: rest => max j.nesting (nestingItems rest)

/-- The deepest nesting among the values of the fields. -/
def nestingFields : List (String × Json) → Nat
  | [] => 0
  | (_, value) :: rest => max value.nesting (nestingFields rest)

end

/-- An object with ascending fields, the last of repeated keys kept. -/
def ofFields (fields : List (String × Json)) : Json := .obj (normalFields fields)

/-! ## Records -/

/-- The text of a string. -/
def asString? : Json → Option String
  | .str s => some s
  | _ => none

/-- The truth value of a Boolean. -/
def asBool? : Json → Option Bool
  | .bool b => some b
  | _ => none

/-- An integer between the given bounds, both included. -/
def asInt? (low high : Int) : Json → Option Int
  | .int n => if low ≤ n ∧ n ≤ high then some n else none
  | _ => none

/-- A natural number up to a bound. -/
def asNat? (high : Nat) (j : Json) : Option Nat := (j.asInt? 0 high).map Int.toNat

/-- The items of an array. -/
def asArray? : Json → Option (List Json)
  | .arr items => some items
  | _ => none

/-- The values of a key, in the order in which they are written. -/
def valuesOf (key : String) (fields : List (String × Json)) : List Json :=
  (fields.filter (·.1 = key)).map (·.2)

/-- A field of a record: absent or written once. A repeated key makes the record unreadable. -/
def field? (key : String) (fields : List (String × Json)) : Option (Option Json) :=
  match valuesOf key fields with
  | [] => some none
  | [value] => some (some value)
  | _ => none

/-- The values of the known keys of a record, in order. A record can also be written without keys, as
the array of these values; at the end some may be left out, but none may be added. -/
def record? (keys : List String) : Json → Option (List (Option Json))
  | .obj fields => keys.mapM (field? · fields)
  | .arr items =>
    if items.length ≤ keys.length then
      some (items.map some ++ List.replicate (keys.length - items.length) none)
    else none
  | _ => none

@[simp] theorem field?_nil (key : String) : field? key [] = some none := rfl

/-- What stands in for a value has none. -/
@[simp] theorem value?_unreadable : value? .unreadable = none := rfl

end Json

end Wiring

import Std.Data.ExtTreeMap
import Wiring.Decimal.Canonical
import Wiring.Term

/-!
# Typed values of literals

A literal that passes the check of a primitive range also holds a typed value. Values of different
literals are kept apart from the graph, by node.

- `TypedValue.toJson`: the value as a config's instance sees it. An infinity has no JSON number and
  becomes a string.
- `TypedValue.encode`, `TypedValue.decode?`: the value with its tag.
- `TypedValues.listed`: all values, ascending by node.
-/

namespace Wiring

/-- A node of a graph: its place in the order of creation. -/
abbrev NodeId := Nat

/-- The node that a number refers to. References have 32 bits, so of a larger number only the lower
bits count. -/
def NodeId.ofNumber (n : Nat) : NodeId := n % 0x100000000

/-- A literal's value after it has passed a check. -/
inductive TypedValue where
  | boolean (b : Bool)
  | integer (n : Int)
  | float (x : Binary64)
  | json (j : Json)
deriving Repr

namespace TypedValue

/-- The name of a value's type. -/
def tag : TypedValue → String
  | .boolean _ => "Boolean"
  | .integer _ => "Integer"
  | .float _ => "Float"
  | .json _ => "Json"

/-- The value as an instance shows it. -/
def toJson : TypedValue → Json
  | .boolean b => .bool b
  | .integer n => .int n
  | .float (.infinite false) => .str "inf"
  | .float (.infinite true) => .str "-inf"
  | .float x => .float x
  | .json j => j

/-- The value as a JSON value of its own type. -/
def content : TypedValue → Json
  | .boolean b => .bool b
  | .integer n => .int n
  | .float x => .float x
  | .json j => j

/-- The value with its tag. -/
def encode (v : TypedValue) : Json := .obj [(v.tag, v.content)]

/-- A tagged value. A float may be written as an integer, but not the other way round. -/
def decode? (j : Json) : Option TypedValue :=
  match j.asTagged? with
  | some ("Boolean", .bool b) => some (.boolean b)
  | some ("Integer", .int n) => if Decimal.fitsInt64 n then some (.integer n) else none
  | some ("Float", .int n) => some (.float (Binary64.ofInt n))
  | some ("Float", .float x) => some (.float x)
  | some ("Json", content) => content.value?.map .json
  | _ => none

end TypedValue

/-- The typed values that literals hold, by node. -/
abbrev TypedValues := Std.ExtTreeMap NodeId TypedValue

/-- All typed values, ascending by node. -/
def TypedValues.listed (values : TypedValues) : List (NodeId × TypedValue) := values.toList

end Wiring

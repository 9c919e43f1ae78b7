import Wiring.Factory.Counting
import Wiring.Factory.Describe
import Wiring.Factory.Settings

/-!
# Strategies

A strategy says what instances are: descriptions of components (`Describe`) or numbered instances
(`Counting`). It also says what stands in an instance where a config refers back to itself, and what a
variable stands for.
-/

namespace Wiring

/-- What a pool builds. -/
inductive Strategy where
  /-- Descriptions of components. -/
  | describe
  /-- Numbered instances; their builds may suspend themselves once. -/
  | counting (suspends : Bool)
deriving DecidableEq, Repr

namespace Strategy

/-- What stands where a config refers back to itself. -/
def undefined : Strategy → Json
  | .describe => .null
  | .counting _ => .str "undefined"

/-- The instance of a variable with a given value. -/
def ofVariable : Strategy → Json → Json
  | .describe, value => value
  | .counting _, value => .obj [("var", value)]

/-- What a variable stands for. -/
def variableValue (s : Strategy) (settings : Settings) (name : String) :
    Except BuildError Json :=
  match settings.value? name with
  | some value => .ok (s.ofVariable value)
  | none => .error (.undefinedVariable name)

/-- The build of a raw config. -/
def build : Strategy → NodeId → Build Json
  | .describe, raw => Describe.build raw
  | .counting suspends, raw => Counting.build suspends raw

end Strategy

end Wiring

import Wiring.TypedValue

/-!
# Why a range is refused

A value can be outside its parameter's range, and a resource can fail to describe a range. The wording
is `Range.Error.message`.
-/

namespace Wiring

/-- The cause of a refusal. -/
inductive Range.Error where
  /-- A value is outside the range of its parameter. -/
  | violation (value : String) (types : List String) (parameter : String) (expected : String)
  /-- A composite range resource lacks the value that it wraps. -/
  | missingValue (range : String) (property : String)
  /-- There is no resource to read a range from. -/
  | unknownRange (id : NodeId)
deriving DecidableEq, Repr

/-- A node as messages show it. -/
def showNode (id : NodeId) : String := s!"NodeIndex({id})"

namespace Range.Error

/-- The declared types of a value, if it has any. -/
def showTypes (types : List String) : String :=
  if types.isEmpty then "" else " with types \"" ++ ",".intercalate types ++ "\""

/-- The wording of an error. -/
def message : Range.Error → String
  | .violation value types parameter expected =>
    "The value \"" ++ value ++ "\"" ++ showTypes types ++ " for parameter \"" ++ parameter ++
      "\" is not of required range type \"" ++ expected ++ "\""
  | .missingValue range property => "Invalid range \"" ++ range ++ "\": missing " ++ property
  | .unknownRange id => "Unknown range resource " ++ showNode id

end Range.Error

end Wiring

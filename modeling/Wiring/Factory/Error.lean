import Wiring.Range.Error

/-!
# Why a construction fails

One construction can have many waiters, and each of them gets the same error. The wording is
`BuildError.message`; `BuildError.config?` names the config that an error belongs to.
-/

namespace Wiring

/-- The cause of a failed construction. -/
inductive BuildError where
  /-- A required field of a raw config is absent. -/
  | missingField (field : String) (config : String)
  /-- A field of a raw config has a value of the wrong kind. -/
  | wrongFieldType (field : String) (value : String) (expected actual : Kind) (config : String)
  /-- A range could not be lowered, or a value is outside of it. -/
  | range (e : Range.Error)
  /-- The settings have no value for a variable. -/
  | undefinedVariable (name : String)
  /-- There is no such node. -/
  | unknownNode (id : NodeId)
  /-- The strategy or a preprocessor failed for reasons of its own. -/
  | strategy (config : String) (message : String)
deriving DecidableEq, Repr

namespace BuildError

/-- The wording of an error. -/
def message : BuildError → String
  | .missingField field _ => "Invalid config: Missing " ++ field
  | .wrongFieldType field value expected actual _ =>
    "Invalid config: " ++ field ++ " \"" ++ value ++ "\" must be a " ++ expected.label ++
      ", but got " ++ actual.label
  | .range e => e.message
  | .undefinedVariable name => "Undefined variable: " ++ name
  | .unknownNode id => "Unknown config node " ++ showNode id
  | .strategy config message => "Failed to construct \"" ++ config ++ "\": " ++ message

/-- The config that the error belongs to. -/
def config? : BuildError → Option String
  | .missingField _ config => some config
  | .wrongFieldType _ _ _ _ config => some config
  | .strategy config _ => some config
  | _ => none

end BuildError

end Wiring

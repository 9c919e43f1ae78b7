import Std.Data.ExtTreeMap
import Std.Data.ExtTreeSet
import Wiring.Json.Basic

/-!
# Construction settings

Settings travel down the path of nested constructions. Descending into a config extends a copy, so the
keys in progress are those of the path alone and never those of a construction that runs beside it.

Names and keys are listed in the order of code points.
-/

namespace Wiring

/-- What a request hands down to the requests that it leads to. -/
structure Settings where
  /-- The keys of the configs under construction on the path. -/
  inProgress : Std.ExtTreeSet String := ∅
  /-- What variables stand for, by name. -/
  values : Std.ExtTreeMap String Json := ∅
  /-- Options of the caller, passed through. -/
  options : Std.ExtTreeMap String Json := ∅

namespace Settings

/-- Gives a variable a value, in place of an earlier one. -/
def withVariable (s : Settings) (name : String) (value : Json) : Settings :=
  { s with values := s.values.insert name value }

/-- Gives an option a value, in place of an earlier one. -/
def withOption (s : Settings) (key : String) (value : Json) : Settings :=
  { s with options := s.options.insert key value }

/-- The settings for what a config under construction asks for. -/
def descend (s : Settings) (key : String) : Settings :=
  { s with inProgress := s.inProgress.insert key }

/-- Whether the config with a key is under construction on the path. -/
def isInProgress (s : Settings) (key : String) : Bool := s.inProgress.contains key

/-- The value of a variable. -/
def value? (s : Settings) (name : String) : Option Json := s.values[name]?

@[simp] theorem isInProgress_new (key : String) : Settings.isInProgress {} key = false := by
  simp [isInProgress]

/-- Descending adds one key to those in progress. -/
theorem isInProgress_descend (s : Settings) (key other : String) :
    (s.descend key).isInProgress other = true ↔ key = other ∨ s.isInProgress other = true := by
  simp [descend, isInProgress, Std.ExtTreeSet.contains_insert]

@[simp] theorem value?_descend (s : Settings) (key name : String) :
    (s.descend key).value? name = s.value? name := rfl

/-- The last value given to a name counts. -/
theorem value?_withVariable (s : Settings) (name other : String) (value : Json) :
    (s.withVariable name value).value? other =
      if name = other then some value else s.value? other := by
  simp [withVariable, value?, Std.ExtTreeMap.getElem?_insert]

end Settings

end Wiring

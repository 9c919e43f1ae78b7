import Wiring.Range.Check
import Wiring.Range.Error

/-!
# Binding values to parameters

`Parameter.capture` checks a value against the range of a parameter and words the violation if the
value is outside. Typed values that the check leaves stay in either case.
-/

namespace Wiring

namespace Graph

/-- A value as messages show it: a list by its items' values, any other node by its own, and an absent
value as `undefined`. -/
def showValue (g : Graph) : Option NodeId → String
  | none => "undefined"
  | some id => match g.listItems? id with
    | some items => "[" ++ ", ".intercalate (items.filterMap g.value?) ++ "]"
    | none => (g.value? id).getD "undefined"

end Graph

namespace Parameter

/-- The error for a value outside the range. -/
def violation (p : Parameter) (g : Graph) (value : Option NodeId) : Range.Error :=
  .violation (g.showValue value) (value.elim [] g.types) p.id p.range.display

/-- Checks a value against the parameter's range. -/
def capture (p : Parameter) (s : Store) (value : Option NodeId) : Except Range.Error Unit × Store :=
  let (verdict, s) := s.accepts p.range value
  (if verdict then .ok () else .error (p.violation s.graph value), s)

@[simp] theorem graph_capture (p : Parameter) (s : Store) (value : Option NodeId) :
    (p.capture s value).2.graph = s.graph := rfl

end Parameter

end Wiring

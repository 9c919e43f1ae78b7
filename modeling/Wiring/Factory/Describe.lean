import Wiring.Factory.Build

/-!
# Describing components

The instance of a config is a JSON description: the name of the component, its element if it has one,
whether it is used without constructing it, and its arguments.

- An argument that is bound to a parameter stands for the value that it binds. The value is checked
  first, so that literals come out as their typed values.
- A list stands for the array of its items, a variable or a component for its own instance, and any
  other node for its value.
-/

namespace Wiring.Describe

/-- Whether a node is described as a component of its own: it has a component name or a type. -/
def isComponent (g : Graph) (id : NodeId) : Bool :=
  (g.property? id Components.requireName).isSome || !(g.types id).isEmpty

/-- The arguments of a config: the items of a single list, or all values in order. -/
def arguments (g : Graph) (config : NodeId) : List NodeId :=
  match g.properties config Components.arguments with
  | [single] => (g.listItems? single).getD [single]
  | values => values

/-- What a value stands for, through at most so many nested lists. -/
def resolveWithin : (limit : Nat) → Option NodeId → Build Json
  | _, none => pure .null
  | 0, some _ => .endless
  | limit + 1, some id => do
    let store := (← Build.workbench).store
    match store.graph.term? id with
    | none => .fail (.unknownNode id)
    | some t => match t.kind with
      | .literal => pure (store.literalValue id t)
      | .list =>
        let items := (store.graph.listItems? id).getD []
        .arr <$> Build.each (fun item => resolveWithin limit (some item)) items
      | _ =>
        if store.graph.isVariable id || isComponent store.graph id then Build.ask id
        else pure (.str t.value)

/-- What a value stands for. Lists nested deeper than the graph is large contain themselves, and
resolving them never ends. -/
def resolve (value : Option NodeId) : Build Json := do
  resolveWithin ((← Build.graph).size + 1) value

/-- What an argument stands for: itself, or the value that it binds to a parameter. -/
def resolveArgument (argument : NodeId) : Build Json := do
  let g ← Build.graph
  match g.property? argument Components.parameter with
  | none => resolve (some argument)
  | some parameter =>
    let p ← Build.ofLowered (Parameter.ofNode g parameter)
    let value := g.property? argument Components.value
    if p.isChecked then Build.capture p value
    resolve value

/-- The description of a component. -/
def build (raw : NodeId) : Build Json := do
  let g ← Build.graph
  match g.value? raw with
  | none => .fail (.unknownNode raw)
  | some key => match g.propertyValue? raw Components.requireName with
    | none => .fail (.missingField "requireName" key)
    | some component =>
      let args ← Build.each resolveArgument (arguments g raw)
      -- The arguments may have grown the graph.
      let g ← Build.graph
      let element := (g.propertyValue? raw Components.requireElement).toList.map fun text =>
        ("@element", Json.str text)
      let isStatic := g.propertyValue? raw Components.requireNoConstructor = some "true"
      pure (.obj ([("@args", .arr args), ("@component", .str component)] ++ element ++
        if isStatic then [("@static", .bool true)] else []))

end Wiring.Describe

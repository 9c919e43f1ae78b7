import Wiring.Factory.Error
import Wiring.Graph.Update

/-!
# Raw configs

A raw config is in the shape that strategies build from: it has a component name, and its other shape
fields hold literals. Preprocessors turn configs of other dialects into raw configs; a config that none
of them handles is taken as it is. Either way the result is validated.

- `Preprocessor.handle?`: what a preprocessor recognises in a config.
- `Preprocessor.transform`: what it makes of the config, with the grown graph.
- `Graph.validateField`, `Graph.validate`: the checks of one field and of all shape fields.
- `rawConfig`: the first preprocessor that handles a config, or none, and then the validation.
-/

namespace Wiring

/-- The part of an IRI after its last `#` or `/`. -/
def localName (iri : String) : String :=
  String.ofList (iri.toList.reverse.takeWhile fun c => c ≠ '#' ∧ c ≠ '/').reverse

namespace Graph

/-- Checks that a field is there, unless it is optional, and that its first value has the expected
kind. -/
def validateField (g : Graph) (config : NodeId) (field : String) (expected : Kind)
    (optional : Bool) : Except BuildError Unit :=
  match g.value? config with
  | none => .error (.unknownNode config)
  | some key => match g.propertyTerm? config field with
    | none => if optional then .ok () else .error (.missingField (localName field) key)
    | some found =>
      if found.kind = expected then .ok ()
      else .error (.wrongFieldType (localName field) found.value expected found.kind key)

/-- Checks the shape fields of a raw config. -/
def validate (g : Graph) (config : NodeId) : Except BuildError Unit := do
  g.validateField config Components.requireName .literal false
  g.validateField config Components.requireElement .literal true
  g.validateField config Components.requireNoConstructor .literal true

/-- Adds a link whose ends are known to exist. -/
def link (g : Graph) (source : NodeId) (label : Label) (target : NodeId) : Graph :=
  (g.link? source label target).getD g

/-- Gives a node all values of a predicate that another node has. -/
def copyProperties (g : Graph) (source : NodeId) (predicate : String) (receiver : NodeId) : Graph :=
  (g.properties source predicate).foldl
    (fun g value => g.link receiver (.property predicate) value) g

end Graph

/-! ## Preprocessors -/

/-- What a preprocessor does to the configs that it handles. -/
inductive Mode where
  /-- A new raw config, named by the handle. -/
  | expand
  /-- A new raw config without a name. -/
  | unnamed
  /-- An error, worded by the handle. -/
  | refuse
  /-- Another node, or the config itself. -/
  | redirect (target : Option NodeId)
deriving DecidableEq, Repr

/-- A preprocessor for the configs of one type that have one property. -/
structure Preprocessor where
  type : String
  predicate : String
  mode : Mode
deriving DecidableEq, Repr

namespace Preprocessor

/-- The predicates that an expanded config shares with its raw config. -/
def shared : List String := [Dependency.dep, Dependency.flaky, Components.arguments]

/-- The handle of a config that the preprocessor handles: the text of its property. -/
def handle? (p : Preprocessor) (g : Graph) (config : NodeId) : Option String :=
  if g.isA config p.type then g.propertyValue? config p.predicate else none

/-- A new raw config with the shared properties of a config, and with a name if one is given. -/
def expand (g : Graph) (config : NodeId) (name : Option String) : NodeId × Graph :=
  let (raw, g) := g.pushBlank
  let g := match name with
    | none => g
    | some name =>
      let (text, g) := g.pushLiteral name
      g.link raw (.property Components.requireName) text
  (raw, shared.foldl (fun g predicate => g.copyProperties config predicate raw) g)

/-- What the preprocessor makes of a config with a handle. -/
def transform (p : Preprocessor) (g : Graph) (config : NodeId) (handle : String) :
    Except BuildError NodeId × Graph :=
  match p.mode with
  | .expand => let (raw, g) := expand g config (some handle); (.ok raw, g)
  | .unnamed => let (raw, g) := expand g config none; (.ok raw, g)
  | .refuse => (.error (.strategy ((g.value? config).getD "") handle), g)
  | .redirect target => (.ok (target.getD config), g)

end Preprocessor

/-- The first preprocessor that handles a config, with its handle. -/
def firstHandler (ps : List Preprocessor) (g : Graph) (config : NodeId) :
    Option (Preprocessor × String) :=
  ps.findSome? fun p => (p.handle? g config).map (p, ·)

/-- The raw form of a config, validated, and the grown graph. -/
def rawConfig (ps : List Preprocessor) (g : Graph) (config : NodeId) :
    Except BuildError NodeId × Graph :=
  let (raw, g) := match firstHandler ps g config with
    | some (p, handle) => p.transform g config handle
    | none => (.ok config, g)
  (do
    let raw ← raw
    g.validate raw
    pure raw, g)

end Wiring

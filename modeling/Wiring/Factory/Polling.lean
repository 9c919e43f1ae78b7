import Wiring.Factory.RawConfig
import Wiring.Factory.Registry
import Wiring.Factory.Strategy

/-!
# Polling constructions

A factory turns configs into instances and has at most one construction per key under way. It works
on a `Floor`: the registry of its constructions and the workbench that builds share. A step of the
work is a `Job`; where the work never ends there is no result.

A request for a config (`Factory.enter`) is answered at once when the node is missing, when its key
is in progress on the path of the request, or when it is a variable. Otherwise it waits for the
current construction of the key, and starts one if there is none.

Waiting means polling. Whoever waits for a construction polls it in place:

- `Factory.await` polls a construction for a waiter and hands over its result;
- `Factory.drive` carries a build on until it ends, suspends, or waits for a construction that is
  pending;
- `Factory.pollWithin` polls a construction through at most so many nested constructions. Polling one
  that is already being polled further out finds it pending, so a chain of polls never meets the same
  construction twice, and the constructions on it have different keys;
- `Factory.poll` polls through chains of any length: there are no more keys than nodes.
-/

namespace Wiring

/-- What a factory works on. -/
structure Floor where
  bench : Workbench := {}
  registry : Registry := {}

namespace Floor

/-- The graph as it is now. -/
def graph (f : Floor) : Graph := f.bench.store.graph

/-- Puts a grown graph in the place of the graph. -/
def setGraph (f : Floor) (graph : Graph) : Floor :=
  { f with bench := { f.bench with store := { f.bench.store with graph } } }

/-- Opens a construction. -/
def start (f : Floor) (config : NodeId) (key : String) (settings : Settings) : Nat × Floor :=
  let (n, registry) := f.registry.start config key settings
  (n, { f with registry })

/-- Moves a construction to a stage. -/
def setStage (f : Floor) (n : Nat) (stage : Stage) : Floor :=
  { f with registry := f.registry.setStage n stage }

/-- Records the raw config that a construction builds. -/
def setRaw (f : Floor) (n : Nat) (raw : NodeId) : Floor :=
  { f with registry := f.registry.setRaw n raw }

/-- Ends a construction. -/
def finish (f : Floor) (n : Nat) (result : Except BuildError Json) : Floor :=
  { f with registry := f.registry.finish n result }

/-- Hands the result of a construction to one who waits for it. -/
def receive (f : Floor) (waiter : Option Nat) (n : Nat) (result : Except BuildError Json) :
    Floor :=
  { f with registry := f.registry.record (.received waiter n result) }

end Floor

/-- A step of a factory's work; `none` if it never ends. -/
abbrev Job (α : Type) := StateT Floor Option α

/-- What polling a construction gives. -/
inductive Progress where
  | ready (result : Except BuildError Json)
  /-- Not finished. Tells whether the poll has moved anything on. -/
  | pending (moved : Bool)

/-- How a request is met. -/
inductive Entry where
  | answered (result : Except BuildError Json)
  /-- The request waits for a construction, by number. -/
  | waiting (n : Nat)

/-- How a pool is made: what it builds, and the dialects that it knows. -/
structure Factory where
  strategy : Strategy
  preprocessors : List Preprocessor := []
deriving DecidableEq, Repr

namespace Factory

/-! ## Requests -/

/-- How a request for a config is met under the given settings. -/
def enter (o : Factory) (config : NodeId) (settings : Settings) (floor : Floor) : Entry × Floor :=
  let g := floor.graph
  match g.value? config with
  | none => (.answered (.error (.unknownNode config)), floor)
  | some key =>
    -- A config that leads back to itself is cut off before anything else is looked at.
    if settings.isInProgress key then (.answered (.ok o.strategy.undefined), floor)
    else if g.isVariable config then (.answered (o.strategy.variableValue settings key), floor)
    else match floor.registry.current? key with
      | some n => (.waiting n, floor)
      | none =>
        let (n, floor) := floor.start config key (settings.descend key)
        (.waiting n, floor)

/-! ## Constructions -/

/-- Ends a construction with a result. -/
def finish (n : Nat) (result : Except BuildError Json) : Job Progress := do
  modify (·.finish n result)
  pure (.ready result)

/-- The raw form of a config. Preprocessors may grow the graph. -/
def prepare (o : Factory) (config : NodeId) : Job (Except BuildError NodeId) := do
  let (raw, graph) := rawConfig o.preprocessors (← get).graph config
  modify (·.setGraph graph)
  pure raw

/-- Polls a construction for one who waits for it, and hands over the result if there is one. -/
def await (poll : Nat → Job Progress) (waiter : Option Nat) (n : Nat) : Job Progress := do
  match ← poll n with
  | .ready result => do
    modify (·.receive waiter n result)
    pure (.ready result)
  | .pending moved => pure (.pending moved)

/-- Carries on the build of construction `n`, which asks for other configs under `settings` and waits
for their constructions by `poll`. -/
def drive (o : Factory) (poll : Nat → Job Progress) (n : Nat) (settings : Settings) :
    Build Json → Job Progress
  | .done v => finish n (.ok v)
  | .fail e => finish n (.error e)
  | .endless => failure
  | .suspend next => do
    modify (·.setStage n (.suspended next))
    pure (.pending true)
  | .read next => do drive o poll n settings (next (← get).bench)
  | .write bench next => do
    modify fun floor => { floor with bench }
    drive o poll n settings next
  | .request config next => do
    match ← modifyGet (o.enter config settings) with
    | .answered (.ok v) => drive o poll n settings (next v)
    | .answered (.error e) => finish n (.error e)
    -- The first poll follows at once, so a construction that never suspends is built in place.
    | .waiting other => match ← await poll (some n) other with
      | .ready (.ok v) => drive o poll n settings (next v)
      | .ready (.error e) => finish n (.error e)
      | .pending _ => do
        modify (·.setStage n (.awaiting other next))
        pure (.pending true)

/-- Polls construction `n` through at most `limit` nested constructions, itself included. -/
def pollWithin (o : Factory) : (limit : Nat) → Nat → Job Progress
  | 0, _ => failure
  | limit + 1, n => do
    match (← get).registry.construction? n with
    | none => pure (.pending false)
    | some c => match c.stage with
      | .finished result => pure (.ready result)
      -- Whoever polls it further out will carry it on.
      | .running => pure (.pending false)
      | .fresh => do
        modify (·.setStage n .running)
        match ← o.prepare c.config with
        | .error e => finish n (.error e)
        | .ok raw => do
          modify (·.setRaw n raw)
          drive o (pollWithin o limit) n c.settings (o.strategy.build raw)
      | .suspended rest => do
        modify (·.setStage n .running)
        drive o (pollWithin o limit) n c.settings rest
      | .awaiting other next => do
        modify (·.setStage n .running)
        match ← await (pollWithin o limit) (some n) other with
        | .ready (.ok v) => drive o (pollWithin o limit) n c.settings (next v)
        | .ready (.error e) => finish n (.error e)
        -- Nothing has changed here; a move is reported only if there was one further in.
        | .pending moved => do
          modify (·.setStage n (.awaiting other next))
          pure (.pending moved)

/-- Polls a construction. The chain of nested polls has at most one construction per key, and its last
poll may find one that is on the chain already. -/
def poll (o : Factory) (n : Nat) : Job Progress := do
  pollWithin o ((← get).graph.size + 1) n

end Factory

end Wiring

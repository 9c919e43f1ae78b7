import Wiring.Factory.Pool

/-!
# Sessions

A session is one store with the pools that work on it. A `Command` changes the session and is answered;
questions about the store need no command, since the store can be read at any time.

- `Session.step` carries out one command. There is no result when the command never ends: when a range
  is part of itself, or a described list contains itself.
- `Session.run` carries out commands in order.
-/

namespace Wiring

/-- Something given outright, or described by a node of the graph. -/
inductive Source (α : Type) where
  | given (a : α)
  | node (id : NodeId)
deriving Repr

/-- The range of a source. -/
def Source.range (g : Graph) : Source Range → Range.Lowered Range
  | .given r => pure r
  | .node id => Range.lower g id

/-- The parameter of a source. -/
def Source.parameter (g : Graph) : Source Parameter → Range.Lowered Parameter
  | .given p => pure p
  | .node id => Parameter.ofNode g id

/-- A request to a session. -/
inductive Command where
  /-- Grows the graph. -/
  | update (u : Update)
  /-- Checks a value against a range. -/
  | check (value : Option NodeId) (range : Source Range)
  /-- Binds a value to a parameter. -/
  | capture (value : Option NodeId) (parameter : Source Parameter)
  /-- Makes a pool, whose first builds of flaky configs fail. -/
  | openPool (factory : Factory) (failures : Nat)
  /-- Requests instances of configs at once. -/
  | join (pool : Nat) (settings : Settings) (configs : List NodeId)
  /-- Finds the raw form of a config. -/
  | prepare (pool : Nat) (config : NodeId)

/-- What a session answers to a command. -/
inductive Answer where
  /-- What came of an update. -/
  | updated (outcome : Outcome)
  /-- The verdict of a check, unless its range could not be lowered. -/
  | verdict (holds : Except Range.Error Bool)
  /-- The outcome of a binding, unless its parameter could not be lowered. -/
  | captured (outcome : Except Range.Error (Except Range.Error Unit))
  /-- The number of the new pool. -/
  | opened (pool : Nat)
  /-- How a join ended. -/
  | joined (joined : Joined)
  /-- The raw form of a config. -/
  | prepared (raw : Except BuildError NodeId)
  /-- There is no such pool. -/
  | noPool

/-- A store and the pools that work on it. -/
structure Session where
  store : Store := {}
  pools : Array Pool := #[]

namespace Session

/-- Lets a pool do a job. -/
def work {α : Type} (s : Session) (pool : Nat) (job : Factory → Job α) (answer : α → Answer) :
    Option (Answer × Session) :=
  match s.pools[pool]? with
  | none => some (.noPool, s)
  | some p => do
    let (a, floor) ← (job p.factory).run (p.floor s.store)
    some (answer a, { store := floor.bench.store, pools := s.pools.setIfInBounds pool (p.keep floor) })

/-- Carries out one command. -/
def step (s : Session) : Command → Option (Answer × Session)
  | .update u =>
    let (outcome, store) := s.store.apply u
    some (.updated outcome, { s with store })
  | .check value source => do
    match ← (source.range s.store.graph).run with
    | .error e => some (.verdict (.error e), s)
    | .ok r =>
      let (holds, store) := s.store.accepts r value
      some (.verdict (.ok holds), { s with store })
  | .capture value source => do
    match ← (source.parameter s.store.graph).run with
    | .error e => some (.captured (.error e), s)
    | .ok p =>
      let (outcome, store) := p.capture s.store value
      some (.captured (.ok outcome), { s with store })
  | .openPool factory failures =>
    some (.opened s.pools.size, { s with pools := s.pools.push (.new factory failures) })
  | .join pool settings configs => s.work pool (·.join settings configs) .joined
  | .prepare pool config => s.work pool (·.prepare config) .prepared

/-- Carries out commands in order. -/
def run (s : Session) : List Command → Option (List Answer × Session)
  | [] => some ([], s)
  | c :: cs => do
    let (answer, s) ← s.step c
    let (answers, s) ← s.run cs
    some (answer :: answers, s)

end Session

end Wiring

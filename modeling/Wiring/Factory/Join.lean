import Wiring.Factory.Polling

/-!
# Joining requests

Several requests are made of one pool at once. They are polled in rounds: each round polls every
unfinished request in order. A request is entered at its first poll.

- `Factory.round` is one round; it says whether anything moved.
- `Factory.join` goes on until all requests are settled. If a round moves nothing while some
  request is unfinished, no further round can, and the join is a deadlock.

The number of rounds has a bound, `roundLimit`: a round that moves something starts a construction,
resumes one, hands one the result that it waits for, or settles a request.
-/

namespace Wiring

/-- One request of a join. -/
inductive Request where
  /-- Not polled yet. -/
  | new (config : NodeId)
  /-- Waits for a construction, by number. -/
  | waiting (n : Nat)
  | settled (result : Except BuildError Json)

/-- How a join ends. -/
inductive Joined where
  /-- One answer per request, in order. -/
  | answers (results : List (Except BuildError Json))
  | deadlock

namespace Request

/-- The answer of a settled request. -/
def result? : Request → Option (Except BuildError Json)
  | .settled result => some result
  | _ => none

end Request

namespace Factory

/-- Polls the construction that a request waits for. Says what becomes of the request, and whether
anything moved. -/
def pollFor (o : Factory) (n : Nat) : Job (Request × Bool) := do
  match ← await o.poll none n with
  | .ready result => pure (.settled result, true)
  | .pending moved => pure (.waiting n, moved)

/-- One poll of a request. -/
def pollRequest (o : Factory) (settings : Settings) : Request → Job (Request × Bool)
  | .settled result => pure (.settled result, false)
  | .waiting n => o.pollFor n
  | .new config => do
    match ← modifyGet (o.enter config settings) with
    | .answered result => pure (.settled result, true)
    | .waiting n => o.pollFor n

/-- One round. -/
def round (o : Factory) (settings : Settings) : List Request → Job (List Request × Bool)
  | [] => pure ([], false)
  | r :: rs => do
    let (r, moved) ← o.pollRequest settings r
    let (rs, movedLater) ← o.round settings rs
    pure (r :: rs, moved || movedLater)

/-- At most so many rounds. -/
def rounds (o : Factory) (settings : Settings) : (limit : Nat) → List Request → Job Joined
  | 0, _ => failure
  | limit + 1, rs => do
    let (rs, moved) ← o.round settings rs
    match rs.mapM Request.result? with
    | some results => pure (.answers results)
    | none => if moved then o.rounds settings limit rs else pure .deadlock

/-- A bound on the rounds of a join. Between two settled requests each key is started at most once,
since a failure settles the request that is being polled; and a construction is started once, suspends
at most once, and is handed one result per dependency. -/
def roundLimit (g : Graph) (requests : Nat) : Nat :=
  (requests + 1) * (g.size + requests + 1) * (g.links.size + 3)

/-- Requests instances of all configs at once. -/
def join (o : Factory) (settings : Settings) (configs : List NodeId) : Job Joined := do
  let g := (← get).graph
  o.rounds settings (roundLimit g configs.length) (configs.map .new)

end Factory

end Wiring

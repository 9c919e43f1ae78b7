import Std.Data.ExtTreeMap
import Wiring.Factory.Build
import Wiring.Factory.Settings

/-!
# Constructions of a pool

A pool starts at most one construction per key at a time. The registry keeps every construction that
was ever started, in the order in which they were started, and says which of them is current for a key.
A current construction is in flight or has succeeded: one that fails stops being current, so that the
next request for its key starts another one, while those that wait for it still get its error.

- `Registry.start` opens a construction and makes it current for its key.
- `Registry.finish` ends one and, if it failed, makes its key free again.
- `Registry.current?` is the construction that a request for a key shares.

The journal tells in which order constructions were started, ended, and handed to those that wait for
them.
-/

namespace Wiring

/-- How far a construction has come. -/
inductive Stage where
  /-- Nothing has been done yet. -/
  | fresh
  /-- It is being polled. -/
  | running
  /-- It suspended itself; the rest of its build goes on at the next poll. -/
  | suspended (rest : Build Json)
  /-- It waits for another construction, by number. -/
  | awaiting (other : Nat) (next : Json → Build Json)
  | finished (result : Except BuildError Json)

/-- What a construction is to build. -/
structure Errand where
  config : NodeId
  key : String
  /-- The settings of what the config asks for, with its own key in progress. -/
  settings : Settings

/-- One attempt to build a config. -/
structure Construction extends Errand where
  /-- The raw config that is built, once it is known. -/
  raw : Option NodeId := none
  stage : Stage := .fresh

/-- What happens to a construction, which is named by its number. -/
inductive Event where
  | started (n : Nat) (key : String)
  | ended (n : Nat) (result : Except BuildError Json)
  /-- The result is handed to one who waits for it: another construction, or a caller. -/
  | received (waiter : Option Nat) (n : Nat) (result : Except BuildError Json)

/-- The constructions of a pool. -/
structure Registry where
  /-- All constructions ever started, in order. -/
  history : Array Construction := #[]
  /-- The current construction of a key, by number. -/
  current : Std.ExtTreeMap String Nat := ∅
  /-- What has happened to the constructions, in order. -/
  journal : Array Event := #[]

namespace Registry

/-- How many keys have a current construction. -/
def size (r : Registry) : Nat := r.current.size

/-- The construction that requests for a key share, by number. -/
def current? (r : Registry) (key : String) : Option Nat := r.current[key]?

/-- A construction by its number. -/
def construction? (r : Registry) (n : Nat) : Option Construction := r.history[n]?

/-- How far a construction has come. -/
def stage? (r : Registry) (n : Nat) : Option Stage := (r.construction? n).map (·.stage)

/-- Enters something that has happened into the journal. -/
def record (r : Registry) (e : Event) : Registry := { r with journal := r.journal.push e }

/-- Opens a construction. -/
def start (r : Registry) (config : NodeId) (key : String) (settings : Settings) : Nat × Registry :=
  (r.history.size,
    { history := r.history.push { config, key, settings }
      current := r.current.insert key r.history.size
      journal := r.journal.push (.started r.history.size key) })

/-- Changes one construction. -/
def modify (r : Registry) (n : Nat) (f : Construction → Construction) : Registry :=
  { r with history := r.history.modify n f }

/-- Moves a construction to a stage. -/
def setStage (r : Registry) (n : Nat) (stage : Stage) : Registry :=
  r.modify n fun c => { c with stage }

/-- Records the raw config that a construction builds. -/
def setRaw (r : Registry) (n : Nat) (raw : NodeId) : Registry :=
  r.modify n fun c => { c with raw := some raw }

/-- Ends a construction. The key of a failed one is free again. -/
def finish (r : Registry) (n : Nat) (result : Except BuildError Json) : Registry :=
  let ended := (r.setStage n (.finished result)).record (.ended n result)
  match result, r.construction? n with
  -- Those that wait for it keep its number and still find the error in the history.
  | .error _, some c => { ended with current := ended.current.erase c.key }
  | _, _ => ended

/-! ## What one step does to the views -/

/-- The key of a construction. -/
def key? (r : Registry) (n : Nat) : Option String := (r.construction? n).map (·.key)

@[simp] theorem construction?_record (r : Registry) (e : Event) (n : Nat) :
    (r.record e).construction? n = r.construction? n := rfl

@[simp] theorem current?_record (r : Registry) (e : Event) (key : String) :
    (r.record e).current? key = r.current? key := rfl

@[simp] theorem journal_record (r : Registry) (e : Event) :
    (r.record e).journal.toList = r.journal.toList ++ [e] := by
  simp [record]

/-- Changing one construction leaves the others alone. -/
theorem construction?_modify (r : Registry) (n m : Nat) (f : Construction → Construction) :
    (r.modify n f).construction? m =
      if n = m then (r.construction? m).map f else r.construction? m := by
  simp [modify, construction?, Array.getElem?_modify]

theorem construction?_setStage (r : Registry) (n m : Nat) (stage : Stage) :
    (r.setStage n stage).construction? m =
      if n = m then (r.construction? m).map fun c => { c with stage }
      else r.construction? m :=
  construction?_modify ..

theorem construction?_setRaw (r : Registry) (n m : Nat) (raw : NodeId) :
    (r.setRaw n raw).construction? m =
      if n = m then (r.construction? m).map fun c => { c with raw := some raw }
      else r.construction? m :=
  construction?_modify ..

@[simp] theorem current?_setStage (r : Registry) (n : Nat) (stage : Stage) (key : String) :
    (r.setStage n stage).current? key = r.current? key := rfl

@[simp] theorem current?_setRaw (r : Registry) (n : Nat) (raw : NodeId) (key : String) :
    (r.setRaw n raw).current? key = r.current? key := rfl

@[simp] theorem journal_setStage (r : Registry) (n : Nat) (stage : Stage) :
    (r.setStage n stage).journal = r.journal := rfl

@[simp] theorem journal_setRaw (r : Registry) (n : Nat) (raw : NodeId) :
    (r.setRaw n raw).journal = r.journal := rfl

/-- The next number names the new construction. -/
theorem construction?_start (r : Registry) (config : NodeId) (key : String) (settings : Settings)
    (n : Nat) :
    (r.start config key settings).2.construction? n =
      if n = r.history.size then some { config, key, settings } else r.construction? n := by
  simp only [start, construction?, Array.getElem?_push]

/-- A new construction is current for its key and for no other. -/
theorem current?_start (r : Registry) (config : NodeId) (key other : String) (settings : Settings) :
    (r.start config key settings).2.current? other =
      if key = other then some r.history.size else r.current? other := by
  simp [start, current?, Std.ExtTreeMap.getElem?_insert]

@[simp] theorem journal_start (r : Registry) (config : NodeId) (key : String)
    (settings : Settings) :
    (r.start config key settings).2.journal.toList =
      r.journal.toList ++ [.started r.history.size key] := by
  simp [start]

theorem construction?_finish (r : Registry) (n m : Nat) (result : Except BuildError Json) :
    (r.finish n result).construction? m =
      if n = m then (r.construction? m).map fun c => { c with stage := .finished result }
      else r.construction? m := by
  have h := construction?_setStage r n m (.finished result)
  unfold finish
  split <;> exact h

@[simp] theorem journal_finish (r : Registry) (n : Nat) (result : Except BuildError Json) :
    (r.finish n result).journal.toList = r.journal.toList ++ [.ended n result] := by
  unfold finish
  split <;> simp

@[simp] theorem current?_finish_ok (r : Registry) (n : Nat) (v : Json) (key : String) :
    (r.finish n (.ok v)).current? key = r.current? key := rfl

/-- A failed construction frees its own key. -/
theorem current?_finish_error {r : Registry} {n : Nat} {c : Construction}
    (h : r.construction? n = some c) (e : BuildError) (key : String) :
    (r.finish n (.error e)).current? key = if c.key = key then none else r.current? key := by
  simp only [finish, h]
  simp [current?, Std.ExtTreeMap.getElem?_erase, record, setStage, modify]

end Registry

end Wiring

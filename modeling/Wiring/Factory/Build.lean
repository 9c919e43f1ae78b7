import Wiring.Factory.Error
import Wiring.Range.Capture
import Wiring.Range.Lowering

/-!
# Builds

A `Build` is the plan by which a strategy turns a raw config into an instance. It is a value: it says
what to do next and how to go on, and a pool carries it out. A build can stop in the middle, when it
asks for another config's instance or suspends itself, and the rest of it is a build again.

- `Build.ask` requests the instance of a config under the settings of the construction. If that request
  fails, the whole build fails with its error.
- `Build.pause` suspends once.
- `Build.workbench`, `Build.update` read and write what a pool's builds share: the store and two
  counters.
- `Build.each` runs a plan for each member of a list, in order.
-/

namespace Wiring

/-- What the builds of a pool share. -/
structure Workbench where
  store : Store := {}
  /-- How many builds have counted themselves. -/
  builds : Nat := 0
  /-- How many builds of flaky configs will still fail. -/
  failuresLeft : Nat := 0

/-- A plan for a value: its next step, and how to go on after it. -/
inductive Build (α : Type) where
  /-- The value. -/
  | done (a : α)
  /-- The build ends with an error. -/
  | fail (e : BuildError)
  /-- The build never ends. -/
  | endless
  /-- Goes on at the next poll. -/
  | suspend (next : Build α)
  /-- Goes on with the instance of a config. -/
  | request (config : NodeId) (next : Json → Build α)
  /-- Goes on with the workbench as it is now. -/
  | read (next : Workbench → Build α)
  /-- Puts the workbench into a new state and goes on. -/
  | write (bench : Workbench) (next : Build α)

namespace Build

variable {α β γ : Type}

/-- One plan after the other. -/
def bind : Build α → (α → Build β) → Build β
  | .done a, f => f a
  | .fail e, _ => .fail e
  | .endless, _ => .endless
  | .suspend next, f => .suspend (next.bind f)
  | .request config next, f => .request config fun v => (next v).bind f
  | .read next, f => .read fun w => (next w).bind f
  | .write w next, f => .write w (next.bind f)

/-- Plans are put together one after the other. -/
instance : Monad Build where
  pure := .done
  bind := bind

@[simp] theorem pure_eq_done (a : α) : (pure a : Build α) = .done a := rfl

@[simp] theorem done_bind (a : α) (f : α → Build β) : (Build.done a >>= f) = f a := rfl

@[simp] theorem fail_bind (e : BuildError) (f : α → Build β) :
    (Build.fail e >>= f) = .fail e := rfl

@[simp] theorem endless_bind (f : α → Build β) : (Build.endless >>= f) = .endless := rfl

@[simp] theorem suspend_bind (next : Build α) (f : α → Build β) :
    (Build.suspend next >>= f) = .suspend (next >>= f) := rfl

@[simp] theorem request_bind (config : NodeId) (next : Json → Build α) (f : α → Build β) :
    (Build.request config next >>= f) = .request config fun v => next v >>= f := rfl

@[simp] theorem read_bind (next : Workbench → Build α) (f : α → Build β) :
    (Build.read next >>= f) = .read fun w => next w >>= f := rfl

@[simp] theorem write_bind (w : Workbench) (next : Build α) (f : α → Build β) :
    (Build.write w next >>= f) = .write w (next >>= f) := rfl

/-- A plan that is followed by nothing is the plan itself. -/
theorem bind_done (b : Build α) : b >>= Build.done = b := by
  induction b with
  | done a => rfl
  | fail e => rfl
  | endless => rfl
  | suspend next ih => simp [ih]
  | request config next ih => simp [ih]
  | read next ih => simp [ih]
  | write w next ih => simp [ih]

/-- Three plans in a row can be put together from either end. -/
theorem bind_assoc (b : Build α) (f : α → Build β) (g : β → Build γ) :
    (b >>= f) >>= g = b >>= fun a => f a >>= g := by
  induction b with
  | done a => rfl
  | fail e => rfl
  | endless => rfl
  | suspend next ih => simp [ih]
  | request config next ih => simp [ih]
  | read next ih => simp [ih]
  | write w next ih => simp [ih]

/-- Sequencing is lawful, so the lemmas about lawful monads apply to builds. -/
instance : LawfulMonad Build := LawfulMonad.mk' Build bind_done done_bind bind_assoc

/-! ## Single steps -/

/-- The instance of a config. -/
def ask (config : NodeId) : Build Json := .request config .done

/-- Suspends once. -/
def pause : Build Unit := .suspend (.done ())

/-- The workbench as it is now. -/
def workbench : Build Workbench := .read .done

/-- Changes the workbench. -/
def update (f : Workbench → Workbench) : Build Unit := .read fun w => .write (f w) (.done ())

/-- The graph as it is now. -/
def graph : Build Graph := .read fun w => .done w.store.graph

/-- Goes on with a value, or fails with an error. -/
def ofExcept : Except BuildError α → Build α
  | .ok a => .done a
  | .error e => .fail e

/-- Goes on with what is lowered, if lowering ends. -/
def ofLowered : Range.Lowered α → Build α
  | none => .endless
  | some (.ok a) => .done a
  | some (.error e) => .fail (.range e)

/-- Binds a value to a parameter and keeps the typed values that the check leaves. -/
def capture (p : Parameter) (value : Option NodeId) : Build Unit := .read fun w =>
  let (verdict, store) := p.capture w.store value
  .write { w with store } (ofExcept (verdict.mapError .range))

/-- A plan for each member of a list, in order. -/
def each (f : α → Build β) : List α → Build (List β)
  | [] => .done []
  | a :: as => do
    let b ← f a
    let bs ← each f as
    .done (b :: bs)

/-- Asking for several instances asks for the first one and then for the others. -/
theorem each_ask_cons (config : NodeId) (configs : List NodeId) (f : List Json → Build α) :
    (each ask (config :: configs) >>= f) =
      .request config fun v => each ask configs >>= fun vs => f (v :: vs) := by
  simp [each, ask]

end Build

end Wiring

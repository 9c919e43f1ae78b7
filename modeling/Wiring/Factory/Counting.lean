import Wiring.Factory.Build

/-!
# Counting builds

The instance of a config is numbered: each build counts itself as it starts, so a number that occurs
twice shows that an instance was shared. Right after that a build may suspend itself once; then it
fails if its config is flaky and failures are left; and then it asks for what its config depends on.
-/

namespace Wiring.Counting

/-- Counts a build and gives its number. -/
def count : Build Nat := do
  let w ← Build.workbench
  Build.update fun w => { w with builds := w.builds + 1 }
  pure (w.builds + 1)

/-- Fails with an error as long as failures are left. -/
def stumble (e : BuildError) : Build Unit := do
  let w ← Build.workbench
  if 0 < w.failuresLeft then
    Build.update fun w => { w with failuresLeft := w.failuresLeft - 1 }
    .fail e

/-- Stumbling either ends a plan with the error or leaves it as it is. -/
theorem stumble_bind {α : Type} (e : BuildError) (f : Unit → Build α) :
    (stumble e >>= f) = .read fun w =>
      if 0 < w.failuresLeft then
        .read fun w => .write { w with failuresLeft := w.failuresLeft - 1 } (.fail e)
      else f () := by
  show Build.read (fun w => Build.bind (if 0 < w.failuresLeft then _ else _) f) = _
  congr 1
  funext w
  split <;> rfl

/-- The numbered instance of a config. -/
def inst (number : Nat) (key : String) (deps : List Json) : Json :=
  .obj [("build", .int number), ("deps", .arr deps), ("id", .str key)]

/-- What follows the pause: the build may fail, and asks for what the config depends on. -/
def assemble (number : Nat) (raw : NodeId) : Build Json := do
  -- The graph is read after the pause: other builds may have grown it meanwhile.
  let g ← Build.graph
  let key := (g.value? raw).getD ""
  if (g.property? raw Dependency.flaky).isSome then stumble (.strategy key "flaky")
  let deps ← Build.each Build.ask (g.properties raw Dependency.dep)
  pure (inst number key deps)

/-- Counts itself, may suspend, may fail, and then asks for what the config depends on, in order. -/
def build (suspends : Bool) (raw : NodeId) : Build Json := do
  let number ← count
  if suspends then Build.pause
  assemble number raw

end Wiring.Counting

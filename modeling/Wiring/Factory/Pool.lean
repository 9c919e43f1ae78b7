import Wiring.Factory.Join

/-!
# Pools

A pool is a factory with what it has built: its registry and its counters. The store that it works on
belongs to no pool; it is handed over for the time of a job (`Pool.floor`, `Pool.keep`), so that all
pools see the same graph and the same typed values.
-/

namespace Wiring

/-- A factory and what it has built. -/
structure Pool where
  factory : Factory
  registry : Registry := {}
  builds : Nat := 0
  failuresLeft : Nat := 0

namespace Pool

/-- A pool that has built nothing yet. -/
def new (factory : Factory) (failures : Nat) : Pool := { factory, failuresLeft := failures }

/-- How many keys have a construction that is in flight or has succeeded. -/
def cachedCount (p : Pool) : Nat := p.registry.size

/-- The pool at work on a store. -/
def floor (p : Pool) (store : Store) : Floor :=
  { bench := { store, builds := p.builds, failuresLeft := p.failuresLeft }, registry := p.registry }

/-- The pool after its work. -/
def keep (p : Pool) (floor : Floor) : Pool :=
  { p with
    registry := floor.registry
    builds := floor.bench.builds
    failuresLeft := floor.bench.failuresLeft }

@[simp] theorem keep_floor (p : Pool) (store : Store) : p.keep (p.floor store) = p := rfl

@[simp] theorem factory_keep (p : Pool) (floor : Floor) : (p.keep floor).factory = p.factory := rfl

end Pool

end Wiring

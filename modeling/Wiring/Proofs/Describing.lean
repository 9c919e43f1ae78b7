import Wiring.Proofs.Descent
import Wiring.Proofs.Ranks

/-!
# Descriptions end

Components may lead back to themselves in any way: through their arguments, through lists, through
values that are bound to parameters, or through components that they share. A pool that describes
them still ends (`Session.descriptions_end`), as long as no list is part of itself and the ranges of
parameters can be lowered. No request ever waits for a construction that is open: either the
construction has ended, or it is on the path and its key cuts the request off.
-/

namespace Wiring

open Relation

/-- Descriptions have an end on the graph: no list is part of itself, and the first range of each
parameter that an argument has can be lowered. -/
structure Graph.Describable (g : Graph) : Prop where
  lists : ∀ x, ¬ TransGen g.HasItem x x
  ranges : ∀ {argument parameter range},
    g.property? argument Components.parameter = some parameter →
      g.property? parameter Rdfs.range = some range → (Range.lower g range).run.isSome

/-- It is enough that no list is part of itself and no range wraps itself. -/
theorem Graph.Describable.of_acyclic {g : Graph} (hclosed : g.Closed)
    (lists : ∀ x, ¬ TransGen g.HasItem x x) (ranges : ∀ x, ¬ TransGen g.Wraps x x) :
    g.Describable where
  lists := lists
  ranges _ _ := Range.lower_isSome hclosed fun x _ => ranges x

/-- It is enough that lists come after their items, and ranges after those that they wrap. -/
theorem Graph.Describable.of_falling {g : Graph} (hclosed : g.Closed)
    (lists : g.links.all fun l => l.label.position?.isNone || decide (l.target < l.source))
    (ranges : (List.range g.size).all fun x => (g.rangeParts x).all fun y => decide (y < x)) :
    g.Describable := by
  refine .of_acyclic hclosed (hasItem_acyclic fun l hl position hposition => ?_)
    (acyclic_of_falls fun {x y} hwraps => ?_)
  · have hless := Array.all_eq_true'.mp lists l hl
    rw [hposition] at hless
    exact of_decide_eq_true hless
  · have hx := List.all_eq_true.mp ranges x (List.mem_range.mpr (hwraps.lt_size hclosed).1)
    exact of_decide_eq_true (List.all_eq_true.mp hx y hwraps)

/-- Lists are ranked above their items. -/
theorem Graph.Describable.ranked {g : Graph} (h : g.Describable) (hclosed : g.Closed) :
    ∃ rank, Describe.Ranked (· = g) rank := by
  obtain ⟨rank, hsize, hfalls⟩ := exists_rank (fun h => h.lt_size hclosed) h.lists
  refine ⟨rank, ?_, ?_, ?_⟩
  · rintro _ rfl id
    exact hsize id
  · rintro _ rfl list items hitems item hitem
    exact hfalls ⟨items, hitems, hitem⟩
  · rintro _ rfl argument parameter hparameter
    exact Parameter.ofNode_isSome fun range hrange => h.ranges hparameter hrange

/-- The factory that describes components leaves such a graph as it is, and its builds end. -/
theorem Graph.Describable.settles {g : Graph} (h : g.Describable) (hclosed : g.Closed) :
    Factory.Settles { strategy := .describe } g := by
  obtain ⟨rank, hrank⟩ := h.ranked hclosed
  exact ⟨rfl, trivial, fun raw => Describe.straight_build (.inr hrank) raw⟩

namespace Session

/-- **Descriptions end.** In every session, whatever has been requested so far, a pool that describes
components without preprocessors answers the request for any node under any settings, with a value or
an error, and leaves the graph as it is. On the way no request, of the caller or of a construction,
waits for a construction that is still open. -/
theorem descriptions_end {cs : List Command} {answers : List Answer} {s : Session}
    (h : Session.run {} cs = some (answers, s)) {i : Nat} {p : Pool} (hp : s.pools[i]? = some p)
    (hfactory : p.factory = { strategy := .describe }) (hg : s.store.graph.Describable)
    (settings : Settings) (id : NodeId) :
    ∃ result s' p', s.step (.join i settings [id]) = some (.joined (.answers [result]), s') ∧
      s'.pools[i]? = some p' ∧ s'.store.graph = s.store.graph ∧
      p.factory.Resolves settings id (p.floor s.store) result (p'.floor s'.store) := by
  have hrest := atRest_of_run h
  have hsettles : p.factory.Settles s.store.graph := hfactory ▸ hg.settles hrest.closed
  have hended := ended_of_pauseless h hp hsettles.pauseless
  obtain ⟨result, floor, hjoin, hresolves⟩ :=
    Factory.join_resolves (f := p.floor s.store) hsettles settings id (hrest.pools hp).orderly rfl
      hended
  obtain ⟨s', hstep, hstore, hpool⟩ := step_of_join hp hjoin
  refine ⟨result, s', p.keep floor, hstep, hpool, ?_, ?_⟩
  · rw [hstore]
    exact hresolves.graph hsettles rfl
  · rw [hstore]
    exact hresolves

/-- Two components: the arguments of the first one are a list of both of them and an argument that
binds a parameter, whose range is a union, to the first one; the second one has the first one as its
argument, and is described once with the first one in progress. -/
def entangled : List Command :=
  [.update (.named "ex:a"), .update (.named "ex:b"), .update (.literal "App"),
    .update (.list [1, 0]), .update .blank, .update (.named "ex:p"), .update (.named Xsd.string),
    .update (.list [3, 4]), .update (.addProperty 0 Components.requireName 2),
    .update (.addProperty 1 Components.requireName 2),
    .update (.addProperty 4 Components.parameter 5), .update (.addProperty 4 Components.value 0),
    .update .blank, .update (.addType 8 Components.rangeUnion),
    .update (.addProperty 8 Components.parameterRangeElements 6),
    .update (.addProperty 5 Rdfs.range 8), .update (.addProperty 0 Components.arguments 7),
    .update (.addProperty 1 Components.arguments 0), .openPool { strategy := .describe } 0,
    .join 0 (Settings.descend {} "ex:a") [1]]

/-- The first component is described with the description of the second one, and without its own. -/
theorem descriptions_end_entangled : ∃ answers s p result s' p',
    Session.run {} entangled = some (answers, s) ∧ s.pools[0]? = some p ∧ p.cachedCount = 1 ∧
      s.step (.join 0 {} [0]) = some (.joined (.answers [result]), s') ∧
      s'.pools[0]? = some p' ∧ p'.cachedCount = 2 ∧
      p.factory.Resolves {} 0 (p.floor s.store) result (p'.floor s'.store) := by
  have hrun : (Session.run {} entangled).any fun out =>
      (out.2.pools[0]?.any fun p =>
        decide (p.factory = { strategy := .describe }) && p.cachedCount == 1) &&
      ((out.2.step (.join 0 {} [0])).any fun next =>
        next.2.pools[0]?.any fun p => p.cachedCount == 2) &&
      (out.2.store.graph.links.all fun l => l.label.position?.isNone || decide (l.target < l.source)) &&
      (List.range out.2.store.graph.size).all fun x =>
        (out.2.store.graph.rangeParts x).all fun y => decide (y < x) := by
    decide +kernel
  obtain ⟨⟨answers, s⟩, h, hout⟩ := (Option.any_eq_true _ _).mp hrun
  simp only [Bool.and_eq_true] at hout
  obtain ⟨⟨⟨hpool, hnext⟩, hlists⟩, hranges⟩ := hout
  obtain ⟨p, hp, hpool⟩ := (Option.any_eq_true _ _).mp hpool
  obtain ⟨hfactory, hcached⟩ := (Bool.and_eq_true _ _).mp hpool
  have hg : s.store.graph.Describable := .of_falling (atRest_of_run h).closed hlists hranges
  obtain ⟨result, s', p', hstep, hp', -, hresolves⟩ :=
    descriptions_end h hp (of_decide_eq_true hfactory) hg {} 0
  rw [hstep, Option.any_some, hp'] at hnext
  exact ⟨answers, s, p, result, s', p', h, hp, beq_iff_eq.mp hcached, hstep, hp',
    beq_iff_eq.mp hnext, hresolves⟩

end Session

end Wiring

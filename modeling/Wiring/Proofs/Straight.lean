import Wiring.Factory.Strategy

/-!
# Straight plans

A plan is *straight* if it never suspends itself, so that it stops for the instances of other configs
only, and if it ends (`Build.Straight`). Plans read the graph, so this depends on what graphs they
find; and it has a form for plans that may be lost on the way and never end.

- Builds with numbers are straight unless they are told to suspend themselves
  (`Counting.straight_build`).
- Descriptions are straight where lists are not nested in themselves and the ranges of parameters can
  be lowered (`Describe.straight_build`). In any case they never suspend themselves.
-/

namespace Wiring

namespace Build

variable {α β : Type}

/-- The plan never suspends itself while the graph is one of certain graphs, and it never ends only
if it is `lost`. -/
def Straight (G : Graph → Prop) (lost : Prop) : Build α → Prop
  | .done _ => True
  | .fail _ => True
  | .endless => lost
  | .suspend _ => False
  | .request _ next => ∀ v, (next v).Straight G lost
  | .read next => ∀ w, G w.store.graph → (next w).Straight G lost
  | .write w next => G w.store.graph ∧ next.Straight G lost

/-- The plan never suspends itself. -/
abbrev Pauseless (b : Build α) : Prop := b.Straight (fun _ => True) True

variable {G : Graph → Prop} {lost : Prop}

theorem straight_pure (a : α) : (pure a : Build α).Straight G lost := trivial

theorem Straight.bind {b : Build α} {f : α → Build β} (hb : b.Straight G lost)
    (hf : ∀ a, (f a).Straight G lost) : (b >>= f).Straight G lost := by
  induction b with
  | done a => exact hf a
  | fail e => trivial
  | endless => exact hb
  | suspend next => exact hb.elim
  | request config next ih => exact fun v => ih v (hb v)
  | read next ih => exact fun w hw => ih w (hb w hw)
  | write w next ih => exact ⟨hb.1, ih hb.2⟩

theorem Straight.map {b : Build α} (hb : b.Straight G lost) (f : α → β) :
    (f <$> b).Straight G lost :=
  hb.bind fun a => straight_pure (f a)

theorem straight_each {f : α → Build β} {as : List α} (hf : ∀ a ∈ as, (f a).Straight G lost) :
    (each f as).Straight G lost := by
  induction as with
  | nil => exact straight_pure []
  | cons a as ih =>
    exact (hf a List.mem_cons_self).bind fun b =>
      (ih fun a ha => hf a (List.mem_cons_of_mem _ ha)).bind fun bs => straight_pure (b :: bs)

theorem straight_ask (config : NodeId) : (ask config).Straight G lost := fun _ => trivial

theorem straight_workbench : workbench.Straight G lost := fun _ _ => trivial

/-- What follows a look at the graph may count on it. -/
theorem straight_graph {f : Graph → Build α} (hf : ∀ g, G g → (f g).Straight G lost) :
    (graph >>= f).Straight G lost := fun w hw => hf w.store.graph hw

theorem straight_update {f : Workbench → Workbench} (hf : ∀ w, (f w).store.graph = w.store.graph) :
    (update f).Straight G lost := by
  intro w hw
  refine ⟨?_, trivial⟩
  rw [hf]
  exact hw

theorem straight_ofExcept (a : Except BuildError α) : (ofExcept a).Straight G lost := by
  cases a <;> trivial

theorem straight_ofLowered {a : Range.Lowered α} (h : lost ∨ a.run.isSome) :
    (ofLowered a).Straight G lost := by
  match a with
  | none =>
    rcases h with hlost | h
    · exact hlost
    · cases h
  | some (.ok a) => trivial
  | some (.error x) => trivial

theorem straight_capture (p : Parameter) (value : Option NodeId) :
    (capture p value).Straight G lost := by
  intro w hw
  refine ⟨?_, straight_ofExcept _⟩
  show G (p.capture w.store value).2.graph
  rw [Parameter.graph_capture]
  exact hw

end Build

open Build

variable {G : Graph → Prop} {lost : Prop}

/-! ## Numbered instances -/

namespace Counting

theorem straight_count : count.Straight G lost :=
  straight_workbench.bind fun w =>
    (straight_update (f := fun w => { w with builds := w.builds + 1 }) fun _ => rfl).bind fun _ =>
      straight_pure (w.builds + 1)

theorem straight_stumble (e : BuildError) : (stumble e).Straight G lost := by
  refine straight_workbench.bind ?_
  intro w
  split
  · exact (straight_update (f := fun w => { w with failuresLeft := w.failuresLeft - 1 })
      fun _ => rfl).bind fun _ => trivial
  · trivial

/-- What follows the pause of a build is straight. -/
theorem straight_assemble (number : Nat) (raw : NodeId) : (assemble number raw).Straight G lost := by
  have hdeps : ∀ g : Graph, ∀ key, Straight G lost (do
      let deps ← each ask (g.properties raw Dependency.dep)
      pure (inst number key deps)) :=
    fun g key => (straight_each fun d _ => straight_ask d).bind fun _ => straight_pure _
  refine straight_graph ?_
  intro g _
  dsimp only
  split
  · exact (straight_stumble _).bind fun _ => hdeps g _
  · exact hdeps g _

theorem straight_build (raw : NodeId) : (Counting.build false raw).Straight G lost :=
  straight_count.bind fun number => straight_assemble number raw

end Counting

/-! ## Descriptions -/

namespace Describe

/-- In certain graphs a list is ranked above its items, and the ranges of the parameters that
arguments have can be lowered. -/
structure Ranked (G : Graph → Prop) (rank : NodeId → Nat) : Prop where
  size : ∀ {g}, G g → ∀ id, rank id ≤ g.size
  items : ∀ {g}, G g → ∀ {id items}, g.listItems? id = some items → ∀ item ∈ items,
    rank item < rank id
  ranges : ∀ {g}, G g → ∀ {argument parameter},
    g.property? argument Components.parameter = some parameter →
      (Parameter.ofNode g parameter).run.isSome

variable {rank : NodeId → Nat} (h : lost ∨ Ranked G rank)
include h

/-- Lists are resolved to an end along paths of falling ranks. -/
theorem straight_resolveWithin {limit : Nat} {id : NodeId} (hlimit : lost ∨ rank id < limit) :
    (resolveWithin limit (some id)).Straight G lost := by
  induction limit generalizing id with
  | zero => exact hlimit.resolve_right (Nat.not_lt_zero _)
  | succ limit ih =>
    rw [resolveWithin]
    intro w hw
    dsimp only [Build.bind]
    split
    · trivial
    · split
      · trivial
      · refine (straight_each ?_).map _
        intro item hitem
        refine ih ?_
        -- the items of a list come below it
        rcases h with hlost | hrank
        · exact .inl hlost
        · refine hlimit.imp_right fun hid => ?_
          cases hitems : w.store.graph.listItems? id with
          | none =>
            rw [hitems] at hitem
            cases hitem
          | some items =>
            rw [hitems] at hitem
            have := hrank.items hw hitems item hitem
            omega
      · split
        · exact straight_ask id
        · trivial

theorem straight_resolve (value : Option NodeId) : (resolve value).Straight G lost := by
  refine straight_graph ?_
  intro g hg
  cases value with
  | none => exact straight_pure _
  | some id =>
    exact straight_resolveWithin h (h.imp_right fun hrank => Nat.lt_succ_of_le (hrank.size hg id))

theorem straight_resolveArgument (argument : NodeId) :
    (resolveArgument argument).Straight G lost := by
  refine straight_graph ?_
  intro g hg
  split
  · exact straight_resolve h _
  · rename_i parameter hparameter
    refine (straight_ofLowered (h.imp_right fun hrank => hrank.ranges hg hparameter)).bind ?_
    intro p
    dsimp only
    split
    · exact (straight_capture p _).bind fun _ => straight_resolve h _
    · exact straight_resolve h _

/-- Descriptions are straight where lists and ranges are well-founded. -/
theorem straight_build (raw : NodeId) : (Describe.build raw).Straight G lost := by
  refine straight_graph ?_
  intro g _
  split
  · trivial
  · split
    · trivial
    · exact (straight_each fun argument _ => straight_resolveArgument h argument).bind fun _ =>
        straight_graph fun _ _ => straight_pure _

end Describe

/-- Descriptions never suspend themselves. -/
theorem Describe.pauseless_build (raw : NodeId) : (Describe.build raw).Pauseless :=
  straight_build (.inl trivial : True ∨ Ranked _ fun _ => 0) raw

/-- A strategy whose builds never suspend themselves. -/
def Strategy.Pauseless : Strategy → Prop
  | .describe => True
  | .counting suspends => suspends = false

theorem Strategy.Pauseless.build {s : Strategy} (h : s.Pauseless) (raw : NodeId) :
    (s.build raw).Pauseless := by
  cases s with
  | describe => exact Describe.pauseless_build raw
  | counting suspends =>
    obtain rfl : suspends = false := h
    exact Counting.straight_build raw

end Wiring

import Wiring.Proofs.Growth
import Wiring.Proofs.Terms

/-!
# Standing terms

What holds of every pool, whatever it builds: its work grows the graph, the key of a construction
is the value of its config and in progress for what it asks for, and no construction waits for one
whose key is in progress (`Terms.standing`, `suit_standing`). Builds of either strategy never touch
the graph themselves; only preprocessors grow it.
-/

namespace Wiring

namespace Build

variable {α β : Type} {T : Terms} {e : Errand}

/-- Terms are kept through one plan after the other. -/
theorem within_bind {b : Build α} {f : α → Build β} {post : β → Workbench → Prop}
    {w : Workbench} :
    (b >>= f).Within T e post w ↔ b.Within T e (fun a w => (f a).Within T e post w) w := by
  induction b generalizing w with
  | done a => exact Iff.rfl
  | fail x => exact Iff.rfl
  | endless => exact Iff.rfl
  | suspend next ih =>
    rw [suspend_bind]
    exact forall_congr' fun w' => imp_congr_right fun _ => ih
  | request d next ih =>
    rw [request_bind]
    exact and_congr_right fun _ => and_congr_right fun _ => forall_congr' fun v =>
      imp_congr_right fun _ => forall_congr' fun w' => imp_congr_right fun _ => ih v
  | read next ih =>
    rw [read_bind]
    exact ih w
  | write w' next ih =>
    rw [write_bind]
    exact and_congr_right fun _ => ih

/-- A plan that keeps the terms wherever it starts. -/
def Steady (T : Terms) (e : Errand) (b : Build α) : Prop :=
  ∀ w, T.inv w → b.Within T e (fun _ w' => T.inv w') w

theorem within_imp {b : Build α} {post post' : α → Workbench → Prop} {w : Workbench}
    (h : b.Within T e post w) (himp : ∀ a w, post a w → post' a w) : b.Within T e post' w := by
  induction b generalizing w with
  | done a => exact himp a w h
  | fail x => exact h
  | endless => trivial
  | suspend next ih => exact fun w' hw' => ih (h w' hw')
  | request d next ih =>
    exact ⟨h.1, h.2.1, fun v hv w' hw' => ih v (h.2.2 v hv w' hw')⟩
  | read next ih => exact ih w h
  | write w' next ih => exact ⟨h.1, ih h.2⟩

theorem steady_pure (a : α) : Steady T e (pure a : Build α) := fun _ hw => hw

theorem Steady.bind {b : Build α} {f : α → Build β} (hb : Steady T e b)
    (hf : ∀ a, Steady T e (f a)) : Steady T e (b >>= f) := by
  intro w hw
  rw [within_bind]
  exact within_imp (hb w hw) fun a w' hw' => hf a w' hw'

theorem Steady.map {b : Build α} (hb : Steady T e b) (f : α → β) : Steady T e (f <$> b) :=
  hb.bind fun a => steady_pure (f a)

theorem steady_each {f : α → Build β} {as : List α} (hf : ∀ a ∈ as, Steady T e (f a)) :
    Steady T e (each f as) := by
  induction as with
  | nil => exact steady_pure []
  | cons a as ih =>
    exact (hf a List.mem_cons_self).bind fun b =>
      (ih fun a ha => hf a (List.mem_cons_of_mem _ ha)).bind fun bs => steady_pure (b :: bs)

theorem steady_workbench : Steady T e workbench := fun _ hw => hw

theorem steady_graph : Steady T e graph := fun _ hw => hw

theorem steady_endless : Steady T e (.endless : Build α) := fun _ _ => trivial

theorem steady_pause : Steady T e pause := fun _ _ _ hw => hw

end Build

/-- The terms ask nothing of a build but what it asks for. -/
structure Terms.Lax (T : Terms) : Prop where
  /-- The workbench may change in any way that leaves the graph as it is. -/
  bench : ∀ {w w' : Workbench}, T.inv w → w'.store.graph = w.store.graph →
    T.change w w' ∧ T.inv w'
  result : ∀ e result, T.result e result

variable {T : Terms} {e : Errand}

/-- On such terms a build is allowed to come to any end. -/
theorem Terms.Lax.fulfils (hT : T.Lax) {b : Build Json} (hb : b.Steady T e) {w : Workbench}
    (hw : T.inv w) : T.Fulfils e b w :=
  Build.within_imp (hb w hw) fun v _ _ => hT.result e (.ok v)

namespace Build

variable {α : Type} (hT : T.Lax)
include hT

theorem steady_fail (x : BuildError) : Steady T e (.fail x : Build α) :=
  fun _ _ => hT.result e (.error x)

theorem steady_ask {d : NodeId} (hd : T.asks e d) : Steady T e (ask d) :=
  fun _ _ => ⟨hd, fun x _ => hT.result e (.error x), fun _ _ _ hw => hw⟩

theorem steady_update {f : Workbench → Workbench} (hf : ∀ w, (f w).store.graph = w.store.graph) :
    Steady T e (update f) :=
  fun w hw => hT.bench hw (hf w)

theorem steady_ofLowered (a : Range.Lowered α) : Steady T e (ofLowered a) := by
  match a with
  | none => exact steady_endless
  | some (.ok a) => exact steady_pure a
  | some (.error x) => exact steady_fail hT (.range x)

theorem steady_ofExcept (a : Except BuildError α) : Steady T e (ofExcept a) := by
  cases a with
  | ok a => exact steady_pure a
  | error x => exact steady_fail hT x

theorem steady_capture (p : Parameter) (value : Option NodeId) :
    Steady T e (capture p value) := by
  intro w hw
  have hgraph : (p.capture w.store value).2.graph = w.store.graph := Parameter.graph_capture ..
  obtain ⟨hchange, hinv⟩ : T.change w { w with store := (p.capture w.store value).2 } ∧
      T.inv { w with store := (p.capture w.store value).2 } := hT.bench hw hgraph
  exact ⟨hchange, steady_ofExcept hT _ _ hinv⟩

end Build

open Build

/-! ## Builds of either strategy -/

namespace Counting

variable (hT : T.Lax)
include hT

theorem steady_count : Steady T e count :=
  steady_workbench.bind fun w =>
    (steady_update hT (f := fun w => { w with builds := w.builds + 1 }) fun _ => rfl).bind fun _ =>
      steady_pure (w.builds + 1)

theorem steady_stumble (x : BuildError) : Steady T e (stumble x) := by
  refine steady_workbench.bind ?_
  intro w
  split
  · exact (steady_update hT (f := fun w => { w with failuresLeft := w.failuresLeft - 1 })
      fun _ => rfl).bind fun _ => steady_fail hT x
  · exact steady_pure ()

variable {raw : NodeId}
  (hraw : ∀ w, T.inv w → ∀ d ∈ w.store.graph.properties raw Dependency.dep, T.asks e d)
include hraw

theorem steady_assemble (number : Nat) : Steady T e (assemble number raw) := by
  intro w hw
  have hdeps : ∀ key, Steady T e (do
      let deps ← each ask (w.store.graph.properties raw Dependency.dep)
      pure (inst number key deps)) :=
    fun key => (steady_each fun d hd => steady_ask hT (hraw w hw d hd)).bind fun _ => steady_pure _
  show Build.Within T e _ (if _ then _ else _) w
  split
  · exact ((steady_stumble hT _).bind fun _ => hdeps _) w hw
  · exact hdeps _ w hw

theorem steady_build (suspends : Bool) : Steady T e (Counting.build suspends raw) := by
  refine (steady_count hT).bind ?_
  intro number
  split
  · exact steady_pause.bind fun _ => steady_assemble hT hraw number
  · exact steady_assemble hT hraw number

end Counting

namespace Describe

variable (hT : T.Lax) (hasks : ∀ d, T.asks e d)
include hT hasks

theorem steady_resolveWithin (limit : Nat) (value : Option NodeId) :
    Steady T e (resolveWithin limit value) := by
  induction limit generalizing value with
  | zero =>
    cases value with
    | none => exact steady_pure _
    | some id => exact steady_endless
  | succ limit ih =>
    cases value with
    | none => exact steady_pure _
    | some id =>
      refine steady_workbench.bind ?_
      intro w
      dsimp only
      split
      · exact steady_fail hT _
      · split
        · exact steady_pure _
        · exact (steady_each fun item _ => ih (some item)).map _
        · split
          · exact steady_ask hT (hasks id)
          · exact steady_pure _

theorem steady_resolve (value : Option NodeId) : Steady T e (resolve value) :=
  steady_graph.bind fun _ => steady_resolveWithin hT hasks _ value

theorem steady_resolveArgument (argument : NodeId) : Steady T e (resolveArgument argument) := by
  refine steady_graph.bind ?_
  intro g
  split
  · exact steady_resolve hT hasks _
  · refine (steady_ofLowered hT _).bind ?_
    intro p
    dsimp only
    split
    · exact (steady_capture hT p _).bind fun _ => steady_resolve hT hasks _
    · exact steady_resolve hT hasks _

theorem steady_build (raw : NodeId) : Steady T e (Describe.build raw) := by
  refine steady_graph.bind ?_
  intro g
  split
  · exact steady_fail hT _
  · split
    · exact steady_fail hT _
    · exact (steady_each fun argument _ => steady_resolveArgument hT hasks argument).bind fun _ =>
        steady_graph.bind fun _ => steady_pure _

end Describe

/-! ## The terms -/

/-- What every pool keeps. -/
def Terms.standing : Terms where
  inv w := w.store.graph.Closed
  change w w' := w.store.graph.Grows w'.store.graph
  admits w e := w.store.graph.value? e.config = some e.key ∧
    e.settings.isInProgress e.key = true
  asks _ _ := True
  answer _ _ _ := True
  result _ _ := True
  waits e other := e.settings.isInProgress other.key = false

theorem lax_standing : Terms.standing.Lax where
  bench {w w'} hw hg := by
    have hgrow : w.store.graph.Grows w'.store.graph := hg ▸ .refl _
    exact ⟨hgrow, hgrow.closed hw⟩
  result _ _ := trivial

/-- The standing terms suit every factory. -/
theorem suit_standing (o : Factory) : Terms.standing.Suit o where
  refl w := .refl _
  trans h₁ h₂ := h₁.trans h₂
  inv hw h := h.closed hw
  admits ha h := ⟨h.term.value ha.1, ha.2⟩
  grow {w e graph raw} _ _ hform := by
    show w.store.graph.Grows graph
    have h := Graph.grows_rawConfig o.preprocessors w.store.graph e.config
    rw [hform] at h
    exact h
  unprepared _ _ _ := trivial
  build {w e graph raw} hw _ hform := by
    have h : Terms.standing.inv { w with store := { w.store with graph } } := by
      have h := (Graph.grows_rawConfig o.preprocessors w.store.graph e.config).closed hw
      rw [hform] at h
      exact h
    cases o.strategy with
    | describe =>
      exact lax_standing.fulfils (Describe.steady_build lax_standing (fun _ => trivial) raw) h
    | counting suspends =>
      exact lax_standing.fulfils
        (Counting.steady_build lax_standing (fun _ _ _ _ => trivial) suspends) h
  direct _ _ _ _ := trivial
  start _ _ _ h := ⟨h.value, (Settings.isInProgress_descend ..).mpr (.inl rfl)⟩
  share {w e e' d key} _ _ _ h _ hkey := by
    refine ⟨?_, fun _ _ => trivial⟩
    show e.settings.isInProgress e'.key = false
    rw [hkey]
    exact h.notInProgress

end Wiring

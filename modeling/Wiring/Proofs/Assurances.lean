import Wiring.Proofs.Descriptions
import Wiring.Proofs.Terms

/-!
# Builds that compute recursions

`Build.Within` forgets at each request what the build knows of the workbench, up to an invariant.
`Build.Assures` is the precondition of builds that know more: until it goes on, the workbench changes
only as the terms allow, so what no change can undo holds afterwards too.

On such terms a build computes a recursion (`Build.Computes`) if it gives what the recursion gives
whenever its requests are answered as the recursion calls itself. There is one lemma for each way of
putting builds together.
-/

namespace Wiring

/-- Allowed changes of the workbench add up to allowed changes. -/
structure Terms.Cumulative (T : Terms) : Prop where
  refl : ∀ w, T.change w w
  trans : ∀ {w₁ w₂ w₃}, T.change w₁ w₂ → T.change w₂ w₃ → T.change w₁ w₃

namespace Build

variable {α β : Type}

/-- A plan keeps the terms of an errand. A condition holds of its value and the workbench then, or
another one of its error. -/
def Assures (T : Terms) (e : Errand) (good : α → Workbench → Prop) (bad : BuildError → Prop) :
    Build α → Workbench → Prop
  | .done a, w => good a w
  | .fail x, _ => bad x
  | .endless, _ => True
  | .suspend next, w => ∀ w', T.change w w' → next.Assures T e good bad w'
  | .request d next, w => T.asks e d ∧ (∀ x, T.answer e d (.error x) → bad x) ∧
      ∀ v, T.answer e d (.ok v) → ∀ w', T.change w w' → (next v).Assures T e good bad w'
  | .read next, w => (next w).Assures T e good bad w
  | .write w' next, w => T.change w w' ∧ next.Assures T e good bad w'

variable {T : Terms} {e : Errand}

/-- Terms are kept through one plan after the other. -/
theorem assures_bind {b : Build α} {f : α → Build β} {good : β → Workbench → Prop}
    {bad : BuildError → Prop} {w : Workbench} :
    (b >>= f).Assures T e good bad w ↔
      b.Assures T e (fun a w => (f a).Assures T e good bad w) bad w := by
  induction b generalizing w with
  | done a => exact Iff.rfl
  | fail x => exact Iff.rfl
  | endless => exact Iff.rfl
  | suspend next ih =>
    rw [suspend_bind]
    exact forall_congr' fun w' => imp_congr_right fun _ => ih
  | request d next ih =>
    rw [request_bind]
    exact and_congr_right fun _ => and_congr_right fun _ => forall_congr' fun v =>
      imp_congr_right fun _ => forall_congr' fun w' => imp_congr_right fun _ => ih v
  | read next ih =>
    rw [read_bind]
    exact ih w
  | write w' next ih =>
    rw [write_bind]
    exact and_congr_right fun _ => ih

theorem Assures.imp {b : Build α} {good good' : α → Workbench → Prop} {bad bad' : BuildError → Prop}
    {w : Workbench} (h : b.Assures T e good bad w) (hgood : ∀ a w, good a w → good' a w)
    (hbad : ∀ x, bad x → bad' x) : b.Assures T e good' bad' w := by
  induction b generalizing w with
  | done a => exact hgood a w h
  | fail x => exact hbad x h
  | endless => trivial
  | suspend next ih => exact fun w' hw' => ih (h w' hw')
  | request d next ih =>
    exact ⟨h.1, fun x hx => hbad x (h.2.1 x hx), fun v hv w' hw' => ih v (h.2.2 v hv w' hw')⟩
  | read next ih => exact ih w h
  | write w' next ih => exact ⟨h.1, ih h.2⟩

/-- Binding a value to a parameter stores what the check leaves, and goes on with the verdict. -/
theorem assures_capture {p : Parameter} {value : Option NodeId} {good : Unit → Workbench → Prop}
    {bad : BuildError → Prop} {w : Workbench} :
    (capture p value).Assures T e good bad w ↔
      T.change w { w with store := (p.capture w.store value).2 } ∧
      (ofExcept ((p.capture w.store value).1.mapError .range)).Assures T e good bad
        { w with store := (p.capture w.store value).2 } :=
  Iff.rfl

/-! ## Computing a recursion -/

/-- A plan gives the value or the error that a recursion gives, and changes the workbench as the
terms allow. -/
def Computes (T : Terms) (e : Errand) (b : Build α) (p : Recursion α) (w : Workbench) : Prop :=
  b.Assures T e (fun a w' => p.run = some (.ok a) ∧ T.change w w')
    (fun x => p.run = some (.error x)) w

variable (hT : T.Cumulative)
include hT

theorem computes_pure (a : α) (w : Workbench) : (pure a : Build α).Computes T e (pure a) w :=
  ⟨rfl, hT.refl w⟩

theorem computes_ofLowered (a : Range.Lowered α) (w : Workbench) :
    (ofLowered a).Computes T e (Recursion.ofLowered a) w := by
  match a with
  | none => trivial
  | some (.ok a) => exact ⟨rfl, hT.refl w⟩
  | some (.error x) => exact rfl

/-- What follows a plan may count on what the plan leaves behind. -/
theorem computes_bind {b : Build α} {f : α → Build β} {p : Recursion α} {q : α → Recursion β}
    {w : Workbench} {post : Workbench → Prop}
    (hb : b.Assures T e (fun a w' => (p.run = some (.ok a) ∧ T.change w w') ∧ post w')
      (fun x => p.run = some (.error x)) w)
    (hf : ∀ a w', p.run = some (.ok a) → T.change w w' → post w' → (f a).Computes T e (q a) w') :
    (b >>= f).Computes T e (p >>= q) w := by
  refine assures_bind.mpr (hb.imp ?_ ?_)
  · rintro a w' ⟨⟨ha, hw'⟩, hpost⟩
    refine Assures.imp (hf a w' ha hw' hpost) ?_ ?_
    · rintro b w'' ⟨hq, hw''⟩
      exact ⟨(Recursion.run_bind_ok ha q).trans hq, hT.trans hw' hw''⟩
    · exact fun x hx => (Recursion.run_bind_ok ha q).trans hx
  · exact fun x hx => Recursion.run_bind_error hx q

/-- What follows a plan may count on all that no allowed change undoes. -/
theorem Computes.bind {b : Build α} {f : α → Build β} {p : Recursion α} {q : α → Recursion β}
    {w : Workbench} (hb : b.Computes T e p w)
    (hf : ∀ a w', p.run = some (.ok a) → T.change w w' → (f a).Computes T e (q a) w') :
    (b >>= f).Computes T e (p >>= q) w :=
  computes_bind hT (hb.imp (fun _ _ h => ⟨h, trivial⟩) fun _ => id) fun a w' ha hw' _ => hf a w' ha hw'

theorem Computes.map {b : Build α} {p : Recursion α} {w : Workbench} (hb : b.Computes T e p w)
    (f : α → β) : (f <$> b).Computes T e (f <$> p) w := by
  rw [map_eq_pure_bind, map_eq_pure_bind]
  exact hb.bind hT fun a w' _ _ => computes_pure hT (f a) w'

theorem computes_each {f : α → Build β} {q : α → Recursion β} {as : List α} {w : Workbench}
    (hf : ∀ a ∈ as, ∀ w', T.change w w' → (f a).Computes T e (q a) w') :
    (each f as).Computes T e (as.mapM q) w := by
  induction as generalizing w with
  | nil =>
    rw [List.mapM_nil]
    exact computes_pure hT [] w
  | cons a as ih =>
    rw [List.mapM_cons]
    refine (hf a List.mem_cons_self w (hT.refl w)).bind hT fun b w₁ _ hw₁ => ?_
    have has := ih fun a ha w' hw' => hf a (List.mem_cons_of_mem _ ha) w' (hT.trans hw₁ hw')
    exact has.bind hT fun bs w₂ _ _ => computes_pure hT (b :: bs) w₂

omit hT

/-- What follows a look at the graph finds it as it is now. -/
theorem computes_graph {f : Graph → Build α} {p : Recursion α} {w : Workbench}
    (h : (f w.store.graph).Computes T e p w) : (graph >>= f).Computes T e p w :=
  h

/-- What follows a look at the workbench finds it as it is now. -/
theorem computes_workbench {f : Workbench → Build α} {p : Recursion α} {w : Workbench}
    (h : (f w).Computes T e p w) : (workbench >>= f).Computes T e p w :=
  h

/-- A request computes a recursion that gives what the request is answered. -/
theorem computes_ask {d : NodeId} {p : Recursion Json} (hasks : T.asks e d)
    (hanswer : ∀ r, T.answer e d r → p.run = some r) (w : Workbench) :
    (ask d).Computes T e p w :=
  ⟨hasks, fun _ hx => hanswer _ hx, fun _ hv _ hw' => ⟨hanswer _ hv, hw'⟩⟩

end Build

end Wiring

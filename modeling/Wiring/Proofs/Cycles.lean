import Wiring.Proofs.Deadlock
import Wiring.Proofs.Rounds
import Wiring.Proofs.Sessions

/-!
# Which joins are deadlocks

A pool with numbered instances breaks a cycle of dependencies where a path of requests meets its
own key again. Requests that are joined have paths of their own, but share constructions. So if two
of them enter a cycle at different configs, constructions of one path may come to wait for those of
the other, each of which has not got the key of the next one in progress
(`Session.deadlock_iff_ring`).

Without preprocessors constructions wait for dependencies of their configs only (`Terms.plain`), so
there are no deadlocks where dependencies have no cycles.
-/

namespace Wiring

open Relation

/-- The second node is a dependency of the first one. -/
def Graph.DependsOn (g : Graph) (x y : NodeId) : Prop := y ∈ g.properties x Dependency.dep

/-- A config with the first key depends on one with the second key. -/
def Graph.Depends (g : Graph) (key other : String) : Prop :=
  ∃ x y, g.value? x = some key ∧ g.DependsOn x y ∧ g.value? y = some other

/-! ## Pools without preprocessors -/

theorem rawConfig_nil_ok {g g' : Graph} {config raw : NodeId} :
    rawConfig [] g config = (.ok raw, g') ↔
      raw = config ∧ g' = g ∧ g.validate config = .ok () := by
  have h : rawConfig [] g config = (g.validate config >>= fun _ => .ok config, g) := rfl
  rw [h]
  cases hv : g.validate config with
  | ok u =>
    show ((Except.ok config : Except BuildError NodeId), g) = _ ↔ _
    simp [eq_comm]
  | error e =>
    show ((Except.error e : Except BuildError NodeId), g) = _ ↔ _
    simp

theorem rawConfig_nil_error {g g' : Graph} {config : NodeId} {e : BuildError} :
    rawConfig [] g config = (.error e, g') ↔ g' = g ∧ g.validate config = .error e := by
  have h : rawConfig [] g config = (g.validate config >>= fun _ => .ok config, g) := rfl
  rw [h]
  cases hv : g.validate config with
  | ok u =>
    show ((Except.ok config : Except BuildError NodeId), g) = _ ↔ _
    simp
  | error x =>
    show ((Except.error x : Except BuildError NodeId), g) = _ ↔ _
    simp [eq_comm, and_comm]

/-- Constructions ask for dependencies, and the graph stays as it is. -/
def Terms.plain (g : Graph) : Terms where
  inv w := w.store.graph = g
  change w w' := w'.store.graph = w.store.graph
  admits _ e := g.value? e.config = some e.key
  asks e d := g.DependsOn e.config d
  answer _ _ _ := True
  result _ _ := True
  waits e other := g.Depends e.key other.key

theorem lax_plain (g : Graph) : (Terms.plain g).Lax where
  bench hw hg := ⟨hg, hg.trans hw⟩
  result _ _ := trivial

/-- The plain terms suit factories of numbered instances that have no preprocessors. -/
theorem suit_plain (g : Graph) {o : Factory} {suspends : Bool}
    (hs : o.strategy = .counting suspends) (hp : o.preprocessors = []) :
    (Terms.plain g).Suit o where
  refl _ := rfl
  trans h₁ h₂ := h₂.trans h₁
  inv hw h := h.trans hw
  admits ha _ := ha
  grow {w e graph raw} _ _ hform := by
    rw [hp] at hform
    cases raw with
    | ok raw => exact (rawConfig_nil_ok.mp hform).2.1
    | error x => exact (rawConfig_nil_error.mp hform).1
  unprepared _ _ _ := trivial
  build {w e graph raw} hw _ hform := by
    rw [hp] at hform
    obtain ⟨rfl, rfl, -⟩ := rawConfig_nil_ok.mp hform
    rw [hs]
    refine (lax_plain g).fulfils
      (Counting.steady_build (lax_plain g) (fun w hw d hd => ?_) suspends) hw
    have hw : w.store.graph = g := hw
    rwa [hw] at hd
  direct _ _ _ _ := trivial
  start {w e d key} hw _ _ h := by
    have hw : w.store.graph = g := hw
    exact hw ▸ h.value
  share {w e e' d key} hw ha hasks h _ hkey := by
    have hw : w.store.graph = g := hw
    refine ⟨⟨e.config, d, ha, hasks, ?_⟩, fun _ _ => trivial⟩
    rw [hkey, ← hw]
    exact h.value

/-- The plain terms grant every request. -/
theorem grants_plain (g : Graph) {o : Factory} {settings : Settings} (d : NodeId) :
    (Terms.plain g).Grants o settings d fun _ => True where
  direct _ _ := trivial
  start {w key} hw h := by
    have hw : w.store.graph = g := hw
    exact hw ▸ h.value
  share _ _ _ _ _ _ := trivial

namespace Factory

open Registry

variable {o : Factory} {settings : Settings} {f f' : Floor}

/-- A deadlock of a pool without preprocessors shows a cycle of dependencies. -/
theorem Concludes.cycle_of_deadlock {suspends : Bool} (hs : o.strategy = .counting suspends)
    (hp : o.preprocessors = []) {configs : List NodeId}
    (h : Concludes o settings (configs.map .new) f .deadlock f') (hf : f.On .standing)
    (hended : ∀ n, ¬ f.registry.IsOpen n) : ∃ key, TransGen f.graph.Depends key key := by
  have hplain : f.On (.plain f.graph) := by
    refine ⟨hf.orderly, rfl, fun n c hc => ⟨(hf.registry n c hc).1.1, ?_⟩⟩
    obtain ⟨result, hstage⟩ := result_of_not_open (hended n) hc
    rw [hstage]
    trivial
  have hgrants : ∀ d ∈ configs, (Terms.plain f.graph).Grants o settings d ((fun _ _ => True) d) :=
    fun d _ => grants_plain f.graph d
  obtain ⟨hf', -⟩ := h.on (suit_plain f.graph hs hp) hplain hgrants
  obtain ⟨c, n, -, hcycle⟩ := ((h.deadlock_iff hf hended).mp rfl).errands hf'.registry
    Errand.key f.graph.Depends fun _ _ _ _ hwaits => hwaits
  exact ⟨c.key, hcycle⟩

end Factory

/-! ## Sessions -/

namespace Session

/-- **A join of a pool with numbered instances ends, and it is a deadlock if and only if
constructions wait for each other in a ring.** Then some request is not settled, and a further
round changes nothing. The guard against cycles does not see such a ring; a single request never
leads into one; and without preprocessors there is one only where dependencies have a cycle. -/
theorem deadlock_iff_ring {cs : List Command} {answers : List Answer} {s : Session}
    (h : Session.run {} cs = some (answers, s)) {i : Nat} {p : Pool} (hp : s.pools[i]? = some p)
    {suspends : Bool} (hs : p.factory.strategy = .counting suspends)
    (hended : ∀ n, ¬ p.registry.IsOpen n) (settings : Settings) (ids : List NodeId) :
    ∃ joined s' p', s.step (.join i settings ids) = some (.joined joined, s') ∧
      s'.pools[i]? = some p' ∧ (joined = .deadlock ↔ p'.registry.Ring) ∧
      (joined = .deadlock → ∃ rs, rs.length = ids.length ∧
        (∃ r ∈ rs, ∀ result, r ≠ .settled result) ∧
        (p.factory.round settings rs).run (p'.floor s'.store) =
          some ((rs, false), p'.floor s'.store)) ∧
      (∀ m n c d, p'.registry.Awaits m n → p'.registry.construction? m = some c →
        p'.registry.construction? n = some d → c.settings.isInProgress d.key = false) ∧
      (ids.length ≤ 1 → joined ≠ .deadlock) ∧
      (p.factory.preprocessors = [] → joined = .deadlock →
        ∃ key, TransGen s.store.graph.Depends key key) := by
  have hrest := (atRest_of_run h).pools hp
  obtain ⟨joined, floor, hj⟩ := Factory.join_total hs settings ids hrest.floor hended
  have hconcludes := Factory.concludes_of_join hj
  obtain ⟨hon, -⟩ := hconcludes.upkeep hrest.floor
  obtain ⟨s', hstep, hstore, hp'⟩ := step_of_join hp hj
  have hfloor : (p.keep floor).floor s'.store = floor := by
    rw [hstore]
    rfl
  refine ⟨joined, s', p.keep floor, hstep, hp', hconcludes.deadlock_iff hrest.floor hended, ?_,
    fun m n c d hawaits hc hd => Registry.not_inProgress_of_awaits hon.registry hawaits hc hd,
    hconcludes.ne_deadlock_of_single hrest.floor hended, ?_⟩
  · rintro rfl
    obtain ⟨rs, hlength, hopen, hround⟩ := Factory.join_standstill hj hrest.floor hended
    refine ⟨rs, hlength, hopen, ?_⟩
    rw [hfloor]
    exact hround
  · rintro hnone rfl
    exact hconcludes.cycle_of_deadlock hs hnone hrest.floor hended

/-- Two configs depend on each other. -/
def interdependent : List Command :=
  [.update (.named "ex:a"), .update (.named "ex:b"), .update (.literal "App"),
    .update (.addProperty 0 Components.requireName 2),
    .update (.addProperty 1 Components.requireName 2), .update (.addProperty 0 Dependency.dep 1),
    .update (.addProperty 1 Dependency.dep 0), .openPool { strategy := .counting true } 0]

/-- If both of them are requested at once, their constructions wait for each other. -/
theorem deadlock_iff_ring_interdependent : ∃ answers s s' p',
    Session.run {} interdependent = some (answers, s) ∧
    s.step (.join 0 {} [0, 1]) = some (.joined .deadlock, s') ∧ s'.pools[0]? = some p' ∧
    p'.registry.Ring := by
  have hrun : (Session.run {} interdependent).any fun out =>
      (out.2.pools[0]?.any fun p =>
        p.registry.history.isEmpty && p.factory.strategy == .counting true) &&
      (out.2.step (.join 0 {} [0, 1])).any fun next =>
        match next.1 with | .joined .deadlock => true | _ => false := by
    decide +kernel
  obtain ⟨⟨answers, s⟩, h, hout⟩ := (Option.any_eq_true _ _).mp hrun
  obtain ⟨hpool, hnext⟩ := (Bool.and_eq_true _ _).mp hout
  obtain ⟨p, hp, hfresh⟩ := (Option.any_eq_true _ _).mp hpool
  obtain ⟨hempty, hs⟩ := (Bool.and_eq_true _ _).mp hfresh
  obtain ⟨⟨answer, s₁⟩, hstep, hanswer⟩ := (Option.any_eq_true _ _).mp hnext
  have hended : ∀ n, ¬ p.registry.IsOpen n := by
    rintro n ⟨c, hc, -⟩
    have hlt := Registry.lt_size hc
    rw [Array.isEmpty_iff.mp hempty] at hlt
    exact absurd hlt (Nat.not_lt_zero n)
  obtain ⟨joined, s', p', hstep', hp', hiff, -⟩ :=
    deadlock_iff_ring h hp (beq_iff_eq.mp hs) hended {} [0, 1]
  rw [hstep] at hstep'
  cases hstep'
  cases joined with
  | answers results => cases hanswer
  | deadlock => exact ⟨answers, s, s₁, p', h, hstep, hp', hiff.mp rfl⟩

end Session

end Wiring

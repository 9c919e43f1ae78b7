import Wiring.Proofs.Isolation

/-!
# Descriptions do not depend on what was requested before

Where arguments are isolated from each other (`Graph.Isolated`), a new pool that describes components
answers every request with the description of the node by plain recursion, however many others have
been requested before, together with it or in between, and whether they failed
(`Session.descriptions_independent`). So it answers it as it would have answered it first.
-/

namespace Wiring

open Relation Registry

variable {g : Graph} {settings : Settings} {ids : List NodeId} {e : Errand} {d x y : NodeId}
  {key : String}

/-! ## What constructions are meant for -/

/-- A config in progress makes no difference to what it refers to. -/
theorem Settings.Same.descend {s : Settings} (h : Settings.Same g y settings s)
    (hg : g.Isolated ids) (hx : g.LeadsTo ids x) (hkey : g.value? x = some key)
    (hxy : TransGen g.RefersTo x y) : Settings.Same g y settings (s.descend key) where
  values := h.values
  inProgress other hother := by
    rw [← h.inProgress other hother, Bool.eq_iff_iff, isInProgress_descend]
    refine or_iff_right fun heq => ?_
    -- the config would refer to itself
    obtain rfl := hg.distinct x y key hx (hx.trans hxy.to_reflTransGen) hkey (heq ▸ hother)
    exact hg.acyclic x hx hxy

/-- The construction of what a construction asks for is meant as well. -/
theorem Errand.Meant.descend (h : e.Meant g settings ids) (hg : g.Isolated ids)
    (hd : g.RefersTo e.config d) (hkey : Factory.Constructs g e.settings d key) :
    Errand.Meant g settings ids ⟨d, key, e.settings.descend key⟩ where
  reached := h.reached.trans (.single hd)
  constructs := by
    have hsame := (h.same d (.single hd)).inProgress key hkey.value
    exact ⟨hkey.value, hsame.symm.trans hkey.notInProgress, hkey.notVariable⟩
  same y hy := (h.same y (.head hd hy)).descend hg (h.reached.trans (.single hd)) hkey.value hy

/-- So is the construction of what a caller asks for. -/
theorem meant_of_constructs (hg : g.Isolated ids) (hd : d ∈ ids)
    (hkey : Factory.Constructs g settings d key) :
    Errand.Meant g settings ids ⟨d, key, settings.descend key⟩ where
  reached := ⟨d, hd, .refl⟩
  constructs := hkey
  same y hy := (Settings.Same.refl g y settings).descend hg ⟨d, hd, .refl⟩ hkey.value hy

/-- What is answered at once is the description. -/
theorem describes_of_direct {o : Factory} (ho : o.strategy = .describe) {s : Settings}
    {result : Except BuildError Json} (hsame : Settings.Same g d settings s)
    (h : o.Direct g s d result) : Describes g settings d result := by
  cases h with
  | missing hnone => exact describes_missing hnone
  | inProgress hkey hp =>
    rw [ho]
    exact describes_inProgress hkey (hsame.inProgress _ hkey ▸ hp)
  | @«variable» key hkey hp hv =>
    have hdescribes := describes_variable hkey (hsame.inProgress _ hkey ▸ hp) hv
    rw [Strategy.variableValue, Settings.value?, ← hsame.values] at hdescribes
    rw [ho]
    exact hdescribes

/-! ## Work on descriptions -/

/-- The rest of a build tells the description of its config. -/
abbrev Build.Tells (g : Graph) (settings : Settings) (ids : List NodeId) (e : Errand)
    (rest : Build Json) (w : Workbench) : Prop :=
  rest.Assures (.describing g settings ids) e (fun v _ => Describes g settings e.config (.ok v))
    (fun x => Describes g settings e.config (.error x)) w

/-- The build of a valid config tells its description. -/
theorem Describe.tells_build (hg : g.Isolated ids) (he : e.Meant g settings ids)
    (hvalid : g.validate e.config = .ok ()) {w : Workbench} (hw : w.Honest g ids) :
    (Describe.build e.config).Tells g settings ids e w := by
  obtain ⟨limit, hlimit⟩ := exists_limit_describes g settings
  refine Build.Assures.imp (computes_build hg he hlimit hw) ?_ ?_
  · exact fun v w' h => describes_component he.constructs hvalid h.1
  · exact fun x h => describes_component he.constructs hvalid h

/-- What a task carries on tells the description of its config. -/
def Task.Tells (g : Graph) (settings : Settings) (ids : List NodeId) (f : Floor) : Task → Prop
  | .poll _ => True
  | .drive n _ rest => ∃ c, f.registry.construction? n = some c ∧
      rest.Tells g settings ids c.toErrand f.bench
  | .wait n _ other next _ => ∃ c d, f.registry.construction? n = some c ∧
      f.registry.construction? other = some d ∧
      (∀ x, Describes g settings d.config (.error x) → Describes g settings c.config (.error x)) ∧
      ∀ v, Describes g settings d.config (.ok v) → ∀ w, f.bench.Settles g ids w →
        (next v).Tells g settings ids c.toErrand w

namespace Factory

variable {o : Factory} {f f₁ f' : Floor}

/-- What a request waits for is a construction for the config asked for. -/
theorem enter_meant (hg : g.Isolated ids) {s : Settings} {n : Nat} (hord : f.registry.Orderly)
    (hw : f.bench.Honest g ids)
    (hreg : (Terms.describing g settings ids).Registry f.registry f.bench) (hd : g.LeadsTo ids d)
    (hstart : ∀ key, Constructs g s d key → Errand.Meant g settings ids ⟨d, key, s.descend key⟩)
    (entry : o.enter d s f = (.waiting n, f₁)) :
    (Terms.describing g settings ids).Registry f₁.registry f₁.bench ∧
      ∃ c, f₁.registry.construction? n = some c ∧ c.config = d := by
  obtain ⟨key, hkey, hcase⟩ := enter_waiting entry
  rw [show f.graph = g from hw.graph] at hkey
  rcases hcase with ⟨hcur, rfl⟩ | ⟨-, hnew⟩
  · -- keys are distinct, so a construction that is shared is one for the same config
    obtain ⟨c, hc, rfl, -⟩ := (hord.current_iff key n).mp hcur
    have hmeant : c.Meant g settings ids := (hreg n c hc).1
    exact ⟨hreg, c, hc, hg.distinct _ _ _ hmeant.reached hd hmeant.constructs.value hkey.value⟩
  · cases hnew
    exact ⟨Terms.Registry.start hreg (hstart key hkey), _, construction?_start_self .., rfl⟩

/-- A build that asks for a config goes to wait for its description. -/
theorem tells_request (hg : g.Isolated ids) {n other : Nat} {c : Construction}
    {next : Json → Build Json} (hord : f.registry.Orderly) (hw : f.bench.Honest g ids)
    (hreg : (Terms.describing g settings ids).Registry f.registry f.bench)
    (hc : f.registry.construction? n = some c)
    (hb : (Build.request d next).Tells g settings ids c.toErrand f.bench)
    (entry : o.enter d c.settings f = (.waiting other, f₁)) :
    (Terms.describing g settings ids).Registry f₁.registry f₁.bench ∧
      (Task.wait n c.settings other next true).Tells g settings ids f₁ := by
  obtain ⟨hasks, herror, hok⟩ := hb
  have hmeant : c.Meant g settings ids := (hreg n c hc).1
  obtain ⟨hreg₁, d', hd', rfl⟩ := enter_meant hg hord hw hreg (hmeant.reached.trans (.single hasks))
    (fun key hkey => hmeant.descend hg hasks hkey) entry
  obtain ⟨hk, hbench, -⟩ := keeps_of_enter hord entry
  obtain ⟨c₁, hc₁, hbec⟩ := hk.leads.becomes hc
  refine ⟨hreg₁, c₁, d', hc₁, hd', ?_, ?_⟩
  · rw [hbec.errand]
    exact herror
  · rw [hbec.errand, hbench]
    exact hok

/-- **All work is on descriptions**: where arguments are isolated, each construction ends with the
description of its config, and the workbench stays honest. -/
theorem Evaluates.describes (hg : g.Isolated ids) (ho : o = { strategy := .describe }) {t : Task}
    {result : Except BuildError Json} (h : Evaluates o t f result f') (hord : f.registry.Orderly)
    (hatt : t.Attends f.registry) (hw : f.bench.Honest g ids)
    (hreg : (Terms.describing g settings ids).Registry f.registry f.bench)
    (ht : t.Tells g settings ids f) :
    f.bench.Settles g ids f'.bench ∧
      (Terms.describing g settings ids).Registry f'.registry f'.bench := by
  have hT := Terms.cumulative_describing g settings ids
  -- by induction on the work: what a build knows of its literals outlasts the work it waits for
  induction h with
  | done v =>
    obtain ⟨c, hc, hb⟩ := ht
    exact ⟨hT.refl _, Terms.Registry.finish hreg hc (hatt.open hc) hb⟩
  | fail x =>
    obtain ⟨c, hc, hb⟩ := ht
    exact ⟨hT.refl _, Terms.Registry.finish hreg hc (hatt.open hc) hb⟩
  | read _ ih => exact ih hord hatt hw hreg ht
  | write _ ih =>
    obtain ⟨c, hc, hchange, hb⟩ := ht
    obtain ⟨hchange', hreg'⟩ := ih hord hatt (hchange.honest hw) hreg ⟨c, hc, hb⟩
    exact ⟨hT.trans hchange hchange', hreg'⟩
  | answered entry _ ih =>
    obtain ⟨c, hc, hasks, -, hok⟩ := ht
    obtain ⟨rfl, hdirect⟩ := enter_answered entry
    rw [← hatt.settings hc, show Floor.graph _ = g from hw.graph] at hdirect
    have hans := describes_of_direct (ho ▸ rfl) ((hreg _ _ hc).1.same _ (.single hasks)) hdirect
    exact ih hord hatt hw hreg ⟨c, hc, hok _ hans _ (hT.refl _)⟩
  | refused entry =>
    obtain ⟨c, hc, hasks, herror, -⟩ := ht
    obtain ⟨rfl, hdirect⟩ := enter_answered entry
    rw [← hatt.settings hc, show Floor.graph _ = g from hw.graph] at hdirect
    have hans := describes_of_direct (ho ▸ rfl) ((hreg _ _ hc).1.same _ (.single hasks)) hdirect
    exact ⟨hT.refl _, Terms.Registry.finish hreg hc (hatt.open hc) (herror _ hans)⟩
  | request entry _ _ ih =>
    obtain ⟨c, hc, hb⟩ := ht
    obtain ⟨hk, hbench, hd⟩ := keeps_of_enter hord entry
    have hset := hatt.settings hc
    obtain ⟨hreg', ht'⟩ := tells_request hg hord hw hreg hc hb (hset ▸ entry)
    rw [hset] at ht'
    rw [← hbench]
    exact ih hk.orderly ⟨hatt.keeps hk, hd⟩ (hbench ▸ hw) hreg' ht'
  | @received n settings' other next moved v f f₁ result f' poll _ ihp ihr =>
    obtain ⟨c, d, hc, hd, -, hok⟩ := ht
    obtain ⟨hchange, hreg₁⟩ := ihp hord hatt.2 hw hreg trivial
    obtain ⟨hk, d₁, hd₁, hs⟩ := poll.runs.upkeep hord hatt.2
    have hk' := poll.runs.keeps_receive hord hatt.2 (some n)
    obtain ⟨c₁, hc₁, hbec⟩ := hk.leads.becomes hc
    have hres := Terms.Registry.result hreg₁ hk.leads hd hd₁ hs
    obtain ⟨hchange', hreg'⟩ := ihr hk'.orderly (hatt.1.keeps hk') (hchange.honest hw)
      (Terms.Registry.record hreg₁ _) ⟨c₁, hc₁, hbec.errand ▸ hok v hres _ hchange⟩
    exact ⟨hT.trans hchange hchange', hreg'⟩
  | @passedOn n settings' other next moved x f f₁ poll ihp =>
    obtain ⟨c, d, hc, hd, herror, -⟩ := ht
    obtain ⟨hchange, hreg₁⟩ := ihp hord hatt.2 hw hreg trivial
    obtain ⟨hk, d₁, hd₁, hs⟩ := poll.runs.upkeep hord hatt.2
    obtain ⟨c₁, hc₁, hbec⟩ := hk.leads.becomes hc
    have hres := Terms.Registry.result hreg₁ hk.leads hd hd₁ hs
    refine ⟨hchange, Terms.Registry.finish (Terms.Registry.record hreg₁ _) hc₁
      ((hatt.1.keeps hk).open hc₁) ?_⟩
    exact hbec.errand ▸ herror x hres
  | finished lookup stage => exact ⟨hT.refl _, hreg⟩
  | @unprepared n c x graph f lookup stage form =>
    have hopen : c.stage.Open := stage ▸ Stage.open_fresh
    obtain ⟨-, hp⟩ := hord.poll lookup hopen
    have hmeant : c.Meant g settings ids := (hreg _ _ lookup).1
    rw [ho] at form
    obtain ⟨rfl, hinvalid⟩ := rawConfig_nil_error.mp form
    rw [show f.graph = g from hw.graph] at hinvalid
    have hreg₁ := Terms.Registry.setStage hreg lookup hopen .running trivial
    have hc₁ := construction?_setStage_self lookup .running
    exact ⟨hT.refl _, Terms.Registry.finish hreg₁ hc₁ (hp.open hc₁)
      (describes_invalid hmeant.constructs hinvalid)⟩
  | @prepared n c raw graph f result f' lookup stage form _ ih =>
    have hopen : c.stage.Open := stage ▸ Stage.open_fresh
    obtain ⟨hord', hp⟩ := hord.pollFresh lookup stage raw
    have hmeant : c.Meant g settings ids := (hreg _ _ lookup).1
    rw [ho] at form
    obtain ⟨rfl, rfl, hvalid⟩ := rawConfig_nil_ok.mp form
    rw [show f.graph = g from hw.graph] at hvalid
    have hreg₁ := Terms.Registry.setStage hreg lookup hopen .running trivial
    have hreg₂ := Terms.Registry.setRaw hreg₁ n c.config
    obtain ⟨c₂, hc₂, hbec⟩ :=
      (leads_setRaw _ n c.config).becomes (construction?_setStage_self lookup .running)
    have hb : (o.strategy.build c.config).Tells g settings ids c₂.toErrand f.bench := by
      rw [hbec.errand, ho]
      exact Describe.tells_build hg hmeant hvalid hw
    exact ih hord' hp hw hreg₂ ⟨c₂, hc₂, hb⟩

/-- A request is resolved by the description of its config. -/
theorem Resolves.describes (hg : g.Isolated ids) (ho : o = { strategy := .describe })
    (hd : d ∈ ids) {result : Except BuildError Json} (h : Resolves o settings d f result f')
    (hf : f.On (.describing g settings ids)) :
    f'.On (.describing g settings ids) ∧ Describes g settings d result := by
  have hgraph : f.graph = g := hf.inv.graph
  cases h with
  | direct entry =>
    obtain ⟨rfl, hdirect⟩ := enter_answered entry
    rw [hgraph] at hdirect
    exact ⟨hf, describes_of_direct (ho ▸ rfl) (.refl g d settings) hdirect⟩
  | @built n _ f₁ f' entry _ poll =>
    obtain ⟨hk, hbench, -⟩ := keeps_of_enter hf.orderly entry
    obtain ⟨hreg₁, c, hc, rfl⟩ := enter_meant hg hf.orderly hf.inv hf.registry ⟨d, hd, .refl⟩
      (fun key hkey => meant_of_constructs hg hd hkey) entry
    have hw₁ : f₁.bench.Honest g ids := hbench ▸ hf.inv
    obtain ⟨hchange, hreg'⟩ := poll.describes hg ho hk.orderly ⟨c, hc⟩ hw₁ hreg₁ trivial
    obtain ⟨hk', c', hc', hs⟩ := poll.runs.upkeep hk.orderly ⟨c, hc⟩
    have hres := Terms.Registry.result hreg' hk'.leads hc hc' hs
    have hkr := poll.runs.keeps_receive hk.orderly ⟨c, hc⟩ none
    exact ⟨⟨hkr.orderly, hchange.honest hw₁, Terms.Registry.record hreg' _⟩, hres⟩

end Factory

/-! ## Joins -/

/-- A floor between requests: constructions have ended with descriptions. -/
structure Floor.Describing (g : Graph) (settings : Settings) (ids : List NodeId) (f : Floor) :
    Prop where
  standing : f.On .standing
  describing : f.On (.describing g settings ids)
  ended : ∀ n, ¬ f.registry.IsOpen n

namespace Factory

variable {o : Factory} {f f₁ f' : Floor}

/-- One poll settles a request with the description of its config. -/
theorem pollRequest_describes (hg : g.Isolated ids) (ho : o = { strategy := .describe })
    (hf : f.Describing g settings ids) (hd : d ∈ ids) :
    ∃ result f', (o.pollRequest settings (.new d)).run f = some ((.settled result, true), f') ∧
      f'.Describing g settings ids ∧ Describes g settings d result := by
  have hgraph : f.graph = g := hf.describing.inv.graph
  have hclosed : f.graph.Closed := hf.standing.inv
  have hsettles : o.Settles g := ho ▸ hg.settles (hgraph ▸ hclosed)
  obtain ⟨result, f', hrun, hresolves⟩ :=
    pollRequest_resolves hsettles settings d hf.standing.orderly hgraph hf.ended
  have hserves := serves_of_pollRequest hrun
  obtain ⟨-, hended⟩ := hserves.settles hsettles.pauseless hf.standing hf.ended fun n => nofun
  obtain ⟨hstanding, -⟩ := hserves.upkeep hf.standing nofun
  obtain ⟨hdescribing, hresult⟩ := hresolves.describes hg ho hd hf.describing
  exact ⟨result, f', hrun, ⟨hstanding, hdescribing, hended⟩, hresult⟩

/-- One round settles all requests. -/
theorem round_describes (hg : g.Isolated ids) (ho : o = { strategy := .describe })
    {configs : List NodeId} (hsub : configs ⊆ ids) (hf : f.Describing g settings ids) :
    ∃ results moved f', (o.round settings (configs.map .new)).run f =
        some ((results.map .settled, moved), f') ∧
      f'.Describing g settings ids ∧ List.Forall₂ (Describes g settings) configs results := by
  induction configs generalizing f with
  | nil => exact ⟨[], false, f, rfl, hf, .nil⟩
  | cons d configs ih =>
    obtain ⟨hd, hsub⟩ := List.cons_subset.mp hsub
    obtain ⟨result, f₁, hrun, hf₁, hresult⟩ := pollRequest_describes hg ho hf hd
    obtain ⟨results, moved, f', hrest, hf', hresults⟩ := ih hsub hf₁
    refine ⟨result :: results, true || moved, f', ?_, hf', .cons hresult hresults⟩
    exact Job.bind_eq_some.mpr ⟨_, f₁, hrun, Job.bind_eq_some.mpr ⟨_, f', hrest, rfl⟩⟩

/-- A join of some of the configs answers with their descriptions. -/
theorem join_describes (hg : g.Isolated ids) (ho : o = { strategy := .describe })
    {configs : List NodeId} (hsub : configs ⊆ ids) (hf : f.Describing g settings ids) :
    ∃ results f', (o.join settings configs).run f = some (.answers results, f') ∧
      f'.Describing g settings ids ∧ List.Forall₂ (Describes g settings) configs results := by
  obtain ⟨results, moved, f', hround, hf', hresults⟩ := round_describes hg ho hsub hf
  refine ⟨results, f', ?_, hf', hresults⟩
  have hlimit : roundLimit f.graph configs.length ≠ 0 := by simp [roundLimit]
  obtain ⟨limit, hlimit⟩ := Nat.exists_eq_succ_of_ne_zero hlimit
  refine Job.bind_eq_some.mpr ⟨f, f, rfl, ?_⟩
  show (o.rounds settings (roundLimit f.graph configs.length) _).run f = _
  rw [hlimit]
  refine Job.bind_eq_some.mpr ⟨_, f', hround, ?_⟩
  dsimp only
  rw [Request.mapM_result?_eq_some.mpr rfl]
  rfl

end Factory

/-! ## Sessions -/

namespace Session

/-- Joins of one pool, one after the other, answer with descriptions. -/
theorem run_describes (hg : g.Isolated ids) {s : Session} {i : Nat} {p : Pool}
    (hpool : s.pools[i]? = some p) (ho : p.factory = { strategy := .describe })
    (hf : (p.floor s.store).Describing g settings ids) {joins : List (List NodeId)}
    (hsub : ∀ configs ∈ joins, configs ⊆ ids) :
    ∃ results s', s.run (joins.map (.join i settings)) =
        some (results.map fun rs => .joined (.answers rs), s') ∧
      List.Forall₂ (List.Forall₂ (Describes g settings)) joins results := by
  induction joins generalizing s p with
  | nil => exact ⟨[], s, rfl, .nil⟩
  | cons configs joins ih =>
    obtain ⟨rs, floor, hj, hf', hanswers⟩ :=
      Factory.join_describes hg ho (hsub configs List.mem_cons_self) hf
    obtain ⟨s₁, hstep, hstore, hpool₁⟩ := step_of_join hpool hj
    have hfloor : (p.keep floor).floor s₁.store = floor := by
      rw [hstore]
      rfl
    obtain ⟨results, s', hrun, hrest⟩ := ih hpool₁ ho (hfloor ▸ hf') fun c hc =>
      hsub c (List.mem_cons_of_mem _ hc)
    refine ⟨rs :: results, s', ?_, .cons hanswers hrest⟩
    exact Option.bind_eq_some_iff.mpr ⟨_, hstep, Option.bind_eq_some_iff.mpr ⟨_, hrun, rfl⟩⟩

/-- **Descriptions do not depend on what was requested before.** On a graph whose literals hold no
typed values, where arguments are isolated from each other, a new pool that describes components
without preprocessors ends every sequence of joins with answers. Each answer, an instance or an error,
is the one outcome of describing the node by plain recursion, and is what the node would have been
answered as the very first request. -/
theorem descriptions_independent {cs : List Command} {answers : List Answer} {s : Session}
    (h : Session.run {} cs = some (answers, s)) (htyped : s.store.typed = ∅) {i failures : Nat}
    (hpool : s.pools[i]? = some (.new { strategy := .describe } failures)) {ids : List NodeId}
    (hg : s.store.graph.Isolated ids) (settings : Settings) {joins : List (List NodeId)}
    (hsub : ∀ configs ∈ joins, configs ⊆ ids) :
    ∃ results s', s.run (joins.map (.join i settings)) =
        some (results.map fun rs => .joined (.answers rs), s') ∧
      List.Forall₂ (List.Forall₂ fun d result =>
        (∀ r, Describes s.store.graph settings d r ↔ r = result) ∧
          ∃ s₁, s.step (.join i settings [d]) = some (.joined (.answers [result]), s₁)) joins
        results := by
  have hrest := atRest_of_run h
  have hnew : ((Pool.new { strategy := .describe } failures).floor s.store).Describing
      s.store.graph settings ids := by
    refine ⟨(hrest.pools hpool).floor, ⟨Registry.orderly_empty, ⟨rfl, fun x v hv => ?_⟩, ?_⟩, ?_⟩
    · have hv : s.store.typed[x]? = some v := hv
      rw [htyped] at hv
      cases hv
    · rintro n c ⟨⟩
    · rintro n ⟨c, hc, -⟩
      cases hc
  have hfirst : ∀ d ∈ ids, ∀ result, Describes s.store.graph settings d result →
      ∃ s₁, s.step (.join i settings [d]) = some (.joined (.answers [result]), s₁) := by
    intro d hd result hresult
    have hsingle : [d] ⊆ ids := List.cons_subset.mpr ⟨hd, List.nil_subset _⟩
    obtain ⟨_, floor, hj, -, hrow⟩ := Factory.join_describes hg rfl hsingle hnew
    cases hrow with
    | cons hfirst hnil =>
      cases hnil
      rw [hresult.unique hfirst]
      obtain ⟨s₁, hstep, -⟩ := step_of_join hpool hj
      exact ⟨s₁, hstep⟩
  obtain ⟨results, s', hrun, hanswers⟩ := run_describes hg hpool rfl hnew hsub
  refine ⟨results, s', hrun, ?_⟩
  refine ((List.forall₂_and_left _ _).mpr ⟨hsub, hanswers⟩).imp fun configs rs ⟨hconfigs, hrow⟩ => ?_
  refine ((List.forall₂_and_left _ _).mpr ⟨hconfigs, hrow⟩).imp fun d result ⟨hd, hresult⟩ => ?_
  exact ⟨fun r => ⟨fun hr => hr.unique hresult, fun hr => hr ▸ hresult⟩, hfirst d hd result hresult⟩

/-- Three components: the first one has the second one as an argument, and shares with it another
argument, whose value is an integer; the third one has an argument that is to be a list of integers,
and is not. -/
def workshop : List Command :=
  [.update (.named "ex:a"), .update (.named "ex:b"), .update (.named "ex:c"),
    .update (.literal "App"), .update (.named "ex:p"), .update (.named Xsd.integer),
    .update (.literal "1"), .update .blank, .update (.named "ex:q"), .update .blank,
    .update (.literal "2"), .update (.literal "x"), .update (.list [10, 11]), .update .blank,
    .update (.addProperty 0 Components.requireName 3),
    .update (.addProperty 1 Components.requireName 3),
    .update (.addProperty 2 Components.requireName 3), .update (.addProperty 4 Rdfs.range 5),
    .update (.addProperty 7 Components.parameter 4), .update (.addProperty 7 Components.value 6),
    .update (.addType 9 Components.rangeArray),
    .update (.addProperty 9 Components.parameterRangeValue 5),
    .update (.addProperty 8 Rdfs.range 9), .update (.addProperty 13 Components.parameter 8),
    .update (.addProperty 13 Components.value 12), .update (.addProperty 0 Components.arguments 7),
    .update (.addProperty 0 Components.arguments 1),
    .update (.addProperty 1 Components.arguments 7),
    .update (.addProperty 2 Components.arguments 13)]

/-- What the arguments in the workshop use. -/
def workshopUses (a : NodeId) : List NodeId :=
  if a = 7 then [6] else if a = 13 then [12, 10, 11] else [a]

/-- The arguments that use the literals in the workshop. -/
def workshopOwner (x : NodeId) : NodeId := if x = 6 then 7 else 13

/-- The third component is refused in both joins, and the integer before the refused item stays. The
answers are the descriptions nevertheless. -/
theorem descriptions_independent_workshop : ∃ answers s results s',
    Session.run {} (workshop ++ [.openPool { strategy := .describe } 0]) = some (answers, s) ∧
      s.run ([[0, 2], [2, 1, 0]].map (.join 0 {})) =
        some (results.map fun rs => .joined (.answers rs), s') ∧
      (s.store.typed? 10).isNone ∧ (s'.store.typed? 10).isSome ∧
      List.Forall₂ (List.Forall₂ fun d result =>
        (∀ r, Describes s.store.graph {} d r ↔ r = result) ∧
          ∃ s₁, s.step (.join 0 {} [d]) = some (.joined (.answers [result]), s₁))
        [[0, 2], [2, 1, 0]] results := by
  have hrun : (Session.run {} (workshop ++ [.openPool { strategy := .describe } 0])).any fun out =>
      out.2.pools.size == 1 && out.2.store.typed.isEmpty &&
      ((out.2.run ([[0, 2], [2, 1, 0]].map (.join 0 {}))).any fun next =>
        (next.2.store.typed? 10).isSome) &&
      (out.2.store.graph.links.all fun l => l.label.position?.isNone || decide (l.target < l.source)) &&
      ((List.range out.2.store.graph.size).all fun x =>
        (out.2.store.graph.rangeParts x).all fun y => decide (y < x)) &&
      decide (∀ x < out.2.store.graph.size, ∀ y < out.2.store.graph.size,
        out.2.store.graph.value? x = out.2.store.graph.value? y → x = y) &&
      decide (∀ x < out.2.store.graph.size, ∀ a ∈ Describe.arguments out.2.store.graph x,
        (∀ root ∈ out.2.store.graph.bound? a, root ∈ workshopUses a) ∧ ∀ y ∈ workshopUses a,
          (∀ item ∈ (out.2.store.graph.listItems? y).getD [], item ∈ workshopUses a) ∧
          ((out.2.store.graph.isVariable y || Describe.isComponent out.2.store.graph y) = true →
            x < y) ∧
          (out.2.store.graph.kind? y = some .literal → workshopOwner y = a)) := by
    decide +kernel
  obtain ⟨⟨answers, s⟩, h, hout⟩ := (Option.any_eq_true _ _).mp hrun
  simp only [Bool.and_eq_true, beq_iff_eq, decide_eq_true_eq] at hout
  obtain ⟨⟨⟨⟨⟨⟨hsize, hempty⟩, hnext⟩, hlists⟩, hranges⟩, hdistinct⟩, hused⟩ := hout
  have htyped : s.store.typed = ∅ := Std.ExtTreeMap.isEmpty_iff.mp hempty
  have hpool : s.pools[0]? = some (.new { strategy := .describe } 0) := by
    obtain ⟨as, s₁, bs, -, hopen, -⟩ := run_append h
    cases hopen
    have hzero : s₁.pools.size = 0 := by simpa using hsize
    rw [← hzero]
    exact Array.getElem?_push_size
  have hclosed := (atRest_of_run h).closed
  have hg : s.store.graph.Describable := .of_falling hclosed hlists hranges
  have hisolated : s.store.graph.Isolated [0, 1, 2] :=
    Graph.isolated_of_ascending hclosed hg hdistinct workshopUses workshopOwner hused _
  have hsub : ∀ configs ∈ [[0, 2], [2, 1, 0]], configs ⊆ [0, 1, 2] := by decide
  obtain ⟨results, s', hjoins, hanswers⟩ :=
    descriptions_independent h htyped hpool hisolated {} hsub
  rw [hjoins] at hnext
  refine ⟨answers, s, results, s', h, hjoins, ?_, hnext, hanswers⟩
  rw [Store.typed?, htyped]
  rfl

end Session

end Wiring

import Wiring.Proofs.Cycles
import Wiring.Proofs.Unfolding

/-!
# Pools agree with plain recursion

Where dependencies have no cycles and keys name one config each (`Graph.Tame`), a pool with
numbered instances answers each request as plain recursion does (`Session.answers_unfold`),
although it shares constructions, suspends them, and lets several requests carry them on.

The invariant is a set of terms (`Terms.unfolding`): the result of a construction is the unfolding
of its config under the settings of the caller. For this the settings that it hands down may differ
from those of the caller in the keys in progress only, and those that are added belong to configs
that it is a dependency of, so none of them is the key of one of its own dependencies
(`Errand.Inherits`).
-/

namespace Wiring

open Relation Counting

namespace Graph

/-- The node is one of certain nodes or a dependency of theirs, directly or not. -/
def Reaches (g : Graph) (ids : List NodeId) (x : NodeId) : Prop :=
  ∃ id ∈ ids, ReflTransGen g.DependsOn id x

/-- The dependencies of certain nodes have no cycles, and their keys are distinct. -/
structure Tame (g : Graph) (ids : List NodeId) : Prop where
  acyclic : ∀ x, g.Reaches ids x → ¬ TransGen g.DependsOn x x
  distinct : ∀ x y key, g.Reaches ids x → g.Reaches ids y → g.value? x = some key →
    g.value? y = some key → x = y

theorem Reaches.step {g : Graph} {ids : List NodeId} {x y : NodeId} (h : g.Reaches ids x)
    (hxy : g.DependsOn x y) : g.Reaches ids y := by
  obtain ⟨id, hid, hpath⟩ := h
  exact ⟨id, hid, hpath.tail hxy⟩

/-- Dependencies on later nodes only have no cycles. -/
theorem tame_of_ascending {g : Graph} (hclosed : g.Closed)
    (hascend : ∀ x < g.size, ∀ y ∈ g.properties x Dependency.dep, x < y)
    (hdistinct : ∀ x < g.size, ∀ y < g.size, g.value? x = g.value? y → x = y) (ids : List NodeId) :
    g.Tame ids where
  acyclic x _ hcycle := by
    have hlt : ∀ {x y}, TransGen g.DependsOn x y → x < y := by
      have hstep : ∀ {x y}, g.DependsOn x y → x < y := by
        intro x y hxy
        by_cases hx : x < g.size
        · exact hascend x hx y hxy
        · have hxy : y ∈ g.properties x Dependency.dep := hxy
          rw [hclosed.properties_eq_nil (Nat.le_of_not_lt hx)] at hxy
          cases hxy
      intro x y h
      induction h with
      | single hxy => exact hstep hxy
      | tail _ hxy ih => exact Nat.lt_trans ih (hstep hxy)
    exact Nat.lt_irrefl x (hlt hcycle)
  distinct x y key _ _ hx hy :=
    hdistinct x (lt_size_of_value hx) y (lt_size_of_value hy) (hx.trans hy.symm)

end Graph

/-! ## What constructions inherit -/

/-- A construction for a config that a caller's request leads to, with the caller's settings but
for keys that are in progress. -/
structure Errand.Inherits (g : Graph) (settings : Settings) (ids : List NodeId) (e : Errand) :
    Prop where
  reached : g.Reaches ids e.config
  constructs : Factory.Constructs g settings e.config e.key
  values : e.settings.values = settings.values
  keeps : ∀ key, settings.isInProgress key = true → e.settings.isInProgress key = true
  path : ∀ key, e.settings.isInProgress key = true → settings.isInProgress key = true ∨
    ∃ x, g.Reaches ids x ∧ g.value? x = some key ∧ ReflTransGen g.DependsOn x e.config

/-- Settings tell the same of a config. -/
structure Settings.Same (g : Graph) (config : NodeId) (s s' : Settings) : Prop where
  values : s'.values = s.values
  inProgress : ∀ key, g.value? config = some key → s'.isInProgress key = s.isInProgress key

variable {g : Graph} {settings : Settings} {ids : List NodeId} {e : Errand} {d : NodeId}

theorem Settings.Same.refl (g : Graph) (config : NodeId) (s : Settings) : Same g config s s :=
  ⟨rfl, fun _ _ => rfl⟩

/-- What a construction asks for is not in progress for it, unless it is for the caller. -/
theorem Errand.Inherits.same (h : e.Inherits g settings ids) (htame : g.Tame ids)
    (hd : g.DependsOn e.config d) : Settings.Same g d settings e.settings where
  values := h.values
  inProgress key hkey := by
    have hiff : e.settings.isInProgress key = true ↔ settings.isInProgress key = true := by
      refine ⟨fun hp => ?_, h.keeps key⟩
      rcases h.path key hp with hs | ⟨x, hx, hvalue, hpath⟩
      · exact hs
      · -- the config would depend on itself
        obtain rfl := htame.distinct x d key hx (h.reached.step hd) hvalue hkey
        exact absurd (TransGen.tail' hpath hd) (htame.acyclic x hx)
    exact Bool.eq_iff_iff.mpr hiff

/-- The construction of a dependency inherits too. -/
theorem Errand.Inherits.descend (h : e.Inherits g settings ids) {key : String}
    (hd : g.DependsOn e.config d) (hkey : Factory.Constructs g e.settings d key) :
    Errand.Inherits g settings ids ⟨d, key, e.settings.descend key⟩ where
  reached := h.reached.step hd
  constructs := by
    refine ⟨hkey.value, ?_, hkey.notVariable⟩
    cases hp : settings.isInProgress key with
    | false => rfl
    | true =>
      have := h.keeps key hp
      rw [hkey.notInProgress] at this
      cases this
  values := h.values
  keeps other hp := (Settings.isInProgress_descend ..).mpr (.inr (h.keeps other hp))
  path other hp := by
    rcases (Settings.isInProgress_descend ..).mp hp with rfl | hp
    · exact .inr ⟨d, h.reached.step hd, hkey.value, .refl⟩
    · refine (h.path other hp).imp_right ?_
      rintro ⟨x, hx, hvalue, hpath⟩
      exact ⟨x, hx, hvalue, hpath.tail hd⟩

/-- So does a construction that a caller asks for. -/
theorem inherits_of_constructs {key : String} (hd : d ∈ ids)
    (hkey : Factory.Constructs g settings d key) :
    Errand.Inherits g settings ids ⟨d, key, settings.descend key⟩ where
  reached := ⟨d, hd, .refl⟩
  constructs := hkey
  values := rfl
  keeps other hp := (Settings.isInProgress_descend ..).mpr (.inr hp)
  path other hp := by
    rcases (Settings.isInProgress_descend ..).mp hp with rfl | hp
    · exact .inr ⟨d, ⟨d, hd, .refl⟩, hkey.value, .refl⟩
    · exact .inl hp

/-! ## The terms -/

/-- Results are unfoldings. -/
def Terms.unfolding (g : Graph) (settings : Settings) (ids : List NodeId) : Terms where
  inv w := w.store.graph = g ∧ w.failuresLeft = 0
  change w w' := w'.store.graph = w.store.graph ∧ w'.failuresLeft = w.failuresLeft
  admits _ e := e.Inherits g settings ids
  asks e d := g.DependsOn e.config d
  answer _ d result := Unfolds g settings d (result.map erase)
  result e result := Unfolds g settings e.config (result.map erase)
  waits e other := g.DependsOn e.config other.config

/-- What is answered at once is the unfolding. -/
theorem unfolds_of_direct {o : Factory} {suspends : Bool} (hs : o.strategy = .counting suspends)
    {s : Settings} {result : Except BuildError Json} (hsame : Settings.Same g d settings s)
    (h : o.Direct g s d result) : Unfolds g settings d (result.map erase) := by
  cases h with
  | missing hnone => exact unfolds_missing hnone
  | inProgress hkey hp =>
    rw [hs]
    exact unfolds_inProgress hkey (hsame.inProgress _ hkey ▸ hp)
  | @«variable» key hkey hp hv =>
    have hunfold := unfolds_variable hkey (hsame.inProgress _ hkey ▸ hp) hv
    have hresult : (o.strategy.variableValue s key).map erase =
        Strategy.variableValue (.counting false) settings key := by
      rw [hs, Strategy.variableValue, Strategy.variableValue, Settings.value?, hsame.values,
        ← Settings.value?]
      cases settings.value? key <;> rfl
    rw [hresult]
    exact hunfold

/-- After some dependencies have been answered, asking for the others leads to the unfolding. -/
theorem within_each_ask (he : e.Inherits g settings ids) (hvalid : g.validate e.config = .ok ())
    (number : Nat) (before ds : List NodeId) (vs : List Json) (f : List Json → Json)
    (hsplit : g.properties e.config Dependency.dep = before ++ ds)
    (hbefore : List.Forall₂ (fun d v => Unfolds g settings d (.ok v)) before (vs.map erase))
    (hf : ∀ us, f us = inst number e.key (vs ++ us)) (w : Workbench) :
    (Terms.unfolding g settings ids).Fulfils e (Build.each Build.ask ds >>= fun us => .done (f us))
      w := by
  -- by induction on what is still to be asked for; the answers so far are the unfoldings `vs`
  induction ds generalizing before vs f w with
  | nil =>
    rw [List.append_nil] at hsplit
    have hunfold := unfolds_ok he.constructs hvalid (hsplit ▸ hbefore)
    rw [← erase_inst number] at hunfold
    show Unfolds g settings e.config (.ok (erase (f [])))
    rwa [hf, List.append_nil]
  | cons d ds ih =>
    rw [Build.each_ask_cons]
    refine ⟨?_, fun x hx => unfolds_error he.constructs hvalid hsplit hbefore hx,
      fun v hv w _ => ?_⟩
    · show d ∈ g.properties e.config Dependency.dep
      rw [hsplit]
      exact List.mem_append_right _ List.mem_cons_self
    · refine ih (before ++ [d]) (vs ++ [v]) (fun us => f (v :: us)) ?_ ?_ ?_ w
      · rw [hsplit, List.append_assoc, List.singleton_append]
      · rw [List.map_append]
        exact List.rel_append hbefore (.cons hv .nil)
      · intro us
        rw [hf, List.append_assoc, List.singleton_append]

/-- A build with a number leads to the unfolding of its config. -/
theorem fulfils_build (he : e.Inherits g settings ids) (hvalid : g.validate e.config = .ok ())
    (suspends : Bool) {w : Workbench} (hw : (Terms.unfolding g settings ids).inv w) :
    (Terms.unfolding g settings ids).Fulfils e (Counting.build suspends e.config) w := by
  have hassemble : ∀ number w, (Terms.unfolding g settings ids).inv w →
      (Terms.unfolding g settings ids).Fulfils e (assemble number e.config) w := by
    rintro number w ⟨rfl, hfailures⟩
    have hkey : (w.store.graph.value? e.config).getD "" = e.key := by
      rw [he.constructs.value]
      rfl
    have hdeps := within_each_ask he hvalid number []
      (w.store.graph.properties e.config Dependency.dep) [] (inst number e.key) rfl .nil
      (fun _ => rfl) w
    rw [← hkey] at hdeps
    show Build.Within _ e _ (if _ then _ else _) w
    split
    · show Build.Within _ e _ (stumble _ >>= _) w
      rw [stumble_bind]
      show Build.Within _ e _ (if _ then _ else _) w
      rw [if_neg (by omega)]
      exact hdeps
    · exact hdeps
  refine ⟨⟨rfl, rfl⟩, ?_⟩
  cases suspends with
  | true => exact fun w hw => hassemble _ w hw
  | false => exact hassemble _ _ hw

/-- The terms suit factories of numbered instances that have no preprocessors. -/
theorem suit_unfolding (htame : g.Tame ids) {o : Factory} {suspends : Bool}
    (hs : o.strategy = .counting suspends) (hp : o.preprocessors = []) :
    (Terms.unfolding g settings ids).Suit o where
  refl _ := ⟨rfl, rfl⟩
  trans h₁ h₂ := ⟨h₂.1.trans h₁.1, h₂.2.trans h₁.2⟩
  inv hw h := ⟨h.1.trans hw.1, h.2.trans hw.2⟩
  admits ha _ := ha
  grow {w e graph raw} _ _ hform := by
    rw [hp] at hform
    cases raw with
    | ok raw => exact ⟨(rawConfig_nil_ok.mp hform).2.1, rfl⟩
    | error x => exact ⟨(rawConfig_nil_error.mp hform).1, rfl⟩
  unprepared {w e graph x} hw he hform := by
    obtain ⟨rfl, -⟩ := hw
    rw [hp] at hform
    obtain ⟨-, hvalid⟩ := rawConfig_nil_error.mp hform
    exact unfolds_invalid he.constructs hvalid
  build {w e graph raw} hw he hform := by
    obtain ⟨rfl, hfailures⟩ := hw
    rw [hp] at hform
    obtain ⟨rfl, rfl, hvalid⟩ := rawConfig_nil_ok.mp hform
    rw [hs]
    exact fulfils_build he hvalid suspends ⟨rfl, hfailures⟩
  direct {w e d result} hw he hd h := by
    obtain ⟨rfl, -⟩ := hw
    exact unfolds_of_direct hs (he.same htame hd) h
  start {w e d key} hw he hd hkey := by
    obtain ⟨rfl, -⟩ := hw
    exact he.descend hd hkey
  share {w e e' d key} hw he hd hkey he' hkey' := by
    obtain ⟨rfl, -⟩ := hw
    -- keys are distinct, so the construction is one for the config that is asked for
    obtain rfl : e'.config = d := htame.distinct _ _ key he'.reached (he.reached.step hd)
      (hkey' ▸ he'.constructs.value) hkey.value
    exact ⟨hd, fun _ => id⟩

/-- The terms grant requests for the given configs their unfoldings. -/
theorem grants_unfolding (htame : g.Tame ids) {o : Factory} {suspends : Bool}
    (hs : o.strategy = .counting suspends) (hd : d ∈ ids) :
    (Terms.unfolding g settings ids).Grants o settings d
      fun result => Unfolds g settings d (result.map erase) where
  direct {w result} hw h := by
    obtain ⟨rfl, -⟩ := hw
    exact unfolds_of_direct hs (.refl _ _ _) h
  start {w key} hw hkey := by
    obtain ⟨rfl, -⟩ := hw
    exact inherits_of_constructs hd hkey
  share {w e key} hw hkey he hkey' := by
    obtain ⟨rfl, -⟩ := hw
    obtain rfl : e.config = d := htame.distinct _ _ key he.reached ⟨d, hd, .refl⟩
      (hkey' ▸ he.constructs.value) hkey.value
    exact fun _ => id

/-! ## Joins -/

/-- A floor between joins: results are unfoldings, and nothing is open. -/
structure Floor.Unfolded (g : Graph) (settings : Settings) (ids : List NodeId) (f : Floor) :
    Prop where
  standing : f.On .standing
  unfolding : f.On (.unfolding g settings ids)
  ended : ∀ n, ¬ f.registry.IsOpen n

/-- A join of some of the configs answers with their unfoldings. -/
theorem Factory.join_unfolds (htame : g.Tame ids) {o : Factory} {suspends : Bool}
    (hs : o.strategy = .counting suspends) (hp : o.preprocessors = []) {f : Floor}
    (hf : f.Unfolded g settings ids) {configs : List NodeId} (hsub : configs ⊆ ids) :
    ∃ results f', (o.join settings configs).run f = some (.answers results, f') ∧
      f'.Unfolded g settings ids ∧
      List.Forall₂ (fun d result => Unfolds g settings d (result.map erase)) configs results := by
  obtain ⟨joined, f', hj⟩ := join_total hs settings configs hf.standing hf.ended
  have hconcludes := concludes_of_join hj
  have hgrants : ∀ d ∈ configs, (Terms.unfolding g settings ids).Grants o settings d
      ((fun d result => Unfolds g settings d (result.map erase)) d) :=
    fun d hd => grants_unfolding htame hs (hsub hd)
  obtain ⟨hf', -, -, hanswers⟩ := hconcludes.on (suit_unfolding htame hs hp) hf.unfolding hgrants
  obtain ⟨hstanding, -⟩ := hconcludes.upkeep hf.standing
  cases joined with
  | deadlock =>
    -- a ring of constructions would be a cycle of dependencies
    have hring := (hconcludes.deadlock_iff hf.standing hf.ended).mp rfl
    obtain ⟨c, n, hc, hcycle⟩ := hring.errands hf'.registry Errand.config g.DependsOn
      fun _ _ _ _ hwaits => hwaits
    exact absurd hcycle (htame.acyclic _ (hf'.registry n c hc).1.reached)
  | answers results =>
    exact ⟨results, f', hj, ⟨hstanding, hf', hconcludes.all_ended hf.standing hf.ended⟩,
      hanswers results rfl⟩

/-! ## Sessions -/

namespace Session

/-- Joins of one pool, one after the other, answer with unfoldings. -/
theorem run_joins (htame : g.Tame ids) {o : Factory} {suspends : Bool}
    (hs : o.strategy = .counting suspends) (hp : o.preprocessors = []) {s : Session} {i : Nat}
    {p : Pool} (hpool : s.pools[i]? = some p) (ho : p.factory = o)
    (hf : (p.floor s.store).Unfolded g settings ids) {joins : List (List NodeId)}
    (hsub : ∀ configs ∈ joins, configs ⊆ ids) :
    ∃ results s', s.run (joins.map (.join i settings)) =
        some (results.map fun rs => .joined (.answers rs), s') ∧
      List.Forall₂ (List.Forall₂ fun d result => Unfolds g settings d (result.map erase)) joins
        results := by
  induction joins generalizing s p with
  | nil => exact ⟨[], s, rfl, .nil⟩
  | cons configs joins ih =>
    obtain ⟨rs, floor, hj, hf', hanswers⟩ :=
      Factory.join_unfolds htame hs hp hf (hsub configs List.mem_cons_self)
    obtain ⟨s₁, hstep, hstore, hpool₁⟩ := step_of_join hpool (ho ▸ hj)
    have hfloor : (p.keep floor).floor s₁.store = floor := by
      rw [hstore]
      rfl
    obtain ⟨results, s', hrun, hrest⟩ := ih hpool₁ ho (hfloor ▸ hf') fun c hc =>
      hsub c (List.mem_cons_of_mem _ hc)
    refine ⟨rs :: results, s', ?_, .cons hanswers hrest⟩
    exact Option.bind_eq_some_iff.mpr ⟨_, hstep, Option.bind_eq_some_iff.mpr ⟨_, hrun, rfl⟩⟩

/-- **Pools agree with plain recursion**: joins of a new pool with numbered instances end with
answers, and without numbers each answer is the one outcome of the unfolding of its config. -/
theorem answers_unfold {cs : List Command} {answers : List Answer} {s : Session}
    (h : Session.run {} cs = some (answers, s)) {i : Nat} {suspends : Bool}
    (hpool : s.pools[i]? = some (.new { strategy := .counting suspends } 0)) {ids : List NodeId}
    (htame : s.store.graph.Tame ids) (settings : Settings) {joins : List (List NodeId)}
    (hsub : ∀ configs ∈ joins, configs ⊆ ids) :
    ∃ results s', s.run (joins.map (.join i settings)) =
        some (results.map fun rs => .joined (.answers rs), s') ∧
      List.Forall₂ (List.Forall₂ fun d result =>
        ∀ r, Unfolds s.store.graph settings d r ↔ r = result.map erase) joins results := by
  have hrest := atRest_of_run h
  have hnew : ((Pool.new { strategy := .counting suspends } 0).floor s.store).Unfolded
      s.store.graph settings ids := by
    refine ⟨(hrest.pools hpool).floor, ⟨Registry.orderly_empty, ⟨rfl, rfl⟩, ?_⟩, ?_⟩
    · rintro n c ⟨⟩
    · rintro n ⟨c, hc, -⟩
      cases hc
  obtain ⟨results, s', hrun, hanswers⟩ := run_joins htame rfl rfl hpool rfl hnew hsub
  refine ⟨results, s', hrun, hanswers.imp fun _ _ hrow => hrow.imp ?_⟩
  intro d result hunfolds r
  exact ⟨fun hr => hr.unique hunfolds, fun hr => hr ▸ hunfolds⟩

/-- A config depends on two others, and the first of them on the second. -/
def diamond : List Command :=
  [.update (.named "ex:a"), .update (.named "ex:b"), .update (.named "ex:c"),
    .update (.literal "App"), .update (.addProperty 0 Components.requireName 3),
    .update (.addProperty 1 Components.requireName 3),
    .update (.addProperty 2 Components.requireName 3), .update (.addProperty 0 Dependency.dep 1),
    .update (.addProperty 0 Dependency.dep 2), .update (.addProperty 1 Dependency.dep 2)]

/-- Two joins of the three configs answer with their unfoldings. -/
theorem answers_unfold_diamond : ∃ answers s results s',
    Session.run {} (diamond ++ [.openPool { strategy := .counting true } 0]) = some (answers, s) ∧
      s.run ([[0, 1], [2, 0]].map (.join 0 {})) =
        some (results.map fun rs => .joined (.answers rs), s') ∧
      List.Forall₂ (List.Forall₂ fun d result =>
        ∀ r, Unfolds s.store.graph {} d r ↔ r = result.map erase) [[0, 1], [2, 0]] results := by
  have hrun : (Session.run {} (diamond ++ [.openPool { strategy := .counting true } 0])).any
      fun out => out.2.pools.size == 1 &&
      ((List.range out.2.store.graph.size).all fun x =>
        (out.2.store.graph.properties x Dependency.dep).all fun y => decide (x < y)) &&
      (List.range out.2.store.graph.size).all fun x =>
        (List.range out.2.store.graph.size).all fun y =>
          decide (out.2.store.graph.value? x = out.2.store.graph.value? y → x = y) := by
    decide +kernel
  obtain ⟨⟨answers, s⟩, h, hout⟩ := (Option.any_eq_true _ _).mp hrun
  simp only [Bool.and_eq_true, beq_iff_eq, List.all_eq_true, List.mem_range, decide_eq_true_eq]
    at hout
  obtain ⟨⟨hsize, hascend⟩, hdistinct⟩ := hout
  have hpool : s.pools[0]? = some (.new { strategy := .counting true } 0) := by
    obtain ⟨as, s₁, bs, -, hopen, -⟩ := run_append h
    cases hopen
    have hzero : s₁.pools.size = 0 := by simpa using hsize
    rw [← hzero]
    exact Array.getElem?_push_size
  have htame : s.store.graph.Tame [0, 1, 2] :=
    Graph.tame_of_ascending (atRest_of_run h).closed hascend hdistinct _
  have hsub : ∀ configs ∈ [[0, 1], [2, 0]], configs ⊆ [0, 1, 2] := by decide
  obtain ⟨results, s', hjoins, hanswers⟩ := answers_unfold h hpool htame {} hsub
  exact ⟨answers, s, results, s', h, hjoins, hanswers⟩

end Session

end Wiring

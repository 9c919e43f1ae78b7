import Wiring.Proofs.BackEdges
import Wiring.Proofs.Lineage
import Wiring.Proofs.Sharing
import Wiring.Proofs.Values

/-!
# What tells configs apart

A pool knows a config by its value alone. Different nodes with one value are one config to it: they
share constructions and instances, and each of them is cut off while the other one is under way on the
path of the request (`Session.identity_is_value`). Nodes with a value of their own are never confused.

Such nodes exist, since the graph tells nodes apart by their kinds as well, and literals by their
mentions.
-/

namespace Wiring

/-- When a construction of a key has succeeded, all that is to be had from then on is that one. -/
theorem Journal.Lawful.kept {j later : Journal} (hj : Lawful (j ++ later)) {m n : Nat} {key : String}
    {v : Json} (hm : .started m key ∈ j) (hv : .ended m (.ok v) ∈ j)
    (hn : .started n key ∈ j ++ later) (hlive : ∀ e, .ended n (.error e) ∉ j) : n = m := by
  rcases List.mem_append.mp hn with hn | hn
  · by_contra hne
    rcases hj.left.failed_of_ne hm hn (Ne.symm hne) with ⟨e, he⟩ | ⟨e, he⟩
    · cases hj.left.ended_unique hv he
    · exact hlive e he
  · -- a later construction may start only if the other one has failed
    obtain ⟨before, after, rfl⟩ := List.append_of_mem hn
    have hpermits : Permits (j ++ before) (.started n key) := hj _ _ after (by simp)
    obtain ⟨e, he⟩ := hpermits.2 m (List.mem_append_left _ hm)
    have he' : .ended m (.error e) ∈ j ++ (before ++ .started n key :: after) := by
      rw [← List.append_assoc]
      exact List.mem_append_left _ he
    cases hj.ended_unique (List.mem_append_left _ hv) he'

/-- A request for a config of a certain value is answered with the result of a construction that was
started for a config of that value, while the pool went on from one state to another. If there was an
instance for the value before, it is the answer. -/
structure Pool.AnswersWith (p p' : Pool) (g : Graph) (value : String)
    (result : Except BuildError Json) (n : Nat) : Prop where
  construction : ∃ c, p'.registry.construction? n = some c ∧ g.value? c.config = some value ∧
    c.stage = .finished result
  received : .received none n result ∈ p'.registry.journal.toList
  shared : ∀ {m d v}, p.registry.construction? m = some d → g.value? d.config = some value →
    d.stage = .finished (.ok v) → n = m ∧ result = .ok v

namespace Factory

/-- Requests under the settings are cut off at certain keys, and at no others. -/
structure CutsAt (o : Factory) (settings : Settings) (cut : String → Prop) : Prop where
  placeholder : ∀ {f : Floor} {config key}, f.graph.value? config = some key → cut key →
    o.enter config settings f = (.answered (.ok o.strategy.undefined), f)
  value : ∀ {f : Floor} {config key}, f.graph.value? config = some key → ¬ cut key →
    f.graph.isVariable config = true →
    o.enter config settings f = (.answered (o.strategy.variableValue settings key), f)
  construction : ∀ {f : Floor} {config key}, f.graph.value? config = some key → ¬ cut key →
    f.graph.isVariable config = false → ∃ n f', o.enter config settings f = (.waiting n, f')

variable {o : Factory} {settings : Settings}

/-- Requests are cut off at the keys in progress. -/
theorem cutsAt_inProgress {cut : String → Prop}
    (h : ∀ key, settings.isInProgress key = true ↔ cut key) : o.CutsAt settings cut := by
  have hfree : ∀ {key}, ¬ cut key → settings.isInProgress key = false :=
    fun hcut => Bool.eq_false_iff.mpr (hcut ∘ (h _).mp)
  refine ⟨fun hv hcut => enter_inProgress hv ((h _).mpr hcut), fun hv hcut hvar => ?_,
    fun {f config key} hv hcut hvar => ?_⟩
  · simp [enter, hv, hfree hcut, hvar]
  · cases hcur : f.registry.current? key with
    | some n => exact ⟨n, f, enter_current ⟨hv, hfree hcut, hvar⟩ hcur⟩
    | none => exact ⟨_, _, enter_free ⟨hv, hfree hcut, hvar⟩ hcur⟩

/-- What a caller obtains for a config that is neither cut off nor a variable. -/
theorem Obtains.answersWith {p p' : Pool} {g g' : Graph} {config : NodeId}
    {result : Except BuildError Json} {value : String} (hp : p.AtRest g) (hp' : p'.AtRest g')
    (hl : p.registry.Leads p'.registry) (hg : g.Extends g')
    (h : o.Obtains p.registry.journal.toList p'.registry.journal.toList g g' settings config result)
    (hvalue : g.value? config = some value) (hvar : g.isVariable config = false)
    (hfree : settings.isInProgress value = false) :
    ∃ n, p.AnswersWith p' g' value result n := by
  obtain ⟨g₁, hg₁, -, hcase⟩ := h
  have hvalue₁ : g₁.value? config = some value := hg₁.term.value hvalue
  have hvar₁ : g₁.isVariable config = false := by
    rw [hg₁.isVariable hp.on.inv (Graph.lt_size_of_value hvalue), hvar]
  -- the keys of constructions are the values of their configs, now as before
  have hkey : ∀ {n c}, p'.registry.construction? n = some c → g'.value? c.config = some c.key :=
    fun hc => (hp'.on.registry _ _ hc).1.1
  have hkey₀ : ∀ {n c}, p.registry.construction? n = some c → g'.value? c.config = some c.key :=
    fun hc => hg.value (hp.on.registry _ _ hc).1.1
  rcases hcase with hdirect | ⟨key, n, hcon, hlive, hstart, hrec⟩
  · exact absurd hdirect (Constructs.mk hvalue₁ hfree hvar₁).not_direct
  · obtain rfl : value = key := Option.some.inj (hvalue₁.symm.trans hcon.value)
    have hlawful := hp'.orderly.lawful
    have hended := hlawful.ended_of_received hrec
    obtain ⟨c, hc, hs⟩ := (hp'.orderly.ended_iff n result).mp hended
    obtain ⟨c', hc', hckey⟩ := (hp'.orderly.started_iff n value).mp hstart
    obtain rfl : c = c' := Option.some.inj (hc.symm.trans hc')
    refine ⟨n, ⟨c, hc, hckey ▸ hkey hc, hs⟩, hrec, ?_⟩
    intro m d v hd hdvalue hdone
    have hdkey : d.key = value := Option.some.inj ((hkey₀ hd).symm.trans hdvalue)
    have hm := (hp.orderly.started_iff m value).mpr ⟨d, hd, hdkey⟩
    have hv := (hp.orderly.ended_iff m (.ok v)).mpr ⟨d, hd, hdone⟩
    obtain ⟨later, hlater⟩ := hl.journal
    rw [← hlater] at hlawful hstart hended
    obtain rfl := hlawful.kept hm hv hstart hlive
    exact ⟨rfl, hlawful.ended_unique hended (List.mem_append_left _ hv)⟩

end Factory

namespace Session

/-- **Configs are told apart by their values alone.** Different nodes may have one value if their
kinds differ or if they are literals. A request is answered with a construction of the value of its
config, and with an instance that another config of that value has. And a construction's requests are
cut off at the values of the configs on its path, all of which are in flight as long as it is. -/
theorem identity_is_value {cs : List Command} {answers : List Answer} {s : Session}
    (h : Session.run {} cs = some (answers, s)) {i : Nat} {p : Pool} (hp : s.pools[i]? = some p) :
    (∀ {x y value}, s.store.graph.value? x = some value → s.store.graph.value? y = some value →
      x ≠ y → s.store.graph.kind? x ≠ s.store.graph.kind? y ∨
        s.store.graph.kind? x = some .literal) ∧
      (∀ {settings configs results s'},
        s.step (.join i settings configs) = some (.joined (.answers results), s') →
        ∃ p', s'.pools[i]? = some p' ∧ List.Forall₂ (fun config result => ∀ value,
          s.store.graph.value? config = some value → s.store.graph.isVariable config = false →
          settings.isInProgress value = false →
          ∃ n, p.AnswersWith p' s'.store.graph value result n) configs results) ∧
      ∀ {n c}, p.registry.construction? n = some c → ∃ caller configs rest,
        .join i caller configs ∈ cs ∧ p.registry.Path caller (n :: rest) ∧
        (∀ m ∈ rest, Journal.Encloses p.registry.journal.toList m n) ∧
        p.factory.CutsAt c.settings fun key => caller.isInProgress key = true ∨
          ∃ m ∈ n :: rest, ∃ d, p.registry.construction? m = some d ∧
            s.store.graph.value? d.config = some key := by
  have hrest := atRest_of_run h
  refine ⟨(distinct_of_run h).kinds, ?_, ?_⟩
  · intro settings configs results s' hstep
    obtain ⟨q, floor, hq, hj, hstore, hp'⟩ := step_join hstep
    obtain rfl : p = q := Option.some.inj (hp.symm.trans hq)
    obtain ⟨hrest', hleads⟩ := (moves_of_step hstep).leads hrest
    obtain ⟨p', hp₁, -, hl⟩ := hleads.pools hp
    obtain rfl : p.keep floor = p' := Option.some.inj (hp'.symm.trans hp₁)
    have hobt := (Factory.concludes_of_join hj).obtains (hrest.pools hp).floor
    refine ⟨_, hp', hobt.imp fun config result hr value hvalue hvar hfree => ?_⟩
    have hr : p.factory.Obtains p.registry.journal.toList (p.keep floor).registry.journal.toList
        s.store.graph s'.store.graph settings config result := by
      rw [hstore]
      exact hr
    exact hr.answersWith (hrest.pools hp) (hrest'.pools hp') hl hleads.graph hvalue hvar hfree
  · intro n c hc
    obtain ⟨caller, rest, ⟨configs, hmem⟩, hpath⟩ := (raised_of_run h hp).exists_path hc
    refine ⟨caller, configs, rest, hmem, hpath,
      fun m hm => hpath.encloses (List.mem_cons_of_mem _ hm), Factory.cutsAt_inProgress fun key => ?_⟩
    rw [hpath.isInProgress_iff hc]
    -- keys of constructions are values of their configs
    refine or_congr_right (exists_congr fun m => and_congr_right fun _ => exists_congr fun d =>
      and_congr_right fun hd => ?_)
    have hvalue : s.store.graph.value? d.config = some d.key :=
      ((hrest.pools hp).on.registry m d hd).1.1
    rw [hvalue, Option.some.injEq]

/-- A named config that depends on a variable of its own name is built. A literal with the same text is
a config as well. -/
def namesakes : List Command :=
  [.update (.named "ex:a"), .update (.literal "App"), .update (.placeholder "ex:a"),
    .update (.addProperty 0 Components.requireName 1), .update (.addProperty 0 Dependency.dep 2),
    .update (.literal "ex:a"), .update (.addProperty 3 Components.requireName 1),
    .openPool { strategy := .counting false } 0,
    .join 0 (Settings.withVariable {} "ex:a" (.int 5)) [0]]

/-- The literal is answered with the instance of the named config, in which the variable has been cut
off. -/
theorem identity_is_value_namesakes : ∃ answers s p s' c v,
    Session.run {} namesakes = some (answers, s) ∧ s.pools[0]? = some p ∧
      s.store.graph.kind? 0 ≠ s.store.graph.kind? 3 ∧
      p.registry.construction? 0 = some c ∧ c.config = 0 ∧ c.stage = .finished (.ok v) ∧
      s.step (.join 0 (Settings.withVariable {} "ex:a" (.int 5)) [3]) =
        some (.joined (.answers [.ok v]), s') ∧
      ∀ f : Floor, f.graph = s.store.graph →
        p.factory.enter 2 c.settings f = (.answered (.ok p.factory.strategy.undefined), f) := by
  have hrun : (Session.run {} namesakes).any fun out =>
      ([0, 2, 3].all fun x => out.2.store.graph.value? x == some "ex:a") &&
      out.2.store.graph.kind? 0 == some .named && !out.2.store.graph.isVariable 3 &&
      (out.2.pools[0]?.any fun p => (p.registry.instance? 0).isSome &&
        (p.registry.construction? 0).any fun c => c.config == 0) &&
      (out.2.step (.join 0 (Settings.withVariable {} "ex:a" (.int 5)) [3])).any fun next =>
        (next.1.joined?.bind Joined.results?).any fun results => results.length == 1 := by
    decide +kernel
  obtain ⟨⟨answers, s⟩, h, hout⟩ := (Option.any_eq_true _ _).mp hrun
  simp only [Bool.and_eq_true, beq_iff_eq, Bool.not_eq_true', List.all_cons, List.all_nil,
    and_true] at hout
  obtain ⟨⟨⟨⟨⟨hvalue₀, hvalue₂, hvalue₃⟩, hkind⟩, hvar⟩, hpool⟩, hnext⟩ := hout
  obtain ⟨p, hp, hpool⟩ := (Option.any_eq_true _ _).mp hpool
  simp only [Bool.and_eq_true, Option.isSome_iff_exists, Option.any_eq_true] at hpool
  obtain ⟨⟨v, hv⟩, c, hc, hconfig⟩ := hpool
  have hconfig : c.config = 0 := beq_iff_eq.mp hconfig
  obtain ⟨c', hc', hs⟩ := Registry.instance?_eq_some.mp hv
  obtain rfl : c = c' := Option.some.inj (hc.symm.trans hc')
  obtain ⟨⟨answer, s'⟩, hstep, hanswer⟩ := (Option.any_eq_true _ _).mp hnext
  obtain ⟨results, hresults, hsingle⟩ := (Option.any_eq_true _ _).mp hanswer
  obtain ⟨joined, hjoined, hresults⟩ := Option.bind_eq_some_iff.mp hresults
  obtain rfl := Answer.joined?_eq_some.mp hjoined
  obtain rfl := Joined.results?_eq_some.mp hresults
  obtain ⟨result, rfl⟩ := List.length_eq_one_iff.mp (beq_iff_eq.mp hsingle)
  obtain ⟨hkinds, hjoins, hpaths⟩ := identity_is_value h hp
  have hcut : ∀ f : Floor, f.graph = s.store.graph →
      p.factory.enter 2 c.settings f = (.answered (.ok p.factory.strategy.undefined), f) := by
    obtain ⟨caller, configs, rest, -, -, -, hcuts⟩ := hpaths hc
    intro f hf
    refine hcuts.placeholder (hf ▸ hvalue₂) (.inr ⟨0, List.mem_cons_self, c, hc, ?_⟩)
    rw [hconfig, hvalue₀]
  have hkind₀₃ : s.store.graph.kind? 0 ≠ s.store.graph.kind? 3 := by
    refine (hkinds hvalue₀ hvalue₃ (by decide)).resolve_right fun hliteral => ?_
    rw [hkind] at hliteral
    cases hliteral
  obtain ⟨p', -, hresults⟩ := hjoins hstep
  cases hresults with
  | cons hhead _ =>
    obtain ⟨n, hn⟩ := hhead "ex:a" hvalue₃ hvar (Settings.isInProgress_new _)
    have hlater := ((moves_of_step hstep).leads (atRest_of_run h)).2.graph.value hvalue₀
    obtain ⟨-, rfl⟩ := hn.shared hc (hconfig ▸ hlater) hs
    exact ⟨answers, s, p, s', c, v, h, hp, hkind₀₃, hc, hconfig, hs, hstep, hcut⟩

end Session

end Wiring

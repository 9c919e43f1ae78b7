import Wiring.Proofs.Counts
import Wiring.Proofs.Failures
import Wiring.Proofs.Ownership
import Wiring.Proofs.Sharing

/-!
# No failure is cached

In a session without deadlocks, every current construction of every pool has succeeded between
commands (`Pool.Sound`). A command keeps the entries that were there and adds only such whose
construction has succeeded in it (`Pool.Advances`). When a join of one request fails, all that was
under construction when the error arose is free again (`Factory.Concludes.failure_absent`).
-/

namespace Wiring

open Journal

namespace Factory

open Registry

variable {o : Factory} {settings : Settings} {f f' : Floor}

/-! ## After a failure -/

/-- A journal that goes on after a failure has it behind all that happened before and all that did
not fail. -/
theorem failure_split {j k unwind before after : Journal} {n : Nat} {x : BuildError}
    (h : j ++ k ++ unwind = before ++ .ended n (.error x) :: after) (hk : Clean k)
    (hlen : j.length ≤ before.length) : j ++ k <+: before := by
  rcases List.append_eq_append_iff.mp h with ⟨rest, hrest, -⟩ | ⟨rest, hrest, hafter⟩
  · exact ⟨rest, hrest.symm⟩
  · cases rest with
    | nil => exact ⟨[], by simpa using hrest⟩
    | cons y rest =>
      obtain ⟨rfl, -⟩ := List.cons.inj hafter
      -- the failure would be in the part without failures
      rcases List.append_eq_append_iff.mp hrest with ⟨tail, hbefore, hk'⟩ | ⟨tail, hj, hrest'⟩
      · exact absurd (hk' ▸ List.mem_append_right tail List.mem_cons_self) (hk n x)
      · cases tail with
        | nil =>
          rw [List.nil_append] at hrest'
          exact absurd (hrest' ▸ List.mem_cons_self) (hk n x)
        | cons z tail =>
          rw [hj, List.length_append, List.length_cons] at hlen
          omega

/-- Where nothing is open, current constructions have succeeded. -/
theorem succeeded_of_current {r : Registry} (hord : r.Orderly) (hended : ∀ n, ¬ r.IsOpen n)
    {key : String} {n : Nat} (hcur : r.current? key = some n) :
    ∃ c v, r.construction? n = some c ∧ c.key = key ∧ c.stage = .finished (.ok v) := by
  obtain ⟨c, hc, hkey, hlive⟩ := (hord.current_iff key n).mp hcur
  obtain ⟨result, hs⟩ := Registry.result_of_not_open (hended n) hc
  cases result with
  | ok v => exact ⟨c, v, hc, hkey, hs⟩
  | error e => exact absurd ⟨e, hs⟩ hlive

/-- Constructions that have not ended before an error unwinds have no successor. -/
theorem absent_of_unwinding {r : Registry} {j unwind : Journal} {e : BuildError}
    (hord : r.Orderly) (hended : ∀ n, ¬ r.IsOpen n) (hj : r.journal.toList = j ++ unwind)
    (hunwind : Unwinds e unwind) {k : Nat} {key : String}
    (hstart : .started k key ∈ r.journal.toList) (hlate : ∀ result, .ended k result ∉ j) :
    r.current? key = none := by
  cases hcur : r.current? key with
  | none => rfl
  | some m =>
    exfalso
    obtain ⟨c, v, hc, hckey, hs⟩ := succeeded_of_current hord hended hcur
    have hstartm : .started m key ∈ r.journal.toList := (hord.started_iff m key).mpr ⟨c, hc, hckey⟩
    have hended : .ended m (.ok v) ∈ r.journal.toList := (hord.ended_iff m _).mpr ⟨c, hc, hs⟩
    have hearly : .ended m (.ok v) ∈ j :=
      (List.mem_append.mp (hj ▸ hended)).resolve_right hunwind.not_succeeded
    have hne : k ≠ m := by
      rintro rfl
      exact hlate _ hearly
    have hne : Event.started k key ≠ .started m key := fun h => hne (Event.started.inj h).1
    rcases split_of_ne hstart hstartm hne with ⟨before, after, heq, hmem⟩ | ⟨before, after, heq, hmem⟩
    · -- the successor was started after the failure, when nothing is started any more
      obtain ⟨x, hx⟩ := (hord.lawful before _ after heq).2 k hmem
      rw [hj] at heq
      rcases List.append_eq_append_iff.mp heq with ⟨rest, hrest, hun⟩ | ⟨rest, hrest, -⟩
      · exact absurd (hun ▸ List.mem_append_right _ List.mem_cons_self) (hunwind.not_started m key)
      · exact hlate _ (hrest ▸ List.mem_append_left _ hx)
    · obtain ⟨x, hx⟩ := (hord.lawful before _ after heq).2 m hmem
      cases hord.lawful.ended_unique (heq ▸ List.mem_append_left _ hx) hended

/-- An existing config that is no variable is answered an error by a construction only. -/
theorem Obtains.received_error {j j' : Journal} {g g' : Graph} {d : NodeId} {e : BuildError}
    (h : o.Obtains j j' g g' settings d (.error e)) (hg : g.Closed) {key : String}
    (hvalue : g.value? d = some key) (hvar : g.isVariable d = false) :
    ∃ n, (∀ e, .ended n (.error e) ∉ j) ∧ .started n key ∈ j' ∧
      .received none n (.error e) ∈ j' := by
  obtain ⟨graph, hgrow, -, hcase⟩ := h
  have hvalue' : graph.value? d = some key := hgrow.term.value hvalue
  have hvar' : graph.isVariable d = false :=
    (hgrow.isVariable hg (Graph.lt_size_of_value hvalue)).trans hvar
  rcases hcase with hdirect | ⟨key', n, hkey, hlive, hstart, hrec⟩
  · generalize hr : Except.error e = result at hdirect
    cases hdirect with
    | missing hnone =>
      rw [hvalue'] at hnone
      cases hnone
    | inProgress => cases hr
    | «variable» hv hp hisvar =>
      rw [hvar'] at hisvar
      cases hisvar
  · obtain rfl : key' = key := Option.some.inj (hkey.value.symm.trans hvalue')
    exact ⟨n, hlive, hstart, hrec⟩

/-- **After a failure**: when a join of one request fails, the key of its config is free, and so
are the keys of all constructions that were in flight when a construction failed. -/
theorem Concludes.failure_absent {d : NodeId} {e : BuildError}
    (h : Concludes o settings [.new d] f (.answers [.error e]) f') (hf : f.On .standing)
    (hended : ∀ n, ¬ f.registry.IsOpen n) :
    (∀ key, f.graph.value? d = some key → f.graph.isVariable d = false →
        f'.registry.current? key = none) ∧
      ∀ before n x after, f'.registry.journal.toList = before ++ .ended n (.error x) :: after →
        f.registry.journal.toList.length ≤ before.length →
        ∀ k key, .started k key ∈ before → InFlight before k →
          f'.registry.current? key = none := by
  have hconcludes : Concludes o settings ([d].map .new) f (.answers [.error e]) f' := h
  have hall : ∀ n, ¬ f'.registry.IsOpen n := hconcludes.all_ended hf hended
  obtain ⟨hf', -, -⟩ := hconcludes.upkeep hf
  obtain ⟨j, hj, clean, unwind, rfl, hclean, hunwind⟩ := h.fits
  rw [← List.append_assoc] at hj
  have habsent : ∀ {k key}, .started k key ∈ f'.registry.journal.toList →
      (∀ result, .ended k result ∉ f.registry.journal.toList ++ clean) →
      f'.registry.current? key = none :=
    fun hstart hlate => absent_of_unwinding hf'.orderly hall hj hunwind hstart hlate
  constructor
  · intro key hvalue hvar
    obtain ⟨hobt, -⟩ := List.forall₂_cons.mp (hconcludes.obtains hf)
    obtain ⟨n, hlive, hstart, hrec⟩ := hobt.received_error hf.inv hvalue hvar
    refine habsent hstart ?_
    intro result hresult
    have hres : result = .error e := hf'.orderly.lawful.ended_unique
      (hj ▸ List.mem_append_left _ hresult) (hf'.orderly.lawful.ended_of_received hrec)
    subst hres
    exact (List.mem_append.mp hresult).elim (hlive e) (hclean n e)
  · intro before n x after heq hlen k key hstart hflight
    have hpre := failure_split (hj ▸ heq) hclean hlen
    exact habsent (heq ▸ List.mem_append_left _ hstart) fun result hresult =>
      hflight.2 result (hpre.subset hresult)

end Factory

/-! ## Pools between commands -/

namespace Pool

/-- All entries of the cache have succeeded, and the counters are right. -/
structure Sound (p : Pool) : Prop where
  entries : ∀ key n, p.registry.current? key = some n →
    ∃ c v, p.registry.construction? n = some c ∧ c.key = key ∧ c.stage = .finished (.ok v)
  counters : ∀ suspends, p.factory.strategy = .counting suspends →
    p.cachedCount = p.registry.returns ∧ p.builds = p.registry.calls ∧
      p.builds - p.cachedCount = p.registry.failures

/-- What was in the cache is there with the same instance; what is new has been started and has
succeeded meanwhile, and its key is the value of its config. -/
structure Advances (g : Graph) (p p' : Pool) : Prop where
  kept : ∀ key n c, p.registry.current? key = some n → p.registry.construction? n = some c →
    p'.registry.current? key = some n ∧
      ∃ d, p'.registry.construction? n = some d ∧ d.toErrand = c.toErrand ∧ d.stage = c.stage
  added : ∀ key n, p'.registry.current? key = some n → p.registry.current? key ≠ some n →
    ∃ c v events, p'.registry.construction? n = some c ∧ g.value? c.config = some key ∧
      p'.registry.journal.toList = p.registry.journal.toList ++ events ∧
      .started n key ∈ events ∧ .ended n (.ok v) ∈ events

/-- Nothing is open, and the counter of builds is right. -/
structure Quiet (p : Pool) : Prop where
  ended : ∀ n, ¬ p.registry.IsOpen n
  tallied : ∀ suspends, p.factory.strategy = .counting suspends →
    p.registry.Tallied ∧ p.builds = p.registry.calls

variable {g : Graph} {p p' : Pool}

theorem Quiet.sound (h : p.Quiet) (hord : p.registry.Orderly) : p.Sound where
  entries _ _ hcur := Factory.succeeded_of_current hord h.ended hcur
  counters suspends hs := by
    obtain ⟨ht, hbuilds⟩ := h.tallied suspends hs
    obtain ⟨hsize, hcalls⟩ := ht.totals hord fun n c hc hopen => h.ended n ⟨c, hc, hopen⟩
    have hcached : p.cachedCount = p.registry.returns := hsize
    exact ⟨hcached, hbuilds, by omega⟩

/-- A quiet pool advances to each later form of it that is quiet again. -/
theorem Quiet.advances (h : p.Quiet) (h' : p'.Quiet) (hrest : p.AtRest g) {g' : Graph}
    (hrest' : p'.AtRest g') (hl : p.registry.Leads p'.registry) : p.Advances g' p' where
  kept key n c hcur hc := by
    obtain ⟨c', v, hc', hkey, hs⟩ := Factory.succeeded_of_current hrest.orderly h.ended hcur
    obtain rfl : c = c' := Option.some.inj (hc.symm.trans hc')
    obtain ⟨d, hd, hbec⟩ := hl.becomes hc
    have hds : d.stage = .finished (.ok v) := hbec.result _ hs
    refine ⟨?_, d, hd, hbec.errand, hds.trans hs.symm⟩
    refine (hrest'.orderly.current_iff key n).mpr ⟨d, hd, hbec.key.trans hkey, ?_⟩
    rintro ⟨e, he⟩
    cases hds.symm.trans he
  added key n hcur hnew := by
    obtain ⟨d, v, hd, hkey, hs⟩ := Factory.succeeded_of_current hrest'.orderly h'.ended hcur
    obtain ⟨events, hevents⟩ := hl.journal
    -- a construction that was there before would have succeeded before
    have hnone : p.registry.construction? n = none := by
      cases hc : p.registry.construction? n with
      | none => rfl
      | some c =>
        obtain ⟨d', hd', hbec⟩ := hl.becomes hc
        obtain rfl : d = d' := Option.some.inj (hd.symm.trans hd')
        refine absurd ((hrest.orderly.current_iff key n).mpr
          ⟨c, hc, hbec.key.symm.trans hkey, ?_⟩) hnew
        rintro ⟨e, he⟩
        cases hs.symm.trans (hbec.result _ he)
    have hstart := (hrest'.orderly.started_iff n key).mpr ⟨d, hd, hkey⟩
    have hended := (hrest'.orderly.ended_iff n _).mpr ⟨d, hd, hs⟩
    rw [← hevents] at hstart hended
    refine ⟨d, v, events, hd, ?_, hevents.symm, ?_, ?_⟩
    · exact hkey ▸ (hrest'.on.registry n d hd).1.1
    · refine (List.mem_append.mp hstart).resolve_left ?_
      intro hold
      obtain ⟨c, hc, -⟩ := (hrest.orderly.started_iff n key).mp hold
      rw [hnone] at hc
      cases hc
    · refine (List.mem_append.mp hended).resolve_left ?_
      intro hold
      obtain ⟨c, hc, -⟩ := (hrest.orderly.ended_iff n _).mp hold
      rw [hnone] at hc
      cases hc

end Pool

/-! ## Sessions without deadlocks -/

namespace Session

/-- Without deadlocks pools are quiet between commands. -/
theorem invariant_quiet : Invariant (· ≠ .deadlock) fun _ p => p.Quiet where
  new _ _ _ := by
    refine ⟨fun n hn => ?_, fun _ _ => ⟨fun n c hc => ?_, rfl⟩⟩
    · obtain ⟨c, hc, -⟩ := hn
      cases hc
    · cases hc
  extend h _ := h
  join {p store settings configs joined floor} hrest h hjoined hj := by
    have hconcludes := Factory.concludes_of_join hj
    constructor
    · cases joined with
      | deadlock => exact absurd rfl hjoined
      | answers results => exact hconcludes.all_ended hrest.floor h.ended
    · intro suspends hs
      exact hconcludes.counted hs hrest.floor (h.tallied suspends hs)

/-- **No failure poisons a cache.** -/
theorem failures_not_cached {cs : List Command} {answers : List Answer} {s s' : Session}
    (h : Session.run {} cs = some (answers, s)) {c : Command} {answer : Answer}
    (hstep : s.step c = some (answer, s')) (hdead : .joined .deadlock ∉ answers ++ [answer]) :
    (∀ {i : Nat} {p' : Pool}, s'.pools[i]? = some p' → p'.Sound) ∧
      (∀ {i : Nat} {p : Pool}, s.pools[i]? = some p →
        ∃ p', s'.pools[i]? = some p' ∧ p.Advances s'.store.graph p') ∧
      ∀ {i : Nat} {p : Pool} {settings d e key}, s.pools[i]? = some p →
        c = .join i settings [d] → answer = .joined (.answers [.error e]) →
        s.store.graph.value? d = some key → s.store.graph.isVariable d = false →
        ∃ p', s'.pools[i]? = some p' ∧ p'.registry.current? key = none ∧
          ∀ before n x after, p'.registry.journal.toList = before ++ .ended n (.error x) :: after →
            p.registry.journal.toList.length ≤ before.length →
            ∀ k key', .started k key' ∈ before → Journal.InFlight before k →
              p'.registry.current? key' = none := by
  have hdead₁ : ∀ joined, .joined joined ∈ answers → joined ≠ .deadlock := by
    rintro joined hmem rfl
    exact hdead (List.mem_append_left _ hmem)
  have hdead₂ : ∀ joined, answer = .joined joined → joined ≠ .deadlock := by
    rintro joined rfl rfl
    exact hdead (by simp)
  obtain ⟨hrest, hquiet⟩ := invariant_quiet.run h hdead₁
  have hmoves := moves_of_step hstep
  obtain ⟨hrest', hquiet'⟩ := invariant_quiet.moves hmoves hdead₂ hrest hquiet
  obtain ⟨-, hleads⟩ := hmoves.leads hrest
  refine ⟨fun hp' => (hquiet' hp').sound (hrest'.pools hp').orderly, fun hp => ?_, ?_⟩
  · obtain ⟨p', hp', -, hl⟩ := hleads.pools hp
    exact ⟨p', hp', (hquiet hp).advances (hquiet' hp') (hrest.pools hp) (hrest'.pools hp') hl⟩
  · rintro i p settings d e key hp rfl rfl hvalue hvar
    obtain ⟨q, floor, hq, hj, -, hp'⟩ := step_join hstep
    obtain rfl : p = q := Option.some.inj (hp.symm.trans hq)
    obtain ⟨hkey, hopen⟩ := (Factory.concludes_of_join hj).failure_absent (hrest.pools hp).floor
      (hquiet hp).ended
    exact ⟨_, hp', hkey key hvalue hvar, hopen⟩

/-- A config depends on a second one, and that on a third one, whose first build fails. -/
def chain : List Command :=
  [.update (.named "ex:a"), .update (.named "ex:b"), .update (.named "ex:c"),
    .update (.literal "App"), .update (.addProperty 0 Components.requireName 3),
    .update (.addProperty 1 Components.requireName 3),
    .update (.addProperty 2 Components.requireName 3), .update (.addProperty 0 Dependency.dep 1),
    .update (.addProperty 1 Dependency.dep 2), .update (.addProperty 2 Dependency.flaky 3),
    .openPool { strategy := .counting true } 1]

/-- A failure at the end of the chain leaves nothing of the first config in the cache. -/
theorem failures_not_cached_chain : ∃ answers s s' e p', Session.run {} chain = some (answers, s) ∧
    s.step (.join 0 {} [0]) = some (.joined (.answers [.error e]), s') ∧
    s'.pools[0]? = some p' ∧ p'.Sound ∧ p'.registry.current? "ex:a" = none := by
  have hrun : (Session.run {} chain).any fun out =>
      (out.1.all fun answer => answer.joined?.isNone) &&
      out.2.store.graph.value? 0 == some "ex:a" && !out.2.store.graph.isVariable 0 &&
      out.2.pools[0]?.isSome && (out.2.step (.join 0 {} [0])).any fun next =>
        (next.1.joined?.bind Joined.results?).any fun results =>
          results.length == 1 && results.all fun result => !result.isOk := by
    decide +kernel
  obtain ⟨⟨answers, s⟩, h, hout⟩ := (Option.any_eq_true _ _).mp hrun
  simp only [Bool.and_eq_true, beq_iff_eq, Bool.not_eq_true'] at hout
  obtain ⟨⟨⟨⟨hanswers, hvalue⟩, hvar⟩, hpool⟩, hnext⟩ := hout
  obtain ⟨p, hp⟩ := Option.isSome_iff_exists.mp hpool
  obtain ⟨⟨answer, s'⟩, hstep, hanswer⟩ := (Option.any_eq_true _ _).mp hnext
  obtain ⟨results, hresults, hfailed⟩ := (Option.any_eq_true _ _).mp hanswer
  obtain ⟨joined, hjoined, hresults⟩ := Option.bind_eq_some_iff.mp hresults
  obtain rfl := Answer.joined?_eq_some.mp hjoined
  obtain rfl := Joined.results?_eq_some.mp hresults
  simp only [Bool.and_eq_true, beq_iff_eq] at hfailed
  obtain ⟨result, rfl⟩ := List.length_eq_one_iff.mp hfailed.1
  cases result with
  | ok v => cases hfailed.2
  | error e =>
    have hdead : Answer.joined .deadlock ∉ answers ++ [.joined (.answers [.error e])] := by
      intro hmem
      rcases List.mem_append.mp hmem with hmem | hmem
      · have := List.all_eq_true.mp hanswers _ hmem
        cases this
      · cases List.mem_singleton.mp hmem
    obtain ⟨hsound, -, hfail⟩ := failures_not_cached h hstep hdead
    obtain ⟨p', hp', hkey, -⟩ := hfail hp rfl rfl hvalue hvar
    exact ⟨answers, s, s', e, p', h, hstep, hp', hsound hp', hkey⟩

end Session

end Wiring

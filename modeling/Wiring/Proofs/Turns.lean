import Wiring.Proofs.Cache
import Wiring.Proofs.Evaluation
import Wiring.Proofs.Suspension

/-!
# Requests in turn

Where builds never suspend themselves, the first poll of a request answers it. So a join of several
requests is over after one round, and what it does is what joins of the single requests do one after the
other (`Session.join_in_turn`): no request ever finds another one half done. In particular a config whose
build has failed is built anew for the next request for it.

`Factory.InTurn` relates the floors before and after requests that are answered one after the other, each of
them in a single poll.
-/

namespace Wiring

/-- A key that is free at first has a later construction, which has come to a result. -/
structure Registry.Retries (r r' : Registry) (key : String) (result : Except BuildError Json) :
    Prop where
  free : r.current? key = none
  restarted : ∃ n c, r.history.size ≤ n ∧ r'.construction? n = some c ∧ c.key = key ∧
    c.stage = .finished result

/-- A retry stays one while the registry goes on. -/
theorem Registry.Retries.leads {r r₁ r' : Registry} {key : String} {result : Except BuildError Json}
    (h : r.Retries r₁ key result) (hl : r₁.Leads r') : r.Retries r' key result := by
  obtain ⟨hfree, n, c, hn, hc, rfl, hs⟩ := h
  obtain ⟨d, hd, hbecomes⟩ := hl.becomes hc
  exact ⟨hfree, n, d, hn, hd, hbecomes.key, hbecomes.result result hs⟩

/-- A floor between commands, on which nothing is open. -/
structure Floor.Idle (f : Floor) : Prop where
  on : f.On .standing
  ended : ∀ n, ¬ f.registry.IsOpen n

/-- A construction that has not failed before is a new one if its key was free. -/
theorem Floor.Idle.size_le {f f' : Floor} {key : String} {n : Nat} {c : Construction} (hf : f.Idle)
    (hleads : f.registry.Leads f'.registry) (hfree : f.registry.current? key = none)
    (hlive : ∀ e, .ended n (.error e) ∉ f.registry.journal.toList)
    (hc : f'.registry.construction? n = some c) (hkey : c.key = key) :
    f.registry.history.size ≤ n := by
  by_contra hlt
  obtain ⟨d, hd⟩ : ∃ d, f.registry.construction? n = some d :=
    ⟨_, Array.getElem?_eq_getElem (Nat.lt_of_not_le hlt)⟩
  obtain ⟨c', hc', hbecomes⟩ := hleads.becomes hd
  obtain rfl : c = c' := Option.some.inj (hc.symm.trans hc')
  have hnot : ¬ d.Failed := fun ⟨e, he⟩ => hlive e ((hf.on.orderly.ended_iff n _).mpr ⟨d, hd, he⟩)
  have hcurrent := (hf.on.orderly.current_iff key n).mpr ⟨d, hd, hbecomes.key.symm.trans hkey, hnot⟩
  cases hfree.symm.trans hcurrent

namespace Factory

/-- Requests are answered one after the other, each in a single poll. -/
inductive InTurn (o : Factory) (settings : Settings) :
    List NodeId → Floor → List (Except BuildError Json) → Floor → Prop
  | nil {f} : InTurn o settings [] f [] f
  | cons {config configs result results f f₁ f'} (head : Answers o settings config f result f₁)
      (tail : InTurn o settings configs f₁ results f') :
      InTurn o settings (config :: configs) f (result :: results) f'

variable {o : Factory} {settings : Settings} {config : NodeId} {configs : List NodeId}
  {result : Except BuildError Json} {results : List (Except BuildError Json)} {f f₁ f₂ f' : Floor}

/-- A config is still requested from a construction in a later graph. -/
theorem Constructs.grows {g g' : Graph} {key : String} (h : Constructs g settings config key)
    (hg : g.Grows g') (hclosed : g.Closed) : Constructs g' settings config key where
  value := hg.term.value h.value
  notInProgress := h.notInProgress
  notVariable := (hg.isVariable hclosed (Graph.lt_size_of_value h.value)).trans h.notVariable

/-- A join that is answered leaves a floor idle. -/
theorem Concludes.idle (h : Concludes o settings (configs.map .new) f (.answers results) f')
    (hf : f.Idle) : f'.Idle ∧ f.registry.Leads f'.registry ∧ f.graph.Grows f'.graph := by
  obtain ⟨hon, hkeeps, hgrows⟩ := h.upkeep hf.on
  exact ⟨⟨hon, h.all_ended hf.on hf.ended⟩, hkeeps.leads, hgrows⟩

/-- A request that is answered leaves a floor idle. -/
theorem Answers.idle (h : Answers o settings config f result f') (hf : f.Idle) :
    f'.Idle ∧ f.registry.Leads f'.registry ∧ f.graph.Grows f'.graph := by
  have hconcludes : Concludes o settings ([config].map .new) f (.answers [result]) f' := h.concludes
  exact hconcludes.idle hf

/-- Where builds do not suspend themselves, a request is answered in a single poll. -/
theorem exists_answers (hf : f.Idle) (hs : o.strategy = .counting false) (settings : Settings)
    (config : NodeId) : ∃ result f', Answers o settings config f result f' := by
  obtain ⟨strategy, ps⟩ := o
  obtain rfl : strategy = .counting false := hs
  obtain ⟨result, f', h⟩ := join_single (o := numbering true ps) rfl settings config hf.on hf.ended
  exact ⟨result, f', (concludes_of_join h).answers_numbering hf.on hf.ended⟩

namespace InTurn

/-- Requests that are answered in turn are a join of one round. -/
theorem sweeps (h : InTurn o settings configs f results f') :
    ∃ moved, Sweeps o settings (configs.map .new) f (results.map .settled) moved f' := by
  induction h with
  | nil => exact ⟨false, .nil⟩
  | cons head tail ih =>
    obtain ⟨moved, ih⟩ := ih
    exact ⟨true || moved, .cons head.serves ih⟩

theorem concludes (h : InTurn o settings configs f results f') :
    Concludes o settings (configs.map .new) f (.answers results) f' := by
  obtain ⟨moved, hsweeps⟩ := h.sweeps
  exact .answers hsweeps (Request.mapM_result?_eq_some.mpr rfl)

theorem idle (h : InTurn o settings configs f results f') (hf : f.Idle) :
    f'.Idle ∧ f.registry.Leads f'.registry ∧ f.graph.Grows f'.graph := by
  induction h with
  | nil => exact ⟨hf, .refl _, .refl _⟩
  | cons head tail ih =>
    obtain ⟨hf₁, hleads, hgrows⟩ := head.idle hf
    obtain ⟨hf', hleads', hgrows'⟩ := ih hf₁
    exact ⟨hf', hleads.trans hleads', hgrows.trans hgrows'⟩

theorem length_eq (h : InTurn o settings configs f results f') : results.length = configs.length := by
  induction h with
  | nil => rfl
  | cons head tail ih => exact congrArg (· + 1) ih

/-- Requests are answered after those before them. -/
theorem append {xs ys : List NodeId} {rs rs' : List (Except BuildError Json)}
    (hxs : InTurn o settings xs f rs f₁) (hys : InTurn o settings ys f₁ rs' f') :
    InTurn o settings (xs ++ ys) f (rs ++ rs') f' := by
  induction hxs with
  | nil => exact hys
  | cons head tail ih => exact .cons head (ih hys)

/-- The first requests are answered before the others. -/
theorem split {xs ys : List NodeId} (h : InTurn o settings (xs ++ ys) f results f') :
    ∃ rs f₁ rs', results = rs ++ rs' ∧ InTurn o settings xs f rs f₁ ∧
      InTurn o settings ys f₁ rs' f' := by
  induction xs generalizing f results with
  | nil => exact ⟨[], f, results, rfl, .nil, h⟩
  | cons x xs ih =>
    obtain _ | ⟨head, tail⟩ := h
    obtain ⟨rs, f₁, rs', rfl, hxs, hys⟩ := ih tail
    exact ⟨_, f₁, rs', rfl, .cons head hxs, hys⟩

/-- **A join is its requests in turn.** -/
theorem join_run (h : InTurn o settings configs f results f') (hf : f.Idle)
    (hs : o.strategy = .counting false) :
    (o.join settings configs).run f = some (.answers results, f') := by
  obtain ⟨joined, f₁, hj⟩ := join_total hs settings configs hf.on hf.ended
  obtain ⟨rfl, rfl⟩ := h.concludes.unique (concludes_of_join hj)
  exact hj

end InTurn

theorem exists_inTurn (hf : f.Idle) (hs : o.strategy = .counting false) (settings : Settings)
    (configs : List NodeId) : ∃ results f', InTurn o settings configs f results f' := by
  induction configs generalizing f with
  | nil => exact ⟨[], f, .nil⟩
  | cons config configs ih =>
    obtain ⟨result, f₁, head⟩ := exists_answers hf hs settings config
    obtain ⟨results, f', tail⟩ := ih (head.idle hf).1
    exact ⟨result :: results, f', .cons head tail⟩

/-- **After a failed request the next one for the key is a retry**: what it gets is the result of a
construction that has been started since. -/
theorem Answers.retries {again : NodeId} {between : List NodeId} {e : BuildError} {key : String}
    (hfailed : Answers o settings config f (.error e) f₁) (hf : f.Idle)
    (hbetween : InTurn o settings between f₁ results f₂)
    (hagain : Answers o settings again f₂ result f')
    (hconfig : Constructs f.graph settings config key)
    (hsame : Constructs f.graph settings again key) :
    f₁.registry.Retries f'.registry key result := by
  obtain ⟨hf₁, -, hgrows₁⟩ := hfailed.idle hf
  obtain ⟨hf₂, hleads₂, hgrows₂⟩ := hbetween.idle hf₁
  obtain ⟨hf', hleads', -⟩ := hagain.idle hf₂
  have hfree : f₁.registry.current? key = none :=
    (hfailed.concludes.failure_absent hf.on hf.ended).1 key hconfig.value hconfig.notVariable
  have hconcludes : Concludes o settings ([again].map .new) f₂ (.answers [result]) f' :=
    hagain.concludes
  obtain ⟨⟨g, hg, -, hcase⟩, -⟩ := List.forall₂_cons.mp (hconcludes.obtains hf₂.on)
  have hthere : Constructs g settings again key :=
    hsame.grows ((hgrows₁.trans hgrows₂).trans hg) hf.on.inv
  rcases hcase with hdirect | ⟨key', n, hkey, hlive, hstart, hrec⟩
  · exact absurd hdirect hthere.not_direct
  · obtain rfl : key' = key := Option.some.inj (hkey.value.symm.trans hthere.value)
    have hended := hf'.on.orderly.lawful.ended_of_received hrec
    obtain ⟨c, hc, hs⟩ := (hf'.on.orderly.ended_iff n result).mp hended
    obtain ⟨c', hc', hckey⟩ := (hf'.on.orderly.started_iff n key').mp hstart
    obtain rfl : c = c' := Option.some.inj (hc.symm.trans hc')
    -- whatever there was of the key after the failure has failed, so this one is a later one
    have hearlier : ∀ e, .ended n (.error e) ∉ f₁.registry.journal.toList :=
      fun e he => hlive e (hleads₂.journal.subset he)
    exact ⟨hfree, n, c, hf₁.size_le (hleads₂.trans hleads') hfree hearlier hc hckey, hc, hckey, hs⟩

/-- In a join, a request for a key of which an earlier one has failed is a retry. -/
theorem InTurn.retries {before between after : List NodeId} {d again : NodeId} {e : BuildError}
    {key : String}
    (h : InTurn o settings (before ++ d :: between ++ again :: after) f results f') (hf : f.Idle)
    (hd : Constructs f.graph settings d key) (hsame : Constructs f.graph settings again key)
    (he : results[before.length]? = some (.error e)) :
    ∃ rs f₁ result, InTurn o settings (before ++ [d]) f rs f₁ ∧
      results[(before ++ d :: between).length]? = some result ∧
      f₁.registry.Retries f'.registry key result := by
  rw [List.append_assoc, List.cons_append] at h
  obtain ⟨rs, f₁, rest, rfl, hbefore, hrest⟩ := h.split
  obtain ⟨hf₁, -, hgrows⟩ := hbefore.idle hf
  obtain _ | @⟨_, _, r, rest, _, f₂, _, head, htail⟩ := hrest
  rw [← hbefore.length_eq, List.getElem?_append_right (Nat.le_refl _), Nat.sub_self] at he
  obtain rfl : r = .error e := Option.some.inj he
  obtain ⟨rs', f₃, rest, rfl, hbetween, hagain⟩ := htail.split
  obtain _ | @⟨_, _, result, rest, _, f₄, _, retried, hafter⟩ := hagain
  have hon₂ := (head.idle hf₁).1
  have hon₄ := (retried.idle (hbetween.idle hon₂).1).1
  refine ⟨rs ++ [.error e], f₂, result, hbefore.append (.cons head .nil), ?_, ?_⟩
  · have hlength : (before ++ d :: between).length = (rs ++ .error e :: rs').length := by
      simp [hbefore.length_eq, hbetween.length_eq]
    rw [hlength, ← List.cons_append, ← List.append_assoc,
      List.getElem?_append_right (Nat.le_refl _), Nat.sub_self]
    rfl
  · have hretries := head.retries hf₁ hbetween retried (hd.grows hgrows hf.on.inv)
      (hsame.grows hgrows hf.on.inv)
    exact hretries.leads (hafter.idle hon₄).2.1

end Factory

namespace Session

variable {s : Session} {i : Nat} {p : Pool} {settings : Settings} {configs : List NodeId}

/-- The session after one of its pools has worked. -/
def keep (s : Session) (i : Nat) (p : Pool) (floor : Floor) : Session :=
  { store := floor.bench.store, pools := s.pools.setIfInBounds i (p.keep floor) }

theorem pools_keep (hp : s.pools[i]? = some p) (f : Floor) :
    (s.keep i p f).pools[i]? = some (p.keep f) :=
  getElem?_pools_set hp _

/-- Of two turns of a pool the second one tells what is left. -/
theorem keep_keep (f f' : Floor) : (s.keep i p f).keep i (p.keep f) f' = s.keep i p f' := by
  simp only [keep, Array.setIfInBounds_setIfInBounds]
  rfl

/-- A pool that does nothing leaves the session as it is. -/
theorem keep_floor (hp : s.pools[i]? = some p) : s.keep i p (p.floor s.store) = s := by
  obtain ⟨hi, rfl⟩ := Array.getElem?_eq_some_iff.mp hp
  have hset : s.pools.setIfInBounds i s.pools[i] = s.pools := by
    rw [Array.setIfInBounds_def, dif_pos hi, Array.set_getElem_self]
  exact congrArg (Session.mk s.store) hset

/-- What a join of the pool leaves, the session keeps. -/
theorem step_keep {joined : Joined} {floor : Floor} (hp : s.pools[i]? = some p)
    (hj : (p.factory.join settings configs).run (p.floor s.store) = some (joined, floor)) :
    s.step (.join i settings configs) = some (.joined joined, s.keep i p floor) := by
  show s.work i (·.join settings configs) .joined = _
  rw [work, hp]
  exact Option.bind_eq_some_iff.mpr ⟨(joined, floor), hj, rfl⟩

/-- Joins of single requests, one after the other. -/
theorem run_singles {o : Factory} {results : List (Except BuildError Json)} {f f' : Floor}
    (h : o.InTurn settings configs f results f') (hs : o.strategy = .counting false) (hf : f.Idle)
    (hp : s.pools[i]? = some p) (ho : p.factory = o) (hfloor : p.floor s.store = f) :
    s.run (configs.map fun d => .join i settings [d]) =
      some (results.map fun r => .joined (.answers [r]), s.keep i p f') := by
  induction h generalizing s p with
  | nil =>
    subst hfloor
    rw [keep_floor hp]
    rfl
  | @cons config configs result results f f₁ f' head tail ih =>
    subst hfloor
    subst ho
    have hstep := step_keep hp ((Factory.InTurn.cons head .nil).join_run hf hs)
    have hrest := ih (s := s.keep i p f₁) (p := p.keep f₁) (head.idle hf).1 (pools_keep hp f₁) rfl rfl
    rw [keep_keep] at hrest
    show (s.step _).bind _ = _
    rw [hstep]
    show ((s.keep i p f₁).run _).bind _ = _
    rw [hrest]
    rfl

/-- **Without suspension a join is its requests in turn.** It is answered as joins of the single
requests are, one after the other, and leaves the same session. So it can be cut anywhere into two
joins. A request for a key of which an earlier one has failed gets the result of a construction that was
started after that failure. -/
theorem join_in_turn {cs : List Command} {answers : List Answer}
    (h : Session.run {} cs = some (answers, s)) (hp : s.pools[i]? = some p)
    (hs : p.factory.strategy = .counting false) (settings : Settings) (configs : List NodeId) :
    ∃ results s', s.step (.join i settings configs) = some (.joined (.answers results), s') ∧
      s.run (configs.map fun d => .join i settings [d]) =
        some (results.map fun r => .joined (.answers [r]), s') ∧
      (∀ xs ys, configs = xs ++ ys → ∃ rs s₁ rs', results = rs ++ rs' ∧
        s.step (.join i settings xs) = some (.joined (.answers rs), s₁) ∧
        s₁.step (.join i settings ys) = some (.joined (.answers rs'), s')) ∧
      ∀ before d between again after key e, configs = before ++ d :: between ++ again :: after →
        Factory.Constructs s.store.graph settings d key →
        Factory.Constructs s.store.graph settings again key →
        results[before.length]? = some (.error e) →
        ∃ rs s₁ p₁ p' result,
          s.step (.join i settings (before ++ [d])) = some (.joined (.answers rs), s₁) ∧
          s₁.pools[i]? = some p₁ ∧ s'.pools[i]? = some p' ∧
          results[(before ++ d :: between).length]? = some result ∧
          p₁.registry.Retries p'.registry key result := by
  have hf : (p.floor s.store).Idle :=
    ⟨((atRest_of_run h).pools hp).floor, ended_of_pauseless h hp (hs ▸ rfl)⟩
  obtain ⟨results, f', hturn⟩ := Factory.exists_inTurn hf hs settings configs
  refine ⟨results, s.keep i p f', step_keep hp (hturn.join_run hf hs),
    run_singles hturn hs hf hp rfl rfl, ?_, ?_⟩
  · intro xs ys hconfigs
    subst hconfigs
    obtain ⟨rs, f₁, rs', rfl, hxs, hys⟩ := hturn.split
    have hf₁ := (hxs.idle hf).1
    refine ⟨rs, s.keep i p f₁, rs', rfl, step_keep hp (hxs.join_run hf hs), ?_⟩
    have hstep := step_keep (s := s.keep i p f₁) (p := p.keep f₁) (pools_keep hp f₁)
      (hys.join_run hf₁ hs)
    rwa [keep_keep] at hstep
  · intro before d between again after key e hconfigs hd hsame he
    subst hconfigs
    obtain ⟨rs, f₁, result, hfirst, hresult, hretries⟩ := hturn.retries hf hd hsame he
    exact ⟨rs, s.keep i p f₁, _, _, result, step_keep hp (hfirst.join_run hf hs),
      pools_keep hp f₁, pools_keep hp f', hresult, hretries⟩

/-- Two configs depend on each other, and the first build of the second one fails. -/
def stumbling : List Command :=
  [.update (.named "ex:a"), .update (.named "ex:b"), .update (.literal "App"),
    .update (.addProperty 0 Components.requireName 2),
    .update (.addProperty 1 Components.requireName 2), .update (.addProperty 0 Dependency.dep 1),
    .update (.addProperty 1 Dependency.dep 0), .update (.addProperty 1 Dependency.flaky 2),
    .openPool { strategy := .counting false } 1]

/-- The first config is requested twice in a join, and once more in between is the other one. Its first
request fails with the other config; the second one is a retry. -/
theorem join_in_turn_stumbling : ∃ answers s results s' rs s₁, ∃ p₁ p' : Pool, ∃ result,
    Session.run {} stumbling = some (answers, s) ∧
      s.step (.join 0 {} [0, 1, 0]) = some (.joined (.answers results), s') ∧
      s.run [.join 0 {} [0], .join 0 {} [1], .join 0 {} [0]] =
        some (results.map fun r => .joined (.answers [r]), s') ∧
      s.step (.join 0 {} [0]) = some (.joined (.answers rs), s₁) ∧ s₁.pools[0]? = some p₁ ∧
      s'.pools[0]? = some p' ∧ results[2]? = some result ∧
      p₁.registry.Retries p'.registry "ex:a" result := by
  have hrun : (Session.run {} stumbling).any fun out =>
      out.2.pools[0]?.any (·.factory.strategy == .counting false) &&
        (out.2.store.graph.value? 0 == some "ex:a" && !out.2.store.graph.isVariable 0) &&
        (out.2.step (.join 0 {} [0, 1, 0])).any fun joined =>
          (joined.1.joined?.bind Joined.results?).any fun results =>
            results[0]?.any fun result => !result.isOk := by decide +kernel
  obtain ⟨⟨answers, s⟩, h, hout⟩ := (Option.any_eq_true _ _).mp hrun
  simp only [Bool.and_eq_true, Option.any_eq_true, beq_iff_eq, Bool.not_eq_true'] at hout
  obtain ⟨⟨⟨p, hp, hs⟩, hvalue, hvar⟩, ⟨answer, s'⟩, hstep, results, hresults, result, hfirst, hfails⟩ :=
    hout
  obtain ⟨results', s'', hjoin, hsingles, -, hretry⟩ := join_in_turn h hp hs {} [0, 1, 0]
  obtain ⟨rfl, rfl⟩ := Prod.mk.inj (Option.some.inj (hstep.symm.trans hjoin))
  obtain rfl : results' = results := Option.some.inj hresults
  have hd : Factory.Constructs s.store.graph {} 0 "ex:a" := ⟨hvalue, rfl, hvar⟩
  cases result with
  | ok v => cases hfails
  | error e =>
    obtain ⟨rs, s₁, p₁, p', again, hfailed, hp₁, hp', hagain, hretries⟩ :=
      hretry [] 0 [1] 0 [] "ex:a" e rfl hd hd hfirst
    exact ⟨answers, s, results', s', rs, s₁, p₁, p', again, h, hjoin, hsingles, hfailed, hp₁, hp', hagain,
      hretries⟩

end Session

end Wiring

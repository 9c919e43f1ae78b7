import Wiring.Proofs.Cycles
import Wiring.Proofs.Descent
import Wiring.Proofs.Lineage
import Wiring.Proofs.Turns

/-!
# Retries converge

A pool with numbered instances is told how many builds of flaky configs fail. If nothing else can go
wrong with a request (`Graph.Provides`), each failed request uses up one of these failures, and each one
that succeeds uses up none, whatever has been built before (`Factory.join_accounts`). So it takes no more
retries than there are failures left, and nothing that has been built is built again
(`Session.retries_converge`).

On the way down to a failure siblings may have been built; they stay, and the next request goes on from
there. `Build.Accounts` says of what is left of a build that it accounts for its failure, and
`Factory.Evaluates.accounts` that all work does.
-/

namespace Wiring

open Relation

/-! ## What a request may come to -/

/-- A config exists, and it is bound if it is a variable and a valid raw config otherwise. -/
structure Graph.Requestable (g : Graph) (settings : Settings) (config : NodeId) : Prop where
  found : (g.value? config).isSome
  bound : g.isVariable config = true → ∀ key, g.value? config = some key →
    (settings.value? key).isSome
  valid : g.isVariable config = false → g.validate config = .ok ()

/-- Whether a config can be requested. -/
theorem Graph.requestable_iff {g : Graph} {settings : Settings} {config : NodeId} :
    g.Requestable settings config ↔ (g.value? config).any fun key =>
      if g.isVariable config then (settings.value? key).isSome
      else (g.validate config).isOk := by
  constructor
  · rintro ⟨hfound, hbound, hvalid⟩
    obtain ⟨key, hkey⟩ := Option.isSome_iff_exists.mp hfound
    rw [hkey, Option.any_some]
    split
    case isTrue hvar => exact hbound hvar key hkey
    case isFalse hvar =>
      rw [hvalid (Bool.eq_false_iff.mpr hvar)]
      rfl
  · intro h
    obtain ⟨key, hkey, hrest⟩ := (Option.any_eq_true _ _).mp h
    refine ⟨Option.isSome_of_eq_some hkey, fun hvar key' hkey' => ?_, fun hvar => ?_⟩
    · obtain rfl : key = key' := Option.some.inj (hkey.symm.trans hkey')
      rwa [if_pos hvar] at hrest
    · rw [if_neg (Bool.eq_false_iff.mp hvar)] at hrest
      cases hv : g.validate config with
      | ok u => rfl
      | error e =>
        rw [hv] at hrest
        cases hrest

instance (g : Graph) (settings : Settings) (config : NodeId) :
    Decidable (g.Requestable settings config) :=
  decidable_of_iff' _ Graph.requestable_iff

/-- Everything that a config depends on, at any depth, can be requested, and so can the config. -/
def Graph.Provides (g : Graph) (settings : Settings) (config : NodeId) : Prop :=
  ∀ x, ReflTransGen g.DependsOn config x → g.Requestable settings x

/-- The error of a flaky config that is the given one or one that it depends on, at any depth. -/
def Graph.Stumbles (g : Graph) (config : NodeId) (e : BuildError) : Prop :=
  ∃ x key, ReflTransGen g.DependsOn config x ∧ (g.property? x Dependency.flaky).isSome ∧
    g.value? x = some key ∧ e = .strategy key "flaky"

variable {g : Graph} {settings : Settings} {root d : NodeId}

/-- Variables are bound on the whole path of a request. -/
theorem Graph.Provides.descend (h : g.Provides settings root) (key : String) :
    g.Provides (settings.descend key) root := by
  intro x hx
  obtain ⟨hfound, hbound, hvalid⟩ := h x hx
  exact ⟨hfound, hbound, hvalid⟩

/-- Configs that depend on nothing else provide for their requests if they can be requested. -/
theorem Graph.provides_of_closed {ids : List NodeId} (hroot : root ∈ ids)
    (hclosed : ∀ x ∈ ids, ∀ y ∈ g.properties x Dependency.dep, y ∈ ids)
    (hids : ∀ x ∈ ids, g.Requestable settings x) : g.Provides settings root := by
  intro x hx
  have hmem : x ∈ ids := by
    induction hx with
    | refl => exact hroot
    | tail _ hdep ih => exact hclosed _ ih _ hdep
  exact hids x hmem

/-! ## Accounts -/

/-- The store is as it was, and no failure has been used up. -/
structure Workbench.Spares (w w' : Workbench) : Prop where
  store : w'.store = w.store
  failuresLeft : w'.failuresLeft = w.failuresLeft

/-- The store is as it was, and one failure has been used up for an error. -/
structure Workbench.Spends (root : NodeId) (e : BuildError) (w w' : Workbench) : Prop where
  error : w.store.graph.Stumbles root e
  store : w'.store = w.store
  failuresLeft : w'.failuresLeft + 1 = w.failuresLeft

/-- What has been used up for a result: one failure for an error, and nothing for an instance. -/
def Workbench.Accounts (root : NodeId) (w w' : Workbench) : Except BuildError Json → Prop
  | .ok _ => w.Spares w'
  | .error e => w.Spends root e w'

/-- What is left of a build asks for configs that the root depends on, and accounts for its result. The
first workbench is the one on which the request began. -/
def Build.Accounts {α : Type} (root : NodeId) (w₀ : Workbench) : Build α → Workbench → Prop
  | .done _, w => w₀.Spares w
  | .fail e, w => w₀.Spends root e w
  | .endless, _ => False
  | .suspend _, _ => False
  | .request d next, w => w₀.Spares w ∧ ReflTransGen w₀.store.graph.DependsOn root d ∧
      ∀ v w', w₀.Spares w' → (next v).Accounts root w₀ w'
  | .read next, w => (next w).Accounts root w₀ w
  | .write w' next, _ => next.Accounts root w₀ w'

namespace Counting

variable {w₀ w : Workbench}

/-- Asking for dependencies uses up nothing. -/
theorem accounts_each_ask {α : Type} {ds : List NodeId} {f : List Json → Build α}
    (hds : ∀ d ∈ ds, ReflTransGen w₀.store.graph.DependsOn root d) (hw : w₀.Spares w)
    (hf : ∀ vs w, w₀.Spares w → (f vs).Accounts root w₀ w) :
    (Build.each Build.ask ds >>= f).Accounts root w₀ w := by
  induction ds generalizing f w with
  | nil => exact hf [] w hw
  | cons d ds ih =>
    rw [Build.each_ask_cons]
    refine ⟨hw, hds d List.mem_cons_self, fun v w' hw' => ?_⟩
    exact ih (fun x hx => hds x (List.mem_cons_of_mem _ hx)) hw' fun vs => hf (v :: vs)

/-- A build of numbered instances accounts for its result. -/
theorem accounts_build {raw : NodeId} {key : String} (hw : w₀.Spares w)
    (hraw : ReflTransGen w₀.store.graph.DependsOn root raw)
    (hkey : w₀.store.graph.value? raw = some key) :
    (Counting.build false raw).Accounts root w₀ w := by
  obtain ⟨hstore, hleft⟩ := hw
  -- the build has counted itself, and has read the graph
  have hdeps : ∀ number, (Build.each Build.ask (w.store.graph.properties raw Dependency.dep) >>=
      fun deps => .done (inst number key deps)).Accounts root w₀ { w with builds := w.builds + 1 } := by
    intro number
    refine accounts_each_ask (fun d hd => ?_) ⟨hstore, hleft⟩ fun vs w hw => hw
    rw [hstore] at hd
    exact hraw.tail hd
  have hname : (w.store.graph.value? raw).getD "" = key := by
    rw [hstore, hkey]
    rfl
  rw [← hname] at hdeps
  show Build.Accounts root w₀ (if _ then _ else _) _
  split
  case isTrue hflaky =>
    show Build.Accounts root w₀ (stumble _ >>= _) _
    rw [stumble_bind]
    show Build.Accounts root w₀ (if _ then _ else _) _
    split
    case isTrue hpositive =>
      have hpositive : 0 < w.failuresLeft := hpositive
      refine ⟨⟨raw, key, hraw, hstore ▸ hflaky, hkey, ?_⟩, hstore, ?_⟩
      · rw [← hname]
      · show w.failuresLeft - 1 + 1 = w₀.failuresLeft
        omega
    case isFalse => exact hdeps _
  case isFalse => exact hdeps _

end Counting

/-! ## Work -/

/-- A construction has succeeded, or it is new and provided for. -/
def Registry.Provided (r : Registry) (g : Graph) (root : NodeId) (n : Nat) : Prop :=
  ∃ c, r.construction? n = some c ∧ ((∃ v, c.stage = .finished (.ok v)) ∨
    c.stage = .fresh ∧ g.Provides c.settings root ∧ ReflTransGen g.DependsOn root c.config ∧
      g.isVariable c.config = false)

/-- A task is provided for, and accounts for what it carries on. -/
def Task.Accounts (root : NodeId) (w₀ : Workbench) : Task → Floor → Prop
  | .poll n, f => w₀.Spares f.bench ∧ f.registry.Provided w₀.store.graph root n
  | .drive _ settings rest, f => w₀.store.graph.Provides settings root ∧
      rest.Accounts root w₀ f.bench
  | .wait _ settings other next _, f => w₀.Spares f.bench ∧ w₀.store.graph.Provides settings root ∧
      f.registry.Provided w₀.store.graph root other ∧
      ∀ v w, w₀.Spares w → (next v).Accounts root w₀ w

namespace Factory

open Registry

variable {o : Factory} {f f₁ f' : Floor} {w₀ : Workbench}

/-- A request that can be made is not refused. -/
theorem Direct.not_error {e : BuildError} (h : o.Direct g settings d (.error e)) :
    ¬ g.Requestable settings d := by
  rintro ⟨hfound, hbound, -⟩
  generalize hresult : Except.error e = result at h
  cases h with
  | missing hnone =>
    rw [hnone] at hfound
    cases hfound
  | inProgress => cases hresult
  | @«variable» key hvalue _ hvar =>
    obtain ⟨value, hval⟩ := Option.isSome_iff_exists.mp (hbound hvar key hvalue)
    rw [Strategy.variableValue, hval] at hresult
    cases hresult

/-- What a request waits for is provided. -/
theorem enter_provided {n : Nat} (hord : f.registry.Orderly) (hg : f.graph = g)
    (hprovides : g.Provides settings root) (hd : ReflTransGen g.DependsOn root d)
    (hended : ¬ f.registry.IsOpen n) (entry : o.enter d settings f = (.waiting n, f₁)) :
    f₁.registry.Provided g root n := by
  obtain ⟨key, hkey, ⟨hcur, rfl⟩ | ⟨-, hstart⟩⟩ := enter_waiting entry
  · -- a current construction that has ended has succeeded
    obtain ⟨c, hc, -, hlive⟩ := (hord.current_iff key n).mp hcur
    obtain ⟨result, hs⟩ := result_of_not_open hended hc
    cases result with
    | ok v => exact ⟨c, hc, .inl ⟨v, hs⟩⟩
    | error e => exact absurd ⟨e, hs⟩ hlive
  · cases hstart
    exact ⟨_, construction?_start_self .., .inr ⟨rfl, hprovides.descend key, hd,
      hg ▸ hkey.notVariable⟩⟩

/-- **Work accounts for its result**: an error costs one failure, and an instance none. -/
theorem Evaluates.accounts {t : Task} {result : Except BuildError Json}
    (h : Evaluates (numbering false []) t f result f') (hord : f.registry.Orderly)
    (hatt : t.Attends f.registry) (ht : t.Accounts root w₀ f) :
    w₀.Accounts root f'.bench result := by
  -- by induction on the work: as long as it goes on, nothing has been used up
  induction h with
  | done v => exact ht.2
  | fail e => exact ht.2
  | read _ ih => exact ih hord hatt ht
  | write _ ih => exact ih hord hatt ht
  | answered entry _ ih =>
    obtain ⟨rfl, -⟩ := enter_answered entry
    obtain ⟨hprovides, hw, -, hnext⟩ := ht
    exact ih hord hatt ⟨hprovides, hnext _ _ hw⟩
  | refused entry =>
    obtain ⟨-, hdirect⟩ := enter_answered entry
    obtain ⟨hprovides, hw, hd, -⟩ := ht
    rw [Floor.graph, hw.store] at hdirect
    exact absurd (hprovides _ hd) hdirect.not_error
  | request entry hended _ ih =>
    obtain ⟨hk, hbench, hother⟩ := keeps_of_enter hord entry
    obtain ⟨hprovides, hw, hd, hnext⟩ := ht
    have hg : Floor.graph _ = w₀.store.graph := congrArg Store.graph hw.store
    have hprovided := enter_provided hord hg hprovides hd hended entry
    exact ih hk.orderly ⟨hatt.keeps hk, hother⟩ ⟨hbench ▸ hw, hprovides, hprovided, hnext⟩
  | @received n settings other next moved v f f₁ result f' poll _ ihp ihr =>
    obtain ⟨hw, hprovides, hprovided, hnext⟩ := ht
    have hk := poll.runs.keeps_receive hord hatt.2 (some n)
    have hw₁ : w₀.Spares f₁.bench := ihp hord hatt.2 ⟨hw, hprovided⟩
    exact ihr hk.orderly (hatt.1.keeps hk) ⟨hprovides, hnext v _ hw₁⟩
  | passedOn _ ihp => exact ihp hord hatt.2 ⟨ht.1, ht.2.2.1⟩
  | @finished n c result f lookup stage =>
    obtain ⟨hw, d, hd, hcase⟩ := ht
    obtain rfl : c = d := Option.some.inj (lookup.symm.trans hd)
    rcases hcase with ⟨v, hv⟩ | ⟨hfresh, -⟩
    · obtain rfl : result = .ok v := Stage.finished.inj (stage.symm.trans hv)
      exact hw
    · cases stage.symm.trans hfresh
  | @unprepared n c e graph f lookup stage form =>
    obtain ⟨hw, d, hd, hcase⟩ := ht
    obtain rfl : c = d := Option.some.inj (lookup.symm.trans hd)
    rcases hcase with ⟨v, hv⟩ | ⟨-, hprovides, hreached, hvar⟩
    · cases stage.symm.trans hv
    · have hg : f.graph = w₀.store.graph := congrArg Store.graph hw.store
      have hinvalid := (rawConfig_nil_error.mp (hg ▸ form)).2
      cases hinvalid.symm.trans ((hprovides _ hreached).valid hvar)
  | @prepared n c raw graph f result f' lookup stage form _ ih =>
    obtain ⟨hw, d, hd, hcase⟩ := ht
    obtain rfl : c = d := Option.some.inj (lookup.symm.trans hd)
    rcases hcase with ⟨v, hv⟩ | ⟨-, hprovides, hreached, hvar⟩
    · cases stage.symm.trans hv
    · obtain ⟨rfl, rfl, -⟩ := rawConfig_nil_ok.mp form
      obtain ⟨hord', hpolled⟩ := hord.pollFresh lookup stage c.config
      obtain ⟨key, hkey⟩ := Option.isSome_iff_exists.mp (hprovides _ hreached).found
      exact ih hord' hpolled ⟨hprovides, Counting.accounts_build hw hreached hkey⟩

/-- A request that can be made accounts for its result. -/
theorem Resolves.accounts {result : Except BuildError Json}
    (h : Resolves (numbering false []) settings d f result f') (hord : f.registry.Orderly)
    (hprovides : f.graph.Provides settings d) : f.bench.Accounts d f'.bench result := by
  cases h with
  | direct entry =>
    obtain ⟨rfl, hdirect⟩ := enter_answered entry
    cases result with
    | ok v => exact ⟨rfl, rfl⟩
    | error e => exact absurd (hprovides _ .refl) hdirect.not_error
  | built entry ended poll =>
    obtain ⟨hk, hbench, hother⟩ := keeps_of_enter hord entry
    have hprovided := enter_provided hord rfl hprovides .refl ended entry
    exact poll.accounts hk.orderly hother ⟨hbench ▸ ⟨rfl, rfl⟩, hprovided⟩

/-- **A request costs a failure if it fails, and nothing otherwise**, whether or not builds suspend
themselves. -/
theorem join_accounts (suspends : Bool) (hf : f.Idle) (hprovides : f.graph.Provides settings d) :
    ∃ result f', ((numbering suspends []).join settings [d]).run f = some (.answers [result], f') ∧
      f'.Idle ∧ f.bench.Accounts d f'.bench result := by
  have hsettles : (numbering false []).Settles f.graph := ⟨rfl, rfl, Counting.straight_build⟩
  obtain ⟨result, f', hjoin, hresolves⟩ := join_resolves hsettles settings d hf.on.orderly rfl hf.ended
  have hconcludes : Concludes _ settings ([d].map .new) f (.answers [result]) f' :=
    concludes_of_join hjoin
  refine ⟨result, f', ?_, (hconcludes.idle hf).1, hresolves.accounts hf.on.orderly hprovides⟩
  cases suspends with
  | true => exact (join_numbering [] settings d hf.on hf.ended).trans hjoin
  | false => exact hjoin

end Factory

/-! ## What is built stays built -/

/-- When a construction of a key has succeeded, none is started for the key any more. -/
theorem Journal.Lawful.not_started {before after : Journal} {n m : Nat} {v : Json} {key : String}
    (h : Lawful (before ++ .ended n (.ok v) :: after)) (hn : .started n key ∈ before) :
    .started m key ∉ after := by
  intro hm
  obtain ⟨between, rest, rfl⟩ := List.append_of_mem hm
  rw [← List.cons_append, ← List.append_assoc] at h
  obtain ⟨e, he⟩ := (h _ _ rest rfl).2 n (List.mem_append_left _ hn)
  have hfailed := List.mem_append_left (.started m key :: rest) he
  have hdone : .ended n (.ok v) ∈ before ++ .ended n (.ok v) :: between :=
    List.mem_append_right _ List.mem_cons_self
  cases h.ended_unique hfailed (List.mem_append_left _ hdone)

namespace Session

variable {s s' : Session} {i : Nat} {p : Pool}

/-- In a pool that has been requested for one config at a time nothing is open. -/
theorem idle_of_singles {cs : List Command} {answers : List Answer}
    (h : Session.run {} cs = some (answers, s)) (hp : s.pools[i]? = some p)
    (hcs : ∀ settings configs, .join i settings configs ∈ cs → configs.length = 1) :
    (p.floor s.store).Idle := by
  let A (j : Nat) (_ : Settings) (configs : List NodeId) : Prop := j = i → configs.length = 1
  let P (j : Nat) (p : Pool) : Prop := j = i → ∀ n, ¬ p.registry.IsOpen n
  have hnew : ∀ j factory failures, P j (.new factory failures) := by
    rintro j factory failures - n ⟨c, hc, -⟩
    cases hc
  have hjoin : ∀ {j : Nat} {p : Pool} {store : Store} {settings configs joined floor},
      p.AtRest store.graph → A j settings configs → P j p →
      (p.factory.join settings configs).run (p.floor store) = some (joined, floor) →
      P j (p.keep floor) := by
    intro j p store settings configs joined floor hrest hA hP hj hji
    have hconcludes := Factory.concludes_of_join hj
    cases joined with
    | deadlock =>
      have hsingle := Nat.le_of_eq (hA hji)
      exact absurd rfl (hconcludes.ne_deadlock_of_single hrest.floor (hP hji) hsingle)
    | answers results => exact (hconcludes.idle ⟨hrest.floor, hP hji⟩).1.ended
  have hended : P i p := run_pools hnew hjoin h atRest_empty
    (fun j settings configs hmem hji => hcs settings configs (hji ▸ hmem)) (fun hp => by cases hp) hp
  exact ⟨((atRest_of_run h).pools hp).floor, hended rfl⟩

/-- What a request leaves behind: the session has gone on, with an idle pool, and the request accounts for
its result. -/
theorem step_accounts {suspends : Bool} {settings : Settings} {d : NodeId}
    (hp : s.pools[i]? = some p) (hfactory : p.factory = Factory.numbering suspends [])
    (hf : (p.floor s.store).Idle) (hprovides : s.store.graph.Provides settings d) :
    ∃ result s' p', s.step (.join i settings [d]) = some (.joined (.answers [result]), s') ∧
      s'.pools[i]? = some p' ∧ p'.factory = p.factory ∧ (p'.floor s'.store).Idle ∧
      (p.floor s.store).bench.Accounts d (p'.floor s'.store).bench result := by
  obtain ⟨result, f', hjoin, hidle, haccounts⟩ := Factory.join_accounts suspends hf hprovides
  exact ⟨result, s.keep i p f', p.keep f', step_keep hp (hfactory ▸ hjoin), pools_keep hp f', rfl, hidle,
    haccounts⟩

/-- Requests one after the other: each error is the one of a flaky config, and costs one of the failures
that are left. -/
theorem run_accounts {suspends : Bool} {requests : List (Settings × NodeId)}
    (hp : s.pools[i]? = some p) (hfactory : p.factory = Factory.numbering suspends [])
    (hf : (p.floor s.store).Idle) (hrequests : ∀ r ∈ requests, s.store.graph.Provides r.1 r.2) :
    ∃ results s' p', s.run (requests.map fun r => .join i r.1 [r.2]) =
        some (results.map fun result => .joined (.answers [result]), s') ∧
      s'.store = s.store ∧ s'.pools[i]? = some p' ∧ (p'.floor s'.store).Idle ∧
      List.Forall₂ (fun r result => ∀ e, result = .error e → s.store.graph.Stumbles r.2 e)
        requests results ∧
      results.countP (!·.isOk) + p'.failuresLeft = p.failuresLeft := by
  induction requests generalizing s p with
  | nil => exact ⟨[], s, p, rfl, rfl, hp, hf, .nil, Nat.zero_add _⟩
  | cons r requests ih =>
    obtain ⟨result, s₁, p₁, hstep, hp₁, hfactory₁, hf₁, haccounts⟩ :=
      step_accounts hp hfactory hf (hrequests r List.mem_cons_self)
    have hstore : s₁.store = s.store := by
      cases result with
      | ok v => exact haccounts.store
      | error e => exact haccounts.store
    obtain ⟨results, s', p', hrun, hstore', hp', hf', herrors, hcount⟩ :=
      ih hp₁ (hfactory₁.trans hfactory) hf₁ fun x hx => hstore ▸ hrequests x (List.mem_cons_of_mem _ hx)
    rw [hstore] at hstore' herrors
    refine ⟨result :: results, s', p', ?_, hstore', hp', hf', .cons ?_ herrors, ?_⟩
    · show (s.step _).bind _ = _
      rw [hstep]
      show (s₁.run _).bind _ = _
      rw [hrun]
      rfl
    · rintro e rfl
      exact haccounts.error
    · cases result with
      | ok v =>
        have hleft : p₁.failuresLeft = p.failuresLeft := haccounts.failuresLeft
        rw [List.countP_cons_of_neg (by exact Bool.false_ne_true), hcount, hleft]
      | error e =>
        have hleft : p₁.failuresLeft + 1 = p.failuresLeft := haccounts.failuresLeft
        rw [List.countP_cons_of_pos rfl]
        omega

/-- **Retries converge.** Let nothing be wrong with requests but that builds of flaky configs fail, and
let a pool with numbered instances and without preprocessors have been requested for one config at a time
so far. Then a request that fails costs one of the failures that are left, for a flaky config that it has
come to, and a request that succeeds costs none. So of any requests, one after the other, no more fail
than failures are left, and when these are used up, all succeed. And once a construction of a key has
succeeded, none is started for that key again. -/
theorem retries_converge {cs : List Command} {answers : List Answer}
    (h : Session.run {} cs = some (answers, s)) (hp : s.pools[i]? = some p)
    (hcs : ∀ settings configs, .join i settings configs ∈ cs → configs.length = 1)
    {suspends : Bool} (hstrategy : p.factory.strategy = .counting suspends)
    (hpreprocessors : p.factory.preprocessors = []) :
    (∀ settings d, s.store.graph.Provides settings d →
      ∃ result s' p', s.step (.join i settings [d]) = some (.joined (.answers [result]), s') ∧
        s'.pools[i]? = some p' ∧ (p.floor s.store).bench.Accounts d (p'.floor s'.store).bench result) ∧
      ∀ requests : List (Settings × NodeId), (∀ r ∈ requests, s.store.graph.Provides r.1 r.2) →
        ∃ results s' p', s.run (requests.map fun r => .join i r.1 [r.2]) =
            some (results.map fun result => .joined (.answers [result]), s') ∧
          s'.store = s.store ∧ s'.pools[i]? = some p' ∧
          List.Forall₂ (fun r result => ∀ e, result = .error e → s.store.graph.Stumbles r.2 e)
            requests results ∧
          results.countP (!·.isOk) + p'.failuresLeft = p.failuresLeft ∧
          (∀ before after, results = before ++ after → before.countP (!·.isOk) = p.failuresLeft →
            ∀ result ∈ after, result.isOk = true) ∧
          ∀ before n v after key, p'.registry.journal.toList = before ++ .ended n (.ok v) :: after →
            .started n key ∈ before → ∀ m, .started m key ∉ after := by
  have hfactory : p.factory = Factory.numbering suspends [] := by
    show Factory.mk p.factory.strategy p.factory.preprocessors = _
    rw [hstrategy, hpreprocessors]
  have hf := idle_of_singles h hp hcs
  constructor
  · intro settings d hprovides
    obtain ⟨result, s', p', hstep, hp', -, -, haccounts⟩ := step_accounts hp hfactory hf hprovides
    exact ⟨result, s', p', hstep, hp', haccounts⟩
  · intro requests hrequests
    obtain ⟨results, s', p', hrun, hstore, hp', hf', herrors, hcount⟩ :=
      run_accounts hp hfactory hf hrequests
    refine ⟨results, s', p', hrun, hstore, hp', herrors, hcount, ?_, ?_⟩
    · rintro before after rfl hbefore result hresult
      rw [List.countP_append, hbefore] at hcount
      have hnone : after.countP (!·.isOk) = 0 := by omega
      simpa using List.countP_eq_zero.mp hnone result hresult
    · intro before n v after key heq hn m
      have hlawful := hf'.on.orderly.lawful
      rw [show (p'.floor s'.store).registry = p'.registry from rfl, heq] at hlawful
      exact hlawful.not_started hn

/-- Two configs depend on each other, one of them on a variable as well, and the other one is flaky. It has
been requested once, and has failed. -/
def wavering : List Command :=
  [.update (.named "ex:a"), .update (.named "ex:b"), .update (.placeholder "ex:v"),
    .update (.literal "App"), .update (.addProperty 0 Components.requireName 3),
    .update (.addProperty 1 Components.requireName 3), .update (.addProperty 0 Dependency.dep 2),
    .update (.addProperty 0 Dependency.dep 1), .update (.addProperty 1 Dependency.dep 0),
    .update (.addProperty 1 Dependency.flaky 3), .openPool { strategy := .counting true } 2,
    .join 0 {} [1]]

/-- Requests for both configs, with a value for the variable. -/
def furtherRequests : List (Settings × NodeId) :=
  [0, 1, 0].map (Settings.withVariable {} "ex:v" (.int 5), ·)

/-- Of the further requests one fails, since one failure is left. -/
theorem retries_converge_wavering : ∃ answers s, ∃ p : Pool,
    ∃ results : List (Except BuildError Json), ∃ s', ∃ p' : Pool,
      Session.run {} wavering = some (answers, s) ∧ s.pools[0]? = some p ∧ p.failuresLeft = 1 ∧
        s.run (furtherRequests.map fun r => .join 0 r.1 [r.2]) =
          some (results.map fun result => .joined (.answers [result]), s') ∧
        s'.store = s.store ∧ s'.pools[0]? = some p' ∧
        results.countP (!·.isOk) + p'.failuresLeft = 1 := by
  have hrun : (Session.run {} wavering).any fun out =>
      (out.2.pools[0]?.any fun p => p.factory.strategy == .counting true &&
        p.factory.preprocessors.isEmpty && p.failuresLeft == 1) &&
      [0, 1, 2].all fun x =>
        ((out.2.store.graph.properties x Dependency.dep).all fun y => y == 0 || y == 1 || y == 2) &&
          furtherRequests.all fun r => decide (out.2.store.graph.Requestable r.1 x) := by
    decide +kernel
  obtain ⟨⟨answers, s⟩, h, hout⟩ := (Option.any_eq_true _ _).mp hrun
  simp only [Bool.and_eq_true, Option.any_eq_true, List.all_eq_true, beq_iff_eq, List.isEmpty_iff,
    Bool.or_eq_true, decide_eq_true_eq] at hout
  obtain ⟨⟨p, hp, ⟨hstrategy, hpreprocessors⟩, hleft⟩, hnodes⟩ := hout
  have hcs : ∀ settings configs, .join 0 settings configs ∈ wavering → configs.length = 1 := by
    intro settings configs hmem
    simp only [wavering, List.mem_cons, reduceCtorEq, false_or, List.not_mem_nil, or_false,
      Command.join.injEq] at hmem
    rw [hmem.2.2]
    rfl
  have hrequests : ∀ r ∈ furtherRequests, s.store.graph.Provides r.1 r.2 := by
    intro r hr
    have hroot : r.2 ∈ [0, 1, 2] := by
      obtain ⟨d, hd, rfl⟩ := List.mem_map.mp hr
      exact (show [0, 1, 0] ⊆ [0, 1, 2] by decide) hd
    refine Graph.provides_of_closed hroot (fun x hx y hy => ?_) fun x hx => (hnodes x hx).2 r hr
    simpa [or_assoc] using (hnodes x hx).1 y hy
  obtain ⟨-, hconverge⟩ := retries_converge h hp hcs hstrategy hpreprocessors
  obtain ⟨results, s', p', hresults, hstore, hp', -, hcount, -⟩ := hconverge furtherRequests hrequests
  exact ⟨answers, s, p, results, s', p', h, hp, hleft, hresults, hstore, hp', hcount.trans hleft⟩

end Session

end Wiring

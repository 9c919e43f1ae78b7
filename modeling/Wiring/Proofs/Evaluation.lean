import Wiring.Proofs.Ownership
import Wiring.Proofs.Sessions
import Wiring.Proofs.Straight

/-!
# Work that never waits

In pools whose builds never suspend themselves every poll goes through to a result. Then a request
finds no construction that is still open, unless that one is on the path of the request, where its
key is in progress and cuts the request off. `Factory.Evaluates` is what remains of `Factory.Runs`:
work that ends with a result, and whose requests are met by constructions that have ended or have
been started for them.

- `Runs.evaluates`: while all open constructions have keys in progress, work evaluates, and opens
  nothing that it does not end.
- `Session.ended_of_pauseless`: between commands nothing is open in such pools, whatever has been
  requested of them.
-/

namespace Wiring

namespace Factory

/-- Work that goes through to a result. No request waits for a construction that was open before. -/
inductive Evaluates (o : Factory) : Task → Floor → Except BuildError Json → Floor → Prop
  | done {n settings f} (v : Json) :
      Evaluates o (.drive n settings (.done v)) f (.ok v) (f.finish n (.ok v))
  | fail {n settings f} (e : BuildError) :
      Evaluates o (.drive n settings (.fail e)) f (.error e) (f.finish n (.error e))
  | read {n settings next f result f'}
      (rest : Evaluates o (.drive n settings (next f.bench)) f result f') :
      Evaluates o (.drive n settings (.read next)) f result f'
  | write {n settings bench next f result f'}
      (rest : Evaluates o (.drive n settings next) { f with bench } result f') :
      Evaluates o (.drive n settings (.write bench next)) f result f'
  | answered {n settings config next v f f₁ result f'}
      (entry : o.enter config settings f = (.answered (.ok v), f₁))
      (rest : Evaluates o (.drive n settings (next v)) f₁ result f') :
      Evaluates o (.drive n settings (.request config next)) f result f'
  | refused {n settings config next e f f₁}
      (entry : o.enter config settings f = (.answered (.error e), f₁)) :
      Evaluates o (.drive n settings (.request config next)) f (.error e)
        (f₁.finish n (.error e))
  | request {n settings config next other f f₁ result f'}
      (entry : o.enter config settings f = (.waiting other, f₁))
      (ended : ¬ f.registry.IsOpen other)
      (rest : Evaluates o (.wait n settings other next true) f₁ result f') :
      Evaluates o (.drive n settings (.request config next)) f result f'
  | received {n settings other next moved v f f₁ result f'}
      (poll : Evaluates o (.poll other) f (.ok v) f₁)
      (rest : Evaluates o (.drive n settings (next v)) (f₁.receive (some n) other (.ok v))
        result f') :
      Evaluates o (.wait n settings other next moved) f result f'
  | passedOn {n settings other next moved e f f₁}
      (poll : Evaluates o (.poll other) f (.error e) f₁) :
      Evaluates o (.wait n settings other next moved) f (.error e)
        ((f₁.receive (some n) other (.error e)).finish n (.error e))
  | finished {n c result f} (lookup : f.registry.construction? n = some c)
      (stage : c.stage = .finished result) : Evaluates o (.poll n) f result f
  | unprepared {n c e graph f} (lookup : f.registry.construction? n = some c)
      (stage : c.stage = .fresh)
      (form : rawConfig o.preprocessors f.graph c.config = (.error e, graph)) :
      Evaluates o (.poll n) f (.error e)
        (((f.setStage n .running).setGraph graph).finish n (.error e))
  | prepared {n c raw graph f result f'} (lookup : f.registry.construction? n = some c)
      (stage : c.stage = .fresh)
      (form : rawConfig o.preprocessors f.graph c.config = (.ok raw, graph))
      (rest : Evaluates o (.drive n c.settings (o.strategy.build raw))
        (((f.setStage n .running).setGraph graph).setRaw n raw) result f') :
      Evaluates o (.poll n) f result f'

/-- Work that goes through to a result is work. -/
theorem Evaluates.runs {o : Factory} {t : Task} {f f' : Floor} {result : Except BuildError Json}
    (h : Evaluates o t f result f') : Runs o t f (.ready result) f' := by
  induction h with
  | done v => exact .done v
  | fail e => exact .fail e
  | read _ ih => exact .read ih
  | write _ ih => exact .write ih
  | answered entry _ ih => exact .answered entry ih
  | refused entry => exact .refused entry
  | request entry _ _ ih => exact .request entry ih
  | received _ _ ihp ihr => exact .received ihp ihr
  | passedOn _ ihp => exact .passedOn ihp
  | finished lookup stage => exact .finished lookup stage
  | unprepared lookup stage form => exact .unprepared lookup stage form
  | prepared lookup stage form _ ih => exact .prepared lookup stage form ih

/-- A caller's request for a config that is met in a single poll, without waiting for a construction
that was open before. -/
inductive Resolves (o : Factory) (settings : Settings) (config : NodeId) (f : Floor) :
    Except BuildError Json → Floor → Prop
  | direct {result f'} (entry : o.enter config settings f = (.answered result, f')) :
      Resolves o settings config f result f'
  | built {n result f₁ f'} (entry : o.enter config settings f = (.waiting n, f₁))
      (ended : ¬ f.registry.IsOpen n) (poll : Evaluates o (.poll n) f₁ result f') :
      Resolves o settings config f result (f'.receive none n result)

end Factory

/-! ## Which constructions may be open -/

namespace Registry

/-- All open constructions have keys in progress. -/
def Guarded (r : Registry) (settings : Settings) : Prop :=
  ∀ m c, r.construction? m = some c → c.stage.Open → settings.isInProgress c.key = true

/-- A construction has ended, or it is new and all open constructions have keys in progress for it. -/
def Clear (r : Registry) (n : Nat) : Prop :=
  ∃ c, r.construction? n = some c ∧
    ((∃ result, c.stage = .finished result) ∨ (c.stage = .fresh ∧ r.Guarded c.settings))

theorem Clear.stage {r : Registry} {n : Nat} {c : Construction} (h : r.Clear n)
    (hc : r.construction? n = some c) :
    (∃ result, c.stage = .finished result) ∨ (c.stage = .fresh ∧ r.Guarded c.settings) := by
  obtain ⟨d, hd, hcase⟩ := h
  obtain rfl : c = d := Option.some.inj (hc.symm.trans hd)
  exact hcase

/-- Keys in progress may become more. -/
theorem Guarded.descend {r : Registry} {settings : Settings} (h : r.Guarded settings)
    (key : String) : r.Guarded (settings.descend key) := by
  intro m c hc hopen
  exact (Settings.isInProgress_descend ..).mpr (.inr (h m c hc hopen))

/-- Later on the open constructions still have keys in progress, if they were open before. -/
theorem Guarded.leads {r r' : Registry} {settings : Settings} (h : r.Guarded settings)
    (hl : r.Leads r') (hopen : ∀ m, r'.IsOpen m → r.IsOpen m) : r'.Guarded settings := by
  intro m d hd hdopen
  obtain ⟨c, hc, hcopen⟩ := hopen m ⟨d, hd, hdopen⟩
  obtain ⟨d', hd', hbec⟩ := hl.becomes hc
  obtain rfl : d = d' := Option.some.inj (hd.symm.trans hd')
  rw [hbec.key]
  exact h m c hc hcopen

/-- Where nothing is open, everything open has its key in progress. -/
theorem guarded_of_ended {r : Registry} (h : ∀ m, ¬ r.IsOpen m) (settings : Settings) :
    r.Guarded settings :=
  fun m c hc hopen => absurd ⟨c, hc, hopen⟩ (h m)

/-- Of the constructions that were open before, one that ends is no longer open. -/
theorem isOpen_finish {r : Registry} {n m : Nat} {result : Except BuildError Json}
    (h : (r.finish n result).IsOpen m) : r.IsOpen m ∧ m ≠ n := by
  obtain ⟨c, hc, hopen⟩ := h
  rw [construction?_finish] at hc
  by_cases hm : n = m
  · rw [if_pos hm, Option.map_eq_some_iff] at hc
    obtain ⟨d, -, rfl⟩ := hc
    exact absurd rfl (hopen result)
  · rw [if_neg hm] at hc
    exact ⟨⟨c, hc, hopen⟩, Ne.symm hm⟩

end Registry

/-- A task is to evaluate: its build never suspends itself, the construction that it polls is new or
has ended, and all other open constructions have keys in progress. -/
def Task.Guarded : Task → Registry → Prop
  | .poll n, r => r.Clear n
  | .drive _ settings rest, r => rest.Pauseless ∧ r.Guarded settings
  | .wait _ settings other next _, r => (∀ v, (next v).Pauseless) ∧ r.Clear other ∧
      ∀ m c, r.construction? m = some c → c.stage.Open →
        m = other ∨ settings.isInProgress c.key = true

/-- A task ends these constructions. -/
def Task.Ends : Task → Nat → Prop
  | .poll n, m => m = n
  | .drive n _ _, m => m = n
  | .wait n _ other _ _, m => m = n ∨ m = other

/-- When what a task waits for has ended, its build goes on under the same guard. -/
theorem Task.Guarded.after {n other : Nat} {settings : Settings} {next : Json → Build Json}
    {moved : Bool} {r r' : Registry} (hg : (Task.wait n settings other next moved).Guarded r)
    (hl : r.Leads r') (hopen : ∀ m, r'.IsOpen m → r.IsOpen m ∧ m ≠ other) : r'.Guarded settings := by
  intro m d hd hdopen
  obtain ⟨⟨c, hc, hcopen⟩, hm⟩ := hopen m ⟨d, hd, hdopen⟩
  obtain ⟨d', hd', hbec⟩ := hl.becomes hc
  obtain rfl : d = d' := Option.some.inj (hd.symm.trans hd')
  exact hbec.key ▸ (hg.2.2 m c hc hcopen).resolve_left hm

namespace Factory

open Registry

variable {o : Factory} {settings : Settings} {f f₁ f' : Floor}

/-- What a request waits for was not open before, and is new or has ended. -/
theorem enter_guarded {config : NodeId} {n : Nat} (hord : f.registry.Orderly)
    (hg : f.registry.Guarded settings) (entry : o.enter config settings f = (.waiting n, f₁)) :
    ¬ f.registry.IsOpen n ∧ f₁.registry.Clear n ∧
      ∀ m, f₁.registry.IsOpen m → f.registry.IsOpen m ∨ m = n := by
  obtain ⟨key, hkey, ⟨hcur, rfl⟩ | ⟨hfree, hstart⟩⟩ := enter_waiting entry
  · -- the construction that is shared is not open, since its key is not in progress
    obtain ⟨c, hc, rfl, -⟩ := (hord.current_iff key n).mp hcur
    have hended : ¬ f₁.registry.IsOpen n := by
      rintro ⟨d, hd, hopen⟩
      obtain rfl : c = d := Option.some.inj (hc.symm.trans hd)
      have := hg n c hc hopen
      rw [hkey.notInProgress] at this
      cases this
    exact ⟨hended, ⟨c, hc, .inl (result_of_not_open hended hc)⟩, fun m => .inl⟩
  · cases hstart
    have hnew : (f.registry.start config key (settings.descend key)).2.construction?
        f.registry.history.size = some ⟨⟨config, key, settings.descend key⟩, none, .fresh⟩ :=
      construction?_start_self ..
    refine ⟨?_, ⟨_, hnew, .inr ⟨rfl, ?_⟩⟩, ?_⟩
    · rintro ⟨c, hc, -⟩
      rw [construction?_size] at hc
      cases hc
    · intro m c hc hopen
      rcases start_cases hc with ⟨-, rfl⟩ | ⟨-, hc⟩
      · exact (Settings.isInProgress_descend ..).mpr (.inl rfl)
      · exact (hg.descend key) m c hc hopen
    · rintro m ⟨c, hc, hopen⟩
      rcases start_cases hc with ⟨rfl, -⟩ | ⟨-, hc⟩
      · exact .inr rfl
      · exact .inl ⟨c, hc, hopen⟩

/-- A construction may begin its build if it is guarded. -/
theorem guarded_begin {n : Nat} {c : Construction} (hs : o.strategy.Pauseless)
    (lookup : f.registry.construction? n = some c) (stage : c.stage = .fresh)
    (hg : f.registry.Clear n) (graph : Graph) (raw : NodeId) :
    (Task.drive n c.settings (o.strategy.build raw)).Guarded
        (((f.setStage n .running).setGraph graph).setRaw n raw).registry ∧
      ∀ m, (((f.setStage n .running).setGraph graph).setRaw n raw).registry.IsOpen m →
        f.registry.IsOpen m := by
  have hopen : ∀ m, ((f.registry.setStage n .running).setRaw n raw).IsOpen m →
      f.registry.IsOpen m := by
    rintro m ⟨d, hd, hdopen⟩
    rcases modify_cases hd with ⟨rfl, -⟩ | ⟨hm, hd⟩
    · exact ⟨c, lookup, stage ▸ Stage.open_fresh⟩
    · rcases setStage_cases lookup hd with ⟨hn, -⟩ | ⟨-, hd⟩
      · exact absurd hn hm
      · exact ⟨d, hd, hdopen⟩
  refine ⟨⟨hs.build raw, ?_⟩, hopen⟩
  rcases hg.stage lookup with ⟨result, hresult⟩ | ⟨-, hguard⟩
  · rw [stage] at hresult
    cases hresult
  · have hl := (leads_setStage lookup (stage ▸ Stage.open_fresh) .running).trans
      (leads_setRaw _ n raw)
    exact hguard.leads hl hopen

/-- A build that asks for a config goes to wait under the same guard. -/
theorem guarded_request {n other : Nat} {config : NodeId}
    {next : Json → Build Json} {moved : Bool}
    (hg : (Task.drive n settings (.request config next)).Guarded f.registry)
    (hord : f.registry.Orderly) (entry : o.enter config settings f = (.waiting other, f₁)) :
    (Task.wait n settings other next moved).Guarded f₁.registry := by
  obtain ⟨hk, -, -⟩ := keeps_of_enter hord entry
  obtain ⟨-, hclear, hnew⟩ := enter_guarded hord hg.2 entry
  refine ⟨hg.1, hclear, fun m d hd hdopen => ?_⟩
  rcases hnew m ⟨d, hd, hdopen⟩ with ⟨c, hc, hcopen⟩ | rfl
  · obtain ⟨d', hd', hbec⟩ := hk.leads.becomes hc
    obtain rfl : d = d' := Option.some.inj (hd.symm.trans hd')
    exact .inr (hbec.key ▸ hg.2 m c hc hcopen)
  · exact .inl rfl

/-- **Work evaluates** as long as the open constructions have keys in progress, and leaves open only
what was open before. -/
theorem Runs.evaluates (hs : o.strategy.Pauseless) {t : Task} {p : Progress}
    (h : Runs o t f p f') (hord : f.registry.Orderly) (hatt : t.Attends f.registry)
    (hg : t.Guarded f.registry) :
    ∃ result, p = .ready result ∧ Evaluates o t f result f' ∧
      ∀ m, f'.registry.IsOpen m → f.registry.IsOpen m ∧ ¬ t.Ends m := by
  -- by induction on the work: nothing stops, so what a nested poll leaves open was open around it
  induction h with
  | done v => exact ⟨_, rfl, .done v, fun m => isOpen_finish⟩
  | fail e => exact ⟨_, rfl, .fail e, fun m => isOpen_finish⟩
  | suspend next => exact hg.1.elim
  | read _ ih =>
    obtain ⟨result, hp, heval, hopen⟩ := ih hord hatt ⟨hg.1 _ trivial, hg.2⟩
    exact ⟨result, hp, .read heval, hopen⟩
  | write _ ih =>
    obtain ⟨result, hp, heval, hopen⟩ := ih hord hatt ⟨hg.1.2, hg.2⟩
    exact ⟨result, hp, .write heval, hopen⟩
  | answered entry _ ih =>
    obtain ⟨rfl, -⟩ := enter_answered entry
    obtain ⟨result, hp, heval, hopen⟩ := ih hord hatt ⟨hg.1 _, hg.2⟩
    exact ⟨result, hp, .answered entry heval, hopen⟩
  | refused entry =>
    obtain ⟨rfl, -⟩ := enter_answered entry
    exact ⟨_, rfl, .refused entry, fun m => isOpen_finish⟩
  | request entry _ ih =>
    obtain ⟨hk, -, hother⟩ := keeps_of_enter hord entry
    obtain ⟨hended, -, hnew⟩ := enter_guarded hord hg.2 entry
    obtain ⟨result, hp, heval, hopen⟩ :=
      ih hk.orderly ⟨hatt.keeps hk, hother⟩ (guarded_request hg hord entry)
    refine ⟨result, hp, .request entry hended heval, fun m hm => ?_⟩
    obtain ⟨hm₁, hnot⟩ := hopen m hm
    have hm₂ := (hnew m hm₁).resolve_right fun hcon => hnot (.inr hcon)
    exact ⟨hm₂, fun hcon => hnot (.inl hcon)⟩
  | @received n settings other next moved v f f₁ p f' poll _ ihp ihr =>
    obtain ⟨result, hp, hpoll, hopen⟩ := ihp hord hatt.2 hg.2.1
    obtain rfl : Except.ok v = result := Progress.ready.inj hp
    obtain ⟨hk, -⟩ := poll.upkeep hord hatt.2
    have hk' := poll.keeps_receive hord hatt.2 (some n)
    obtain ⟨result, hp, heval, hopen'⟩ :=
      ihr hk'.orderly (hatt.1.keeps hk') ⟨hg.1 v, hg.after hk'.leads hopen⟩
    refine ⟨result, hp, .received hpoll heval, fun m hm => ?_⟩
    obtain ⟨hm₁, hn⟩ := hopen' m hm
    obtain ⟨hm₂, hother⟩ := hopen m hm₁
    exact ⟨hm₂, fun hcon => hcon.elim hn hother⟩
  | @passedOn n settings other next moved e f f₁ poll ihp =>
    obtain ⟨result, hp, hpoll, hopen⟩ := ihp hord hatt.2 hg.2.1
    obtain rfl : Except.error e = result := Progress.ready.inj hp
    refine ⟨_, rfl, .passedOn hpoll, fun m hm => ?_⟩
    obtain ⟨hm₁, hn⟩ := isOpen_finish hm
    obtain ⟨hm₂, hother⟩ := hopen m hm₁
    exact ⟨hm₂, fun hcon => hcon.elim hn hother⟩
  | blocked poll ihp =>
    obtain ⟨result, hp, -⟩ := ihp hord hatt.2 hg.2.1
    cases hp
  | missing lookup =>
    obtain ⟨c, hc⟩ := hatt
    cases lookup.symm.trans hc
  | @finished n c result f lookup stage =>
    refine ⟨_, rfl, .finished lookup stage, fun m hm => ⟨hm, ?_⟩⟩
    rintro rfl
    obtain ⟨d, hd, hopen⟩ := hm
    obtain rfl : c = d := Option.some.inj (lookup.symm.trans hd)
    exact hopen result stage
  | unprepared lookup stage form =>
    refine ⟨_, rfl, .unprepared lookup stage form, fun m hm => ?_⟩
    obtain ⟨⟨d, hd, hopen⟩, hm⟩ := isOpen_finish hm
    rcases setStage_cases lookup hd with ⟨hn, -⟩ | ⟨-, hd⟩
    · exact absurd hn hm
    · exact ⟨⟨d, hd, hopen⟩, hm⟩
  | @prepared n c raw graph f p f' lookup stage form _ ih =>
    obtain ⟨hord', hp⟩ := hord.pollFresh lookup stage raw
    obtain ⟨hdrive, hbefore⟩ := guarded_begin hs lookup stage hg graph raw
    obtain ⟨result, hp, heval, hopen⟩ := ih hord' hp hdrive
    refine ⟨result, hp, .prepared lookup stage form heval, fun m hm => ?_⟩
    obtain ⟨hm₁, hn⟩ := hopen m hm
    exact ⟨hbefore m hm₁, hn⟩
  | running lookup stage =>
    rcases Clear.stage hg lookup with ⟨result, hresult⟩ | ⟨hfresh, -⟩
    · cases stage.symm.trans hresult
    · cases stage.symm.trans hfresh
  | resumed lookup stage =>
    rcases Clear.stage hg lookup with ⟨result, hresult⟩ | ⟨hfresh, -⟩
    · cases stage.symm.trans hresult
    · cases stage.symm.trans hfresh
  | awaited lookup stage =>
    rcases Clear.stage hg lookup with ⟨result, hresult⟩ | ⟨hfresh, -⟩
    · cases stage.symm.trans hresult
    · cases stage.symm.trans hfresh

/-! ## Requests of callers -/

/-- In a factory where nothing is open, a poll settles a request that has not been polled, and again
nothing is open. -/
theorem Serves.settles (hs : o.strategy.Pauseless) {r r' : Request} {moved : Bool}
    (h : Serves o settings r f r' moved f') (hf : f.On .standing)
    (hended : ∀ m, ¬ f.registry.IsOpen m) (hr : ∀ n, r ≠ .waiting n) :
    (∀ n, r' ≠ .waiting n) ∧ ∀ m, ¬ f'.registry.IsOpen m := by
  cases h with
  | settled => exact ⟨hr, hended⟩
  | answered entry =>
    obtain ⟨rfl, -⟩ := enter_answered entry
    exact ⟨nofun, hended⟩
  | @entered config n _ _ _ f₁ _ entry rest =>
    obtain ⟨hk, -, hn⟩ := keeps_of_enter hf.orderly entry
    obtain ⟨-, hclear, hnew⟩ :=
      enter_guarded hf.orderly (guarded_of_ended hended settings) entry
    -- the construction that the request waits for is the only one that may be open
    have hrest : ∀ {p f'}, Runs o (.poll n) f₁ p f' →
        (∃ result, p = .ready result) ∧ ∀ m, ¬ f'.registry.IsOpen m := by
      intro p f' hpoll
      obtain ⟨result, hp, -, hopen⟩ := hpoll.evaluates hs hk.orderly hn hclear
      refine ⟨⟨result, hp⟩, fun m hm => ?_⟩
      obtain ⟨hm₁, hne⟩ := hopen m hm
      exact hended m ((hnew m hm₁).resolve_right hne)
    cases rest with
    | received poll => exact ⟨nofun, (hrest poll).2⟩
    | pending poll =>
      obtain ⟨result, hp⟩ := (hrest poll).1
      cases hp
  | received poll => exact absurd rfl (hr _)
  | pending poll => exact absurd rfl (hr _)

/-- After a join nothing is open, if nothing was open before. -/
theorem Concludes.ended (hs : o.strategy.Pauseless) {configs : List NodeId} {joined : Joined}
    (h : Concludes o settings (configs.map .new) f joined f') (hf : f.On .standing)
    (hended : ∀ m, ¬ f.registry.IsOpen m) (m : Nat) : ¬ f'.registry.IsOpen m := by
  let I (rs : List Request) (f : Floor) : Prop :=
    (∀ r ∈ rs, ∀ n, r ≠ .waiting n) ∧ ∀ m, ¬ f.registry.IsOpen m
  have hnew : I (configs.map .new) f := by
    refine ⟨fun r hr => ?_, hended⟩
    obtain ⟨config, -, rfl⟩ := List.mem_map.mp hr
    nofun
  have step : ∀ {before r after f r' moved f'}, f.On .standing → r.Placed f →
      I (before ++ r :: after) f → Serves o settings r f r' moved f' →
      I (before ++ r' :: after) f' := by
    rintro before r after f r' moved f' hf - ⟨hrs, hended⟩ hserve
    obtain ⟨hr', hended'⟩ := hserve.settles hs hf hended (hrs r (by simp))
    refine ⟨fun q hq => ?_, hended'⟩
    rcases List.mem_append.mp hq with hq | hq
    · exact hrs q (List.mem_append_left _ hq)
    · rcases List.mem_cons.mp hq with rfl | hq
      · exact hr'
      · exact hrs q (by simp [hq])
  obtain ⟨rs, ⟨-, hended'⟩, -⟩ := h.preserves (I := I) step hf hnew
  exact hended' m

end Factory

/-- **Between commands nothing is open** in pools whose builds never suspend themselves. -/
theorem Session.ended_of_pauseless {cs : List Command} {answers : List Answer} {s : Session}
    (h : Session.run {} cs = some (answers, s)) {i : Nat} {p : Pool} (hp : s.pools[i]? = some p)
    (hs : p.factory.strategy.Pauseless) (n : Nat) : ¬ p.registry.IsOpen n := by
  have hinv : Session.Invariant (fun _ => True) fun _ p =>
      p.factory.strategy.Pauseless → ∀ n, ¬ p.registry.IsOpen n := by
    refine ⟨fun _ _ _ _ n hn => ?_, fun h _ => h, fun hrest hp _ hj hs => ?_⟩
    · obtain ⟨c, hc, -⟩ := hn
      cases hc
    · exact (Factory.concludes_of_join hj).ended hs hrest.floor (hp hs)
  exact (hinv.run h fun _ _ => trivial).2 hp hs n

end Wiring

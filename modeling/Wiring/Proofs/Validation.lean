import Wiring.Proofs.BackEdges
import Wiring.Proofs.Preparations

/-!
# Only validated configs are built

All work is a trace (`Factory.Runs.traces`), and so is the way into its middle (`Factory.Calls.traces`), so
that it does not matter whether the work ends. So wherever a join has got to, its way there is a trace
(`Factory.ComesToPoll.traces`). When it polls a fresh construction and goes on with a build, that is the
build of a valid raw config, and the construction is prepared then and never else
(`Session.builds_validated`).
-/

namespace Wiring

open Relation

namespace Registry

/-- A construction has begun, and is to build a raw config. -/
def Building (r : Registry) (n : Nat) (raw : NodeId) : Prop :=
  ∃ c, r.construction? n = some c ∧ c.stage ≠ .fresh ∧ c.raw = some raw

variable {r r' : Registry} {n : Nat} {raw : NodeId} {log : List Preparation}

theorem Building.begun (h : r.Building n raw) : r.HasBegun n := by
  obtain ⟨c, hc, hs, -⟩ := h
  exact ⟨c, hc, hs⟩

theorem Building.raw_eq {c : Construction} (h : r.Building n raw) (hc : r.construction? n = some c) :
    c.raw = some raw := by
  obtain ⟨d, hd, -, hraw⟩ := h
  obtain rfl : c = d := Option.some.inj (hc.symm.trans hd)
  exact hraw

theorem Building.later (h : r.Building n raw) (hb : r.Begins log r') : r'.Building n raw := by
  obtain ⟨c, hc, hs, hraw⟩ := h
  have hprepared : r.Prepared ⟨n, c.config, .ok raw⟩ := by
    refine ⟨c, hc, hs, rfl, fun x hx => ?_⟩
    cases hx
    exact hraw
  obtain ⟨d, hd, hs', -, hraw'⟩ := hb.stays _ hprepared
  exact ⟨d, hd, hs', hraw' raw rfl⟩

end Registry

/-- What a task carries on comes to what the strategy makes of the raw config of its construction. -/
def Task.Fit (s : Strategy) : Task → Floor → Prop
  | .poll _, _ => True
  | .drive n _ rest, f => ∃ raw, f.registry.Building n raw ∧ rest.Makes s f.graph raw f.bench
  | .wait n _ _ next _, f => ∃ raw, f.registry.Building n raw ∧
      ∀ v w, (next v).Makes s f.graph raw w

namespace Factory

variable {o : Factory} {settings : Settings} {f f₁ f' : Floor}

/-! ## The parts of work -/

/-- Entering a request is a trace. -/
theorem enter_traces {config : NodeId} {n : Nat} (entry : o.enter config settings f = (.waiting n, f₁)) :
    Traces o f [] f₁ ∧ f₁.graph = f.graph := by
  obtain ⟨key, -, ⟨-, rfl⟩ | ⟨-, hstart⟩⟩ := enter_waiting entry
  · exact ⟨.refl, rfl⟩
  · obtain rfl := congrArg Prod.snd hstart
    exact ⟨.single .start, rfl⟩

/-- A build writes, and goes on. -/
theorem fit_write {n : Nat} {bench : Workbench} {next : Build Json}
    (h : (Task.drive n settings (.write bench next)).Fit o.strategy f) :
    Traces o f [] { f with bench } ∧
      (Task.drive n settings next).Fit o.strategy { f with bench } := by
  obtain ⟨raw, hbuilding, hmakes⟩ := h
  have hgraph : bench.store.graph = f.graph := (hmakes ⟨0, "", {}⟩).1
  refine ⟨.single (.write hgraph), raw, hbuilding, fun e => ?_⟩
  show next.Within _ e (fun v _ => o.strategy.Makes bench.store.graph raw v) bench
  rw [hgraph]
  exact (hmakes e).2

/-- A build asks for a config, and is answered at once. -/
theorem fit_answered {n : Nat} {config : NodeId} {next : Json → Build Json}
    (h : (Task.drive n settings (.request config next)).Fit o.strategy f) (v : Json) :
    (Task.drive n settings (next v)).Fit o.strategy f := by
  obtain ⟨raw, hbuilding, hmakes⟩ := h
  exact ⟨raw, hbuilding, fun e => (hmakes e).2.2 v trivial f.bench trivial⟩

/-- A build asks for a config, and waits. -/
theorem fit_request {n other : Nat} {config : NodeId} {next : Json → Build Json} {moved : Bool}
    (h : (Task.drive n settings (.request config next)).Fit o.strategy f)
    (entry : o.enter config settings f = (.waiting other, f₁)) :
    Traces o f [] f₁ ∧ (Task.wait n settings other next moved).Fit o.strategy f₁ := by
  obtain ⟨raw, hbuilding, hmakes⟩ := h
  obtain ⟨htraces, hgraph⟩ := enter_traces entry
  refine ⟨htraces, raw, hbuilding.later htraces.begins, fun v w e => ?_⟩
  rw [hgraph]
  exact (hmakes e).2.2 v trivial w trivial

/-- A build that waits still fits when what it waits for has been worked on. -/
theorem fit_wait {n other : Nat} {next : Json → Build Json} {moved : Bool} {log : List Preparation}
    (h : (Task.wait n settings other next moved).Fit o.strategy f) (ht : Traces o f log f₁) :
    (Task.wait n settings other next moved).Fit o.strategy f₁ := by
  obtain ⟨raw, hbuilding, hmakes⟩ := h
  exact ⟨raw, hbuilding.later ht.begins, fun v w => (hmakes v w).later ht.prepares.precedes⟩

/-- A build that waits goes on with the instance that it gets. -/
theorem fit_received {n other : Nat} {next : Json → Build Json} {moved : Bool}
    {log : List Preparation} (h : (Task.wait n settings other next moved).Fit o.strategy f)
    (ht : Traces o f log f₁) (v : Json) :
    Traces o f log (f₁.receive (some n) other (.ok v)) ∧
      (Task.drive n settings (next v)).Fit o.strategy (f₁.receive (some n) other (.ok v)) := by
  have hreceive := ht.receive (some n) other (.ok v)
  obtain ⟨raw, hbuilding, hmakes⟩ := fit_wait h hreceive
  exact ⟨hreceive, raw, hbuilding, hmakes v _⟩

/-- A fresh construction goes on to build a raw config. -/
theorem fit_prepared {n : Nat} {c : Construction} {raw : NodeId} {graph : Graph}
    (hclosed : f.graph.Closed) (lookup : f.registry.construction? n = some c)
    (fresh : c.stage = .fresh)
    (form : rawConfig o.preprocessors f.graph c.config = (.ok raw, graph)) :
    Traces o f [⟨n, c.config, .ok raw⟩] (((f.setStage n .running).setGraph graph).setRaw n raw) ∧
      (Task.drive n c.settings (o.strategy.build raw)).Fit o.strategy
        (((f.setStage n .running).setGraph graph).setRaw n raw) := by
  have hstep : Step o f _ _ := .prepare lookup fresh form
  obtain ⟨d, hd, hs, -, hraw⟩ := hstep.begins.prepared _ (List.mem_singleton.mpr rfl)
  have hgraph : graph.Closed := hstep.prepares.grows.closed hclosed
  exact ⟨.single hstep, raw, ⟨d, hd, hs, hraw raw rfl⟩, o.strategy.makes_build rfl
    (hgraph.validate_iff.mp (transforms_of_rawConfig form).2)⟩

/-- The build of a raw config goes on with its description. -/
theorem calls_described {n : Nat} {raw : NodeId} (hs : o.strategy = .describe)
    (hraw : f.graph.IsRaw raw) :
    ∃ name t, f.graph.property? raw Components.requireName = some name ∧ f.graph.term? name = some t ∧
      t.kind = .literal ∧ o.Calls (.drive n settings (o.strategy.build raw), f)
        (.drive n settings (Describe.described f.graph raw t.value), f) := by
  obtain ⟨name, t, hname, ht, hliteral⟩ := hraw.exists_name
  obtain ⟨next, hbuild, hnext⟩ := Describe.build_eq (w := f.bench) hraw.found hname ht
  have hread : o.Calls (.drive n settings (.read next), f) (.drive n settings (next f.bench), f) := .read
  rw [hnext, ← hbuild] at hread
  refine ⟨name, t, hname, ht, hliteral, ?_⟩
  rw [hs]
  exact hread

/-- A construction that has suspended itself goes on with the rest of its build. -/
theorem fit_resumed {n : Nat} {c : Construction} {next : Build Json}
    (hf : f.registry.Sound o.strategy f.graph) (lookup : f.registry.construction? n = some c)
    (stage : c.stage = .suspended next) :
    Traces o f [] (f.setStage n .running) ∧
      (Task.drive n c.settings next).Fit o.strategy (f.setStage n .running) := by
  have hsound := hf n c lookup
  rw [stage] at hsound
  obtain ⟨raw, hraw, hmakes⟩ := hsound
  have hbuilding : f.registry.Building n raw := ⟨c, lookup, by rw [stage]; nofun, hraw⟩
  have hstep : Step o f [] (f.setStage n .running) := .move hbuilding.begun nofun fun _ _ => trivial
  exact ⟨.single hstep, raw, hbuilding.later hstep.begins, hmakes _⟩

/-- A construction that waits goes on waiting. -/
theorem fit_awaited {n other : Nat} {c : Construction} {next : Json → Build Json} {moved : Bool}
    (hf : f.registry.Sound o.strategy f.graph) (lookup : f.registry.construction? n = some c)
    (stage : c.stage = .awaiting other next) :
    Traces o f [] (f.setStage n .running) ∧
      (Task.wait n c.settings other next moved).Fit o.strategy (f.setStage n .running) := by
  have hsound := hf n c lookup
  rw [stage] at hsound
  obtain ⟨raw, hraw, hmakes⟩ := hsound
  have hbuilding : f.registry.Building n raw := ⟨c, lookup, by rw [stage]; nofun, hraw⟩
  have hstep : Step o f [] (f.setStage n .running) := .move hbuilding.begun nofun fun _ _ => trivial
  exact ⟨.single hstep, raw, hbuilding.later hstep.begins, hmakes⟩

/-- A construction that has begun fails. -/
theorem step_fails {n : Nat} (h : f.registry.HasBegun n) (e : BuildError) :
    Step o f [] (f.finish n (.error e)) :=
  .finish h fun _ _ => trivial

/-- A floor with closed graph, on which constructions are sound. -/
structure Workable (o : Factory) (f : Floor) : Prop where
  closed : f.graph.Closed
  sound : f.registry.Sound o.strategy f.graph

theorem Workable.traces {log : List Preparation} (h : o.Workable f) (ht : Traces o f log f') :
    o.Workable f' :=
  ⟨ht.prepares.grows.closed h.closed, ht.sound h.sound⟩

/-! ## All work is a trace -/

/-- **Work is a trace** of small steps. -/
theorem Runs.traces {t : Task} {p : Progress} (h : Runs o t f p f') (hf : o.Workable f)
    (ht : t.Fit o.strategy f) : ∃ log, Traces o f log f' := by
  induction h with
  | done v =>
    obtain ⟨raw, hbuilding, hmakes⟩ := ht
    have hv : o.strategy.Makes _ raw v := hmakes ⟨0, "", {}⟩
    exact ⟨_, .single (.finish hbuilding.begun fun c hc => ⟨raw, hbuilding.raw_eq hc, hv⟩)⟩
  | fail e =>
    obtain ⟨raw, hbuilding, -⟩ := ht
    exact ⟨_, .single (step_fails hbuilding.begun e)⟩
  | suspend next =>
    obtain ⟨raw, hbuilding, hmakes⟩ := ht
    exact ⟨_, .single (.move hbuilding.begun nofun fun c hc =>
      ⟨raw, hbuilding.raw_eq hc, fun w e => hmakes e w trivial⟩)⟩
  | read _ ih => exact ih hf ht
  | write _ ih =>
    obtain ⟨hwrite, ht⟩ := fit_write ht
    obtain ⟨log, hrest⟩ := ih (hf.traces hwrite) ht
    exact ⟨_, hwrite.trans hrest⟩
  | answered entry _ ih =>
    obtain ⟨rfl, -⟩ := enter_answered entry
    exact ih hf (fit_answered ht _)
  | refused entry =>
    obtain ⟨rfl, -⟩ := enter_answered entry
    obtain ⟨raw, hbuilding, -⟩ := ht
    exact ⟨_, .single (step_fails hbuilding.begun _)⟩
  | request entry _ ih =>
    obtain ⟨hentry, ht⟩ := fit_request ht entry
    obtain ⟨log, hrest⟩ := ih (hf.traces hentry) ht
    exact ⟨_, hentry.trans hrest⟩
  | @received n settings other next moved v f f₁ p f' _ _ ihp ihr =>
    obtain ⟨log, hpoll⟩ := ihp hf trivial
    obtain ⟨hreceive, ht⟩ := fit_received ht hpoll v
    obtain ⟨log', hrest⟩ := ihr (hf.traces hreceive) ht
    exact ⟨_, hreceive.trans hrest⟩
  | @passedOn n settings other next moved e f f₁ _ ihp =>
    obtain ⟨log, hpoll⟩ := ihp hf trivial
    have hreceive := hpoll.receive (some n) other (.error e)
    obtain ⟨raw, hbuilding, -⟩ := fit_wait ht hreceive
    exact ⟨_, hreceive.concat (step_fails hbuilding.begun _)⟩
  | blocked _ ihp =>
    obtain ⟨log, hpoll⟩ := ihp hf trivial
    obtain ⟨raw, hbuilding, hmakes⟩ := fit_wait ht hpoll
    exact ⟨_, hpoll.concat (.move hbuilding.begun nofun fun c hc =>
      ⟨raw, hbuilding.raw_eq hc, hmakes⟩)⟩
  | missing lookup => exact ⟨_, .refl⟩
  | finished lookup stage => exact ⟨_, .refl⟩
  | running lookup stage => exact ⟨_, .refl⟩
  | unprepared lookup stage form =>
    have hrefuse : Step o _ _ _ := .refuse lookup stage form
    have hprepared := hrefuse.begins.prepared _ (List.mem_singleton.mpr rfl)
    exact ⟨_, (Traces.single hrefuse).concat (step_fails hprepared.begun _)⟩
  | prepared lookup stage form _ ih =>
    obtain ⟨hprepare, ht⟩ := fit_prepared hf.closed lookup stage form
    obtain ⟨log, hrest⟩ := ih (hf.traces hprepare) ht
    exact ⟨_, hprepare.trans hrest⟩
  | resumed lookup stage _ ih =>
    obtain ⟨hresume, ht⟩ := fit_resumed hf.sound lookup stage
    obtain ⟨log, hrest⟩ := ih (hf.traces hresume) ht
    exact ⟨_, hresume.trans hrest⟩
  | awaited lookup stage _ ih =>
    obtain ⟨hresume, ht⟩ := fit_awaited hf.sound lookup stage
    obtain ⟨log, hrest⟩ := ih (hf.traces hresume) ht
    exact ⟨_, hresume.trans hrest⟩

/-- **The way into the middle of work is a trace**, too. -/
theorem Calls.traces {t t' : Task} (h : o.Calls (t, f) (t', f')) (hf : o.Workable f)
    (ht : t.Fit o.strategy f) : ∃ log, Traces o f log f' ∧ t'.Fit o.strategy f' := by
  cases h with
  | read => exact ⟨_, .refl, ht⟩
  | write => exact ⟨_, fit_write ht⟩
  | answered entry =>
    obtain ⟨rfl, -⟩ := enter_answered entry
    exact ⟨_, .refl, fit_answered ht _⟩
  | request entry => exact ⟨_, fit_request ht entry⟩
  | poll => exact ⟨_, .refl, trivial⟩
  | @received n settings other next moved v f f₁ poll =>
    obtain ⟨log, hpoll⟩ := poll.traces hf trivial
    exact ⟨_, fit_received ht hpoll v⟩
  | prepared lookup stage form => exact ⟨_, fit_prepared hf.closed lookup stage form⟩
  | resumed lookup stage => exact ⟨_, fit_resumed hf.sound lookup stage⟩
  | awaited lookup stage => exact ⟨_, fit_awaited hf.sound lookup stage⟩

/-- The whole way into the middle of work is a trace. -/
theorem traces_of_calls {work work' : Task × Floor} (h : ReflTransGen o.Calls work work')
    (hf : o.Workable work.2) (ht : work.1.Fit o.strategy work.2) :
    ∃ log, Traces o work.2 log work'.2 := by
  have hway : ∃ log, Traces o work.2 log work'.2 ∧ work'.1.Fit o.strategy work'.2 := by
    induction h with
    | refl => exact ⟨_, .refl, ht⟩
    | @tail b c _ hcall ih =>
      obtain ⟨log, htraces, hfit⟩ := ih
      have hcall : o.Calls (b.1, b.2) (c.1, c.2) := hcall
      obtain ⟨log', hnext, hfit'⟩ := hcall.traces (hf.traces htraces) hfit
      exact ⟨_, htraces.trans hnext, hfit'⟩
  obtain ⟨log, htraces, -⟩ := hway
  exact ⟨log, htraces⟩

/-! ## Joins -/

theorem Serves.traces {r r' : Request} {moved : Bool} (h : Serves o settings r f r' moved f')
    (hf : o.Workable f) : ∃ log, Traces o f log f' := by
  induction h with
  | settled => exact ⟨_, .refl⟩
  | answered entry =>
    obtain ⟨rfl, -⟩ := enter_answered entry
    exact ⟨_, .refl⟩
  | entered entry _ ih =>
    obtain ⟨hentry, -⟩ := enter_traces entry
    obtain ⟨log, hrest⟩ := ih (hf.traces hentry)
    exact ⟨_, hentry.trans hrest⟩
  | received poll =>
    obtain ⟨log, hpoll⟩ := poll.traces hf trivial
    exact ⟨_, hpoll.receive none _ _⟩
  | pending poll => exact poll.traces hf trivial

theorem Sweeps.traces {rs rs' : List Request} {moved : Bool}
    (h : Sweeps o settings rs f rs' moved f') (hf : o.Workable f) : ∃ log, Traces o f log f' := by
  induction h with
  | nil => exact ⟨_, .refl⟩
  | cons head _ ih =>
    obtain ⟨log, hhead⟩ := head.traces hf
    obtain ⟨log', htail⟩ := ih (hf.traces hhead)
    exact ⟨_, hhead.trans htail⟩

/-- A join is a trace. -/
theorem Concludes.traces {rs : List Request} {joined : Joined} (h : Concludes o settings rs f joined f')
    (hf : o.Workable f) : ∃ log, Traces o f log f' := by
  induction h with
  | answers round _ => exact round.traces hf
  | deadlock round _ => exact round.traces hf
  | again round _ _ ih =>
    obtain ⟨log, hround⟩ := round.traces hf
    obtain ⟨log', hrest⟩ := ih (hf.traces hround)
    exact ⟨_, hround.trans hrest⟩

theorem RoundPolls.traces {rs : List Request} {n : Nat} (h : RoundPolls o settings rs f n f')
    (hf : o.Workable f) : ∃ log, Traces o f log f' := by
  induction h with
  | waiting => exact ⟨_, .refl⟩
  | entered entry => exact ⟨_, (enter_traces entry).1⟩
  | later head _ ih =>
    obtain ⟨log, hhead⟩ := head.traces hf
    obtain ⟨log', hrest⟩ := ih (hf.traces hhead)
    exact ⟨_, hhead.trans hrest⟩

theorem JoinPolls.traces {rs : List Request} {n : Nat} (h : JoinPolls o settings rs f n f')
    (hf : o.Workable f) : ∃ log, Traces o f log f' := by
  induction h with
  | now h => exact h.traces hf
  | again round _ _ ih =>
    obtain ⟨log, hround⟩ := round.traces hf
    obtain ⟨log', hrest⟩ := ih (hf.traces hround)
    exact ⟨_, hround.trans hrest⟩

/-- In the course of a join a construction is polled, be it for a caller or for another construction. -/
def ComesToPoll (o : Factory) (settings : Settings) (configs : List NodeId) (f : Floor) (n : Nat)
    (f' : Floor) : Prop :=
  ∃ m f₁, o.JoinPolls settings (configs.map .new) f m f₁ ∧
    ReflTransGen o.Calls (.poll m, f₁) (.poll n, f')

/-- **Up to any poll a join is a trace**, whether or not it ends. -/
theorem ComesToPoll.traces {configs : List NodeId} {n : Nat}
    (h : o.ComesToPoll settings configs f n f') (hf : o.Workable f) : ∃ log, Traces o f log f' := by
  obtain ⟨m, f₁, hjoin, hcalls⟩ := h
  obtain ⟨log, htraces⟩ := hjoin.traces hf
  obtain ⟨log', hcalls⟩ := traces_of_calls hcalls (hf.traces htraces) trivial
  exact ⟨_, htraces.trans hcalls⟩

/-- A join whose first config has no current construction comes to poll a fresh one. -/
theorem comesToPoll_of_free (configs : List NodeId) {config : NodeId} {key : String}
    (h : Constructs f.graph settings config key) (hfree : f.registry.current? key = none) :
    ∃ f₁ c, o.ComesToPoll settings (config :: configs) f f.registry.history.size f₁ ∧
      f₁.graph = f.graph ∧ f₁.registry.construction? f.registry.history.size = some c ∧
      c.stage = .fresh ∧ c.config = config ∧ c.settings = settings.descend key :=
  ⟨_, _, ⟨_, _, .now (.entered (enter_free h hfree)), .refl⟩, rfl,
    Registry.construction?_start_self f.registry config key _, rfl, rfl, rfl⟩

end Factory

/-! ## Sessions -/

namespace Session

variable {s s' : Session} {i : Nat} {p : Pool}

/-- All constructions of all pools are sound. -/
theorem sound_of_run {cs : List Command} {answers : List Answer}
    (h : Session.run {} cs = some (answers, s)) (hp : s.pools[i]? = some p) :
    p.registry.Sound p.factory.strategy s.store.graph := by
  -- from the last command on, since a join begins where the commands before it have ended
  induction cs using List.reverseRecOn generalizing answers s i p with
  | nil =>
    cases h
    cases hp
  | append_singleton cs c ih =>
    obtain ⟨as, s₁, bs, hrun, hlast, -⟩ := run_append h
    obtain ⟨⟨answer, s₂⟩, hstep, hrest⟩ := Option.bind_eq_some_iff.mp hlast
    have hlater : s₁.store.graph.Precedes s.store.graph := precedes_of_run hrun hlast
    obtain rfl : s₂ = s := by
      cases hrest
      rfl
    have hold : ∀ {j : Nat} {q : Pool}, s₁.pools[j]? = some q →
        q.registry.Sound q.factory.strategy s₂.store.graph := fun hq => (ih hrun hq).later hlater
    cases moves_of_step hstep with
    | grows pools => exact hold (pools ▸ hp)
    | opens factory failures =>
      rw [Array.getElem?_push] at hp
      split at hp
      · cases hp
        exact .empty
      · exact hold hp
    | @joins j q settings configs joined floor pool job =>
      rcases getElem?_pools_joins pool hp with ⟨rfl, rfl⟩ | ⟨-, hp⟩
      · have hf : q.factory.Workable (q.floor s₁.store) :=
          ⟨(atRest_of_run hrun).closed, ih hrun pool⟩
        obtain ⟨log, htraces⟩ := (Factory.concludes_of_join job).traces hf
        exact htraces.sound hf.sound
      · exact hold hp

/-- Pools are workable between commands. -/
theorem workable_of_run {cs : List Command} {answers : List Answer}
    (h : Session.run {} cs = some (answers, s)) (hp : s.pools[i]? = some p) :
    p.factory.Workable (p.floor s.store) :=
  ⟨(atRest_of_run h).closed, sound_of_run h hp⟩

/-- **Only validated raw configs are built.** When a join of a pool comes to poll a fresh construction and
goes on with a task, that task is the build of a raw config. This is what the first preprocessor that
handles the config has made of it, or the config itself, and it exists; its component name is a literal, and
so are the other fields of its shape, if they are there. The graph has become what it is by the preparations
of the constructions that have begun so far, each of them prepared once, the last one just now. If the pool
describes components, the build goes on with the description.

When a join has ended, too, each construction that has begun meanwhile has been prepared once. And all
descriptions that have come of constructions show the text of a literal that is the component name. -/
theorem builds_validated {cs : List Command} {answers : List Answer}
    (h : Session.run {} cs = some (answers, s)) (hp : s.pools[i]? = some p) :
    (∀ {settings configs n f c t f'},
      p.factory.ComesToPoll settings configs (p.floor s.store) n f →
      f.registry.construction? n = some c → c.stage = .fresh → p.factory.Calls (.poll n, f) (t, f') →
      ∃ raw, t = .drive n c.settings (p.factory.strategy.build raw) ∧ f'.graph.IsRaw raw ∧
        Transforms p.factory.preprocessors f.graph c.config (.ok raw) f'.graph ∧
        (∃ log, Prepares p.factory.preprocessors s.store.graph (log ++ [⟨n, c.config, .ok raw⟩]) f'.graph ∧
          p.registry.Begins (log ++ [⟨n, c.config, .ok raw⟩]) f'.registry) ∧
        (p.factory.strategy = .describe → ∃ name t',
          f'.graph.property? raw Components.requireName = some name ∧ f'.graph.term? name = some t' ∧
            t'.kind = .literal ∧ p.factory.Calls (t, f')
              (.drive n c.settings (Describe.described f'.graph raw t'.value), f'))) ∧
      (∀ {settings configs joined s'},
        s.step (.join i settings configs) = some (.joined joined, s') → ∃ p' log,
          s'.pools[i]? = some p' ∧ p.registry.Begins log p'.registry ∧
          Prepares p.factory.preprocessors s.store.graph log s'.store.graph) ∧
      (p.factory.strategy = .describe → ∀ {n v}, p.registry.instance? n = some v →
        ∃ c raw, p.registry.construction? n = some c ∧ c.raw = some raw ∧
          Describe.Shows s.store.graph raw v) := by
  have hf := workable_of_run h hp
  refine ⟨?_, ?_, ?_⟩
  · intro settings configs n f c t f' hway hc hfresh hcall
    obtain ⟨log, htraces⟩ := hway.traces hf
    have hf₁ := hf.traces htraces
    cases hcall with
    | @prepared _ c' raw graph _ lookup stage form =>
      obtain rfl : c = c' := Option.some.inj (hc.symm.trans lookup)
      obtain ⟨hprepare, -⟩ := Factory.fit_prepared hf₁.closed lookup stage form
      obtain ⟨htransforms, hvalid⟩ := transforms_of_rawConfig form
      have hclosed := (hf₁.traces hprepare).closed
      have hraw := hclosed.validate_iff.mp hvalid
      have hall := htraces.trans hprepare
      exact ⟨raw, rfl, hraw, htransforms, ⟨log, hall.prepares, hall.begins⟩,
        fun hs => Factory.calls_described hs hraw⟩
    -- a construction that goes on with the rest of its build is not fresh
    | resumed lookup stage =>
      obtain rfl := Option.some.inj (hc.symm.trans lookup)
      cases stage.symm.trans hfresh
    | awaited lookup stage =>
      obtain rfl := Option.some.inj (hc.symm.trans lookup)
      cases stage.symm.trans hfresh
  · intro settings configs joined s' hstep
    obtain ⟨q, floor, hq, hjob, hstore, hp'⟩ := step_join hstep
    obtain rfl : p = q := Option.some.inj (hp.symm.trans hq)
    obtain ⟨log, htraces⟩ := (Factory.concludes_of_join hjob).traces hf
    refine ⟨_, log, hp', htraces.begins, ?_⟩
    rw [hstore]
    exact htraces.prepares
  · intro hs n v hv
    obtain ⟨c, hc, hdone⟩ := Registry.instance?_eq_some.mp hv
    have hsound := hf.sound n c hc
    rw [hdone] at hsound
    obtain ⟨raw, hraw, hmakes⟩ := hsound
    exact ⟨c, raw, hc, hraw, hmakes hs⟩

/-- Two configs are written in a dialect, and the first one is an argument of the second one. Of the two
preprocessors that handle them the first one expands them. The first config has been described. -/
def dialect : List Command :=
  [.update (.named "ex:a"), .update (.named "ex:b"), .update (.literal "Engine"),
    .update (.addType 0 "ex:Dialect"), .update (.addType 1 "ex:Dialect"),
    .update (.addProperty 0 "ex:makes" 2), .update (.addProperty 1 "ex:makes" 2),
    .update (.addProperty 1 Components.arguments 0),
    .openPool { strategy := .describe, preprocessors :=
      [⟨"ex:Dialect", "ex:makes", .expand⟩, ⟨"ex:Dialect", "ex:makes", .refuse⟩] } 0,
    .join 0 {} [0]]

/-- The second config is about to be described, from a new node that the first preprocessor has added. The
description of the first one shows what its raw config names. -/
theorem builds_validated_dialect : ∃ answers s, ∃ p : Pool, ∃ f raw f' log, ∃ v : Json, ∃ c raw',
    Session.run {} dialect = some (answers, s) ∧ s.pools[0]? = some p ∧
      p.factory.ComesToPoll {} [1] (p.floor s.store) 1 f ∧
      p.factory.Calls (.poll 1, f) (.drive 1 (Settings.descend {} "ex:b") (Describe.build raw), f') ∧
      f'.graph.IsRaw raw ∧
      Transforms p.factory.preprocessors f.graph 1 (.ok raw) f'.graph ∧
      p.registry.Begins (log ++ [⟨1, 1, .ok raw⟩]) f'.registry ∧
      p.registry.instance? 0 = some v ∧ p.registry.construction? 0 = some c ∧ c.raw = some raw' ∧
      Describe.Shows s.store.graph raw' v := by
  have hrun : (Session.run {} dialect).any fun out => out.2.pools[0]?.any fun p =>
      p.factory.strategy == .describe && p.registry.history.size == 1 &&
      (p.registry.instance? 0).isSome && p.registry.current? "ex:b" == none &&
      out.2.store.graph.value? 1 == some "ex:b" && !out.2.store.graph.isVariable 1 &&
      decide ((rawConfig p.factory.preprocessors out.2.store.graph 1).1 = .ok 6) := by
    decide +kernel
  obtain ⟨⟨answers, s⟩, h, hout⟩ := (Option.any_eq_true _ _).mp hrun
  simp only [Option.any_eq_true, Bool.and_eq_true, beq_iff_eq, Bool.not_eq_true',
    Option.isSome_iff_exists, decide_eq_true_eq] at hout
  obtain ⟨p, hp, ⟨⟨⟨⟨⟨hstrategy, hsize⟩, v, hv⟩, hfree⟩, hvalue⟩, hvar⟩, hraw⟩ := hout
  obtain ⟨hbuilds, -, hshows⟩ := builds_validated h hp
  obtain ⟨c, raw', hc, hraw', hshown⟩ := hshows hstrategy hv
  have hconstructs : Factory.Constructs (p.floor s.store).graph {} 1 "ex:b" :=
    ⟨hvalue, Settings.isInProgress_new _, hvar⟩
  obtain ⟨f, d, hway, hgraph, hd, hfresh, hconfig, hsettings⟩ :=
    Factory.comesToPoll_of_free (o := p.factory) [] hconstructs hfree
  rw [show (p.floor s.store).registry.history.size = 1 from hsize] at hway hd
  have hform : rawConfig p.factory.preprocessors f.graph d.config =
      (.ok 6, (rawConfig p.factory.preprocessors s.store.graph 1).2) := by
    rw [hgraph, hconfig]
    exact Prod.ext hraw rfl
  have hcall := Factory.Calls.prepared hd hfresh hform
  obtain ⟨raw, htask, hvalid, htransforms, ⟨log, -, hbegins⟩, -⟩ := hbuilds hway hd hfresh hcall
  rw [htask, hsettings, hstrategy] at hcall
  rw [hconfig] at htransforms hbegins
  exact ⟨answers, s, p, f, raw, _, log, v, c, raw', h, hp, hway, hcall, hvalid, htransforms, hbegins, hv,
    hc, hraw', hshown⟩

end Session

end Wiring

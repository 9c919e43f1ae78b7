import Mathlib.Logic.Relation
import Wiring.Proofs.Joins
import Wiring.Session

/-!
# The checks of a session

A session checks values on command, and in the middle of builds, where a value is bound to a
parameter. The checks of its joins are told from the work that they consist of:

- `Factory.Calls` relates a task on a floor to what comes next when it is carried out: the rest of a
  build, or a construction that is polled;
- `Factory.Binds`: on the way a value is bound to a parameter;
- `Factory.JoinPolls`: a join comes to poll a construction;
- `Session.Checks` are the checks of one command, `Session.CheckedIn` those of a list of commands.

The other way round, nothing that a build does but to bind values touches typed values
(`Build.Candid`).
-/

namespace Wiring

open Relation

/-! ## Builds that only check -/

/-- The plan leaves the store alone, except where it binds a value to a parameter. -/
inductive Build.Candid {α : Type} : Build α → Prop
  | done (a : α) : Candid (.done a)
  | fail (e : BuildError) : Candid (.fail e)
  | endless : Candid .endless
  | suspend {next} (h : next.Candid) : Candid (.suspend next)
  | request {config next} (h : ∀ v, (next v).Candid) : Candid (.request config next)
  | read {next} (h : ∀ w, (next w).Candid) : Candid (.read next)
  | update {f : Workbench → Workbench} {next : Workbench → Build α}
      (hf : ∀ w, (f w).store = w.store) (h : ∀ w, (next w).Candid) :
      Candid (.read fun w => .write (f w) (next w))
  | capture (p : Parameter) (value : Option NodeId) {next : Unit → Build α}
      (h : ∀ u, (next u).Candid) : Candid (Build.capture p value >>= next)

namespace Build

variable {α β : Type}

/-- How a plan begins that binds a value to a parameter. -/
theorem capture_bind (p : Parameter) (value : Option NodeId) (next : Unit → Build α) :
    capture p value >>= next = .read fun w =>
      .write { w with store := (p.capture w.store value).2 }
        (ofExcept ((p.capture w.store value).1.mapError .range) >>= next) := rfl

namespace Candid

theorem ofExcept (a : Except BuildError α) : (ofExcept a).Candid := by
  cases a with
  | ok a => exact .done a
  | error e => exact .fail e

theorem bind {b : Build α} {f : α → Build β} (hb : b.Candid) (hf : ∀ a, (f a).Candid) :
    (b >>= f).Candid := by
  induction hb with
  | done a => exact hf a
  | fail e => exact .fail e
  | endless => exact .endless
  | suspend _ ih => exact .suspend ih
  | request _ ih => exact .request ih
  | read _ ih => exact .read ih
  | update hstore _ ih => exact .update hstore ih
  | capture p value _ ih =>
    rw [bind_assoc]
    exact .capture p value ih

theorem map {b : Build α} (hb : b.Candid) (f : α → β) : (f <$> b).Candid := by
  rw [map_eq_pure_bind]
  exact hb.bind fun a => .done (f a)

theorem each {f : α → Build β} (hf : ∀ a, (f a).Candid) (as : List α) :
    (Build.each f as).Candid := by
  induction as with
  | nil => exact .done []
  | cons a as ih => exact (hf a).bind fun b => ih.bind fun bs => .done (b :: bs)

theorem ask (config : NodeId) : (Build.ask config).Candid := .request fun v => .done v

theorem workbench : Build.workbench.Candid := .read fun w => .done w

theorem graph : Build.graph.Candid := .read fun w => .done w.store.graph

theorem ofLowered (a : Range.Lowered α) : (Build.ofLowered a).Candid := by
  match a with
  | none => exact .endless
  | some (.ok a) => exact .done a
  | some (.error e) => exact .fail _

/-- A plan that goes on with the workbench goes on candidly, or it is about to put the workbench into
a new state, which has the same store or comes from a check. -/
theorem of_read {next : Workbench → Build α} (h : (Build.read next).Candid) (w : Workbench) :
    (next w).Candid ∨ ∃ bench rest, next w = .write bench rest ∧ rest.Candid ∧
      (bench.store = w.store ∨ ∃ p value after, Build.read next = Build.capture p value >>= after ∧
        bench.store = (p.capture w.store value).2) := by
  generalize hb : Build.read next = b at h
  cases h with
  | read h =>
    cases hb
    exact .inl (h w)
  | update hf h =>
    cases hb
    exact .inr ⟨_, _, rfl, h w, .inl (hf w)⟩
  | @capture p value after h =>
    rw [capture_bind] at hb
    cases hb
    exact .inr ⟨_, _, rfl, (ofExcept _).bind h, .inr ⟨p, value, after, rfl, rfl⟩⟩
  | _ => cases hb

theorem not_write (bench : Workbench) (next : Build α) : ¬ (Build.write bench next).Candid := by
  intro h
  generalize hb : Build.write bench next = b at h
  cases h with
  | capture p value h =>
    rw [capture_bind] at hb
    cases hb
  | _ => cases hb

theorem of_suspend {next : Build α} (h : (Build.suspend next).Candid) : next.Candid := by
  generalize hb : Build.suspend next = b at h
  cases h with
  | suspend h =>
    cases hb
    exact h
  | capture p value h =>
    rw [capture_bind] at hb
    cases hb
  | _ => cases hb

theorem of_request {config : NodeId} {next : Json → Build α}
    (h : (Build.request config next).Candid) (v : Json) : (next v).Candid := by
  generalize hb : Build.request config next = b at h
  cases h with
  | request h =>
    cases hb
    exact h v
  | capture p value h =>
    rw [capture_bind] at hb
    cases hb
  | _ => cases hb

end Candid

end Build

open Build

/-! ### The builds of strategies -/

namespace Counting

theorem candid_stumble (e : BuildError) : (stumble e).Candid := by
  refine Candid.workbench.bind fun w => ?_
  split
  · exact .update (fun _ => rfl) fun _ => .fail e
  · exact .done ()

theorem candid_assemble (number : Nat) (raw : NodeId) : (assemble number raw).Candid := by
  refine Candid.graph.bind fun g => ?_
  have hdeps : Candid (do
      let deps ← each ask (g.properties raw Dependency.dep)
      pure (inst number ((g.value? raw).getD "") deps)) :=
    (Candid.each Candid.ask _).bind fun _ => .done _
  dsimp only
  split
  · exact (candid_stumble _).bind fun _ => hdeps
  · exact hdeps

theorem candid_build (suspends : Bool) (raw : NodeId) : (Counting.build suspends raw).Candid := by
  have hcount : count.Candid := .read fun w => .update (fun _ => rfl) fun _ => .done _
  refine hcount.bind fun number => ?_
  split
  · exact .suspend (candid_assemble number raw)
  · exact candid_assemble number raw

end Counting

namespace Describe

theorem candid_resolveWithin (limit : Nat) (value : Option NodeId) :
    (resolveWithin limit value).Candid := by
  induction limit generalizing value with
  | zero =>
    cases value with
    | none => exact .done _
    | some id => exact .endless
  | succ limit ih =>
    cases value with
    | none => exact .done _
    | some id =>
      rw [resolveWithin]
      refine Candid.workbench.bind fun w => ?_
      dsimp only
      split
      · exact .fail _
      · split
        · exact .done _
        · exact (Candid.each (fun item => ih (some item)) _).map _
        · split
          · exact Candid.ask id
          · exact .done _

theorem candid_resolve (value : Option NodeId) : (resolve value).Candid :=
  Candid.graph.bind fun _ => candid_resolveWithin _ value

theorem candid_resolveArgument (argument : NodeId) : (resolveArgument argument).Candid := by
  refine Candid.graph.bind fun g => ?_
  dsimp only
  split
  · exact candid_resolve _
  · refine (Candid.ofLowered _).bind fun p => ?_
    split
    · exact .capture p _ fun _ => candid_resolve _
    · exact candid_resolve _

theorem candid_build (raw : NodeId) : (Describe.build raw).Candid := by
  refine Candid.graph.bind fun g => ?_
  dsimp only
  split
  · exact .fail _
  · split
    · exact .fail _
    · exact (Candid.each candid_resolveArgument _).bind fun _ =>
        Candid.graph.bind fun _ => .done _

end Describe

/-- **Nothing but checks puts typed values on literals**, whatever is built. -/
theorem Strategy.candid_build (s : Strategy) (raw : NodeId) : (s.build raw).Candid := by
  cases s with
  | describe => exact Describe.candid_build raw
  | counting suspends => exact Counting.candid_build suspends raw

/-! ## The checks of work -/

namespace Factory

/-- What comes next when a task is carried out on a floor. -/
inductive Calls (o : Factory) : Task × Floor → Task × Floor → Prop
  | read {n settings next f} :
      Calls o (.drive n settings (.read next), f) (.drive n settings (next f.bench), f)
  | write {n settings bench next f} :
      Calls o (.drive n settings (.write bench next), f) (.drive n settings next, { f with bench })
  | answered {n settings config next v f f₁}
      (entry : o.enter config settings f = (.answered (.ok v), f₁)) :
      Calls o (.drive n settings (.request config next), f) (.drive n settings (next v), f₁)
  | request {n settings config next other f f₁}
      (entry : o.enter config settings f = (.waiting other, f₁)) :
      Calls o (.drive n settings (.request config next), f) (.wait n settings other next true, f₁)
  | poll {n settings other next moved f} :
      Calls o (.wait n settings other next moved, f) (.poll other, f)
  | received {n settings other next moved v f f₁}
      (poll : Runs o (.poll other) f (.ready (.ok v)) f₁) :
      Calls o (.wait n settings other next moved, f)
        (.drive n settings (next v), f₁.receive (some n) other (.ok v))
  | prepared {n c raw graph f} (lookup : f.registry.construction? n = some c)
      (stage : c.stage = .fresh)
      (form : rawConfig o.preprocessors f.graph c.config = (.ok raw, graph)) :
      Calls o (.poll n, f) (.drive n c.settings (o.strategy.build raw),
        ((f.setStage n .running).setGraph graph).setRaw n raw)
  | resumed {n c next f} (lookup : f.registry.construction? n = some c)
      (stage : c.stage = .suspended next) :
      Calls o (.poll n, f) (.drive n c.settings next, f.setStage n .running)
  | awaited {n c other next f} (lookup : f.registry.construction? n = some c)
      (stage : c.stage = .awaiting other next) :
      Calls o (.poll n, f) (.wait n c.settings other next false, f.setStage n .running)

/-- While a task is carried out on a floor, a value is bound to a parameter. -/
def Binds (o : Factory) (p : Parameter) (work : Task × Floor) : Prop :=
  ∃ n settings value next f,
    ReflTransGen o.Calls work (.drive n settings (Build.capture p value >>= next), f)

variable {o : Factory} {settings : Settings}

/-- What the next task binds is bound on the way. -/
theorem Binds.of_calls {p : Parameter} {work next : Task × Floor} (h : o.Binds p next)
    (hnext : o.Calls work next) : o.Binds p work := by
  obtain ⟨n, settings, value, after, f, hcalls⟩ := h
  exact ⟨n, settings, value, after, f, hcalls.head hnext⟩

/-- A round comes to poll a construction on a floor. -/
inductive RoundPolls (o : Factory) (settings : Settings) :
    List Request → Floor → Nat → Floor → Prop
  | waiting {n rs f} : RoundPolls o settings (.waiting n :: rs) f n f
  | entered {config n rs f f₁} (entry : o.enter config settings f = (.waiting n, f₁)) :
      RoundPolls o settings (.new config :: rs) f n f₁
  | later {r r' rs moved f f₁ n f'} (head : Serves o settings r f r' moved f₁)
      (rest : RoundPolls o settings rs f₁ n f') : RoundPolls o settings (r :: rs) f n f'

/-- The rounds of a join come to poll a construction on a floor. -/
inductive JoinPolls (o : Factory) (settings : Settings) :
    List Request → Floor → Nat → Floor → Prop
  | now {rs f n f'} (h : RoundPolls o settings rs f n f') : JoinPolls o settings rs f n f'
  | again {rs rs' f f₁ n f'} (round : Sweeps o settings rs f rs' true f₁)
      (some : rs'.mapM Request.result? = none) (rest : JoinPolls o settings rs' f₁ n f') :
      JoinPolls o settings rs f n f'

end Factory

/-! ## The checks of commands -/

namespace Session

/-- When the command is carried out, some value is checked against the range. -/
inductive Checks (s : Session) : Command → Range → Prop
  | check {value source r} (lowered : (source.range s.store.graph).run = some (.ok r)) :
      Checks s (.check value source) r
  | capture {value source p}
      (lowered : (source.parameter s.store.graph).run = some (.ok p)) :
      Checks s (.capture value source) p.range
  | join {i : Nat} {settings configs pool n f p} (lookup : s.pools[i]? = some pool)
      (poll : pool.factory.JoinPolls settings (configs.map .new) (pool.floor s.store) n f)
      (binds : pool.factory.Binds p (.poll n, f)) : Checks s (.join i settings configs) p.range

/-- When the commands are carried out in order, some value is checked against the range. -/
inductive CheckedIn : Session → List Command → Range → Prop
  | now {s c cs r} (h : s.Checks c r) : CheckedIn s (c :: cs) r
  | later {s s' c cs answer r} (step : s.step c = some (answer, s')) (h : CheckedIn s' cs r) :
      CheckedIn s (c :: cs) r

end Session

end Wiring

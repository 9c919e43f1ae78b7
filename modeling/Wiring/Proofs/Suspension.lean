import Wiring.Proofs.Deadlock
import Wiring.Proofs.Outcomes
import Wiring.Proofs.Rounds
import Wiring.Proofs.Sessions
import Wiring.Proofs.Straight

/-!
# Suspension is invisible to single requests

Pools with numbered instances may let their builds suspend themselves. As long as each join is for a
single config, that makes no difference: a session and the session with all pools switched
(`Session.suspending`) answer alike and end alike (`Session.run_suspending`).

The factory that suspends is compared to the one that does not, on the same floors. A build suspends
itself once, before it asks for anything, so what is left of builds is the same for both
(`Registry.Smooth`). If a poll of the suspending factory gives a result, so does the other one. If it
is left pending, the other factory can carry on from there, and what it then comes to is what it
would have come to in the first place (`Runs.caughtUp`). So the rounds of a single request fold up
into a single poll.
-/

namespace Wiring

/-! ## Builds that are left over -/

/-- What is left of a build never suspends itself. -/
def Stage.Smooth : Stage → Prop
  | .suspended rest => rest.Pauseless
  | .awaiting _ next => ∀ v, (next v).Pauseless
  | _ => True

/-- What a task carries on never suspends itself. -/
def Task.Smooth : Task → Prop
  | .poll _ => True
  | .drive _ _ rest => rest.Pauseless
  | .wait _ _ _ next _ => ∀ v, (next v).Pauseless

namespace Registry

/-- No build that is left over suspends itself again. -/
def Smooth (r : Registry) : Prop := ∀ n c, r.construction? n = some c → c.stage.Smooth

variable {r : Registry} {n : Nat}

theorem Smooth.setStage (h : r.Smooth) (n : Nat) (stage : Stage) (hs : stage.Smooth) :
    (r.setStage n stage).Smooth := Stages.setStage h n hs

theorem Smooth.setRaw (h : r.Smooth) (n : Nat) (raw : NodeId) : (r.setRaw n raw).Smooth :=
  Stages.setRaw h n raw

theorem Smooth.finish (h : r.Smooth) (n : Nat) (result : Except BuildError Json) :
    (r.finish n result).Smooth := Stages.finish (P := Stage.Smooth) h n trivial

theorem Smooth.start (h : r.Smooth) (config : NodeId) (key : String) (settings : Settings) :
    (r.start config key settings).2.Smooth :=
  Stages.start (P := Stage.Smooth) h trivial config key settings

/-- Where nothing is open, nothing is left over. -/
theorem smooth_of_ended (h : ∀ n, ¬ r.IsOpen n) : r.Smooth := by
  intro n c hc
  obtain ⟨result, hs⟩ := result_of_not_open (h n) hc
  rw [hs]
  trivial

end Registry

/-- A floor on which a construction comes back to its stage is as it was. -/
theorem Floor.setStage_setStage {f : Floor} {n : Nat} {c : Construction} {stage : Stage}
    (hc : f.registry.construction? n = some c) (hs : c.stage = stage) (other : Stage) :
    (f.setStage n other).setStage n stage = f := by
  subst hs
  exact congrArg (fun registry => { f with registry }) (Registry.setStage_setStage hc other)

namespace Factory

open Registry

/-- A factory of numbered instances. -/
abbrev numbering (suspends : Bool) (ps : List Preprocessor) : Factory :=
  { strategy := .counting suspends, preprocessors := ps }

variable {o : Factory} {ps : List Preprocessor} {settings : Settings} {f f₁ f' : Floor}

/-- Requests are met alike whether or not builds suspend themselves. -/
theorem enter_numbering (suspends : Bool) (config : NodeId) :
    (numbering suspends ps).enter config settings f =
      (numbering false ps).enter config settings f := rfl

/-- Entering a request leaves over no build. -/
theorem enter_smooth {config : NodeId} {n : Nat} (entry : o.enter config settings f = (.waiting n, f₁))
    (hf : f.registry.Smooth) : f₁.registry.Smooth := by
  obtain ⟨key, -, ⟨-, rfl⟩ | ⟨-, hstart⟩⟩ := enter_waiting entry
  · exact hf
  · cases hstart
    exact hf.start config key _

/-! ## The pause -/

/-- The floor after a build has counted itself. -/
def counted (f : Floor) : Floor := { f with bench := { f.bench with builds := f.bench.builds + 1 } }

/-- A build that suspends itself counts itself first and does nothing else. -/
theorem Runs.suspends {n : Nat} {raw : NodeId} {p : Progress}
    (h : Runs o (.drive n settings (Counting.build true raw)) f p f') :
    p = .pending true ∧ f' = (counted f).setStage n
      (.suspended (Counting.assemble (f.bench.builds + 1) raw)) := by
  cases h with
  | read rest => cases rest with
    | read rest => cases rest with
      | write rest =>
        cases rest
        exact ⟨rfl, rfl⟩

/-- A build that does not suspend itself goes on at once. -/
theorem Runs.straightOn {n : Nat} {raw : NodeId} {p : Progress}
    (h : Runs o (.drive n settings (Counting.assemble (f.bench.builds + 1) raw)) (counted f) p f') :
    Runs o (.drive n settings (Counting.build false raw)) f p f' :=
  .read (.read (.write h))

/-- Work leaves no build that suspends itself again. -/
theorem Runs.smooth {suspends : Bool} {t : Task} {p : Progress}
    (h : Runs (numbering suspends ps) t f p f') (ht : t.Smooth) (hf : f.registry.Smooth) :
    f'.registry.Smooth := by
  induction h with
  | done v => exact hf.finish _ _
  | fail e => exact hf.finish _ _
  | suspend next => exact ht.elim
  | read _ ih => exact ih (ht _ trivial) hf
  | write _ ih => exact ih ht.2 hf
  | answered entry _ ih =>
    obtain ⟨rfl, -⟩ := enter_answered entry
    exact ih (ht _) hf
  | refused entry =>
    obtain ⟨rfl, -⟩ := enter_answered entry
    exact hf.finish _ _
  | request entry _ ih => exact ih ht (enter_smooth entry hf)
  | received _ _ ihp ihr => exact ihr (ht _) (ihp trivial hf)
  | passedOn _ ihp =>
    have hf₁ := ihp trivial hf
    exact Smooth.finish (r := Registry.record _ _) hf₁ _ _
  | blocked _ ihp => exact (ihp trivial hf).setStage _ _ ht
  | missing lookup => exact hf
  | finished lookup stage => exact hf
  | running lookup stage => exact hf
  | unprepared lookup stage form => exact (hf.setStage _ .running trivial).finish _ _
  | @prepared n c raw graph f p f' lookup stage form rest ih =>
    have hf₁ : ((f.registry.setStage n .running).setRaw n raw).Smooth :=
      (hf.setStage n .running trivial).setRaw n raw
    cases suspends with
    | true =>
      obtain ⟨-, rfl⟩ := rest.suspends
      have hrest : (Counting.assemble (f.bench.builds + 1) raw).Pauseless :=
        Counting.straight_assemble _ raw
      exact hf₁.setStage n _ hrest
    | false =>
      have hbuild : (Counting.build false raw).Pauseless := Counting.straight_build raw
      exact ih hbuild hf₁
  | @resumed n c next f p f' lookup stage _ ih =>
    have hnext : (Stage.suspended next).Smooth := stage ▸ hf n c lookup
    exact ih hnext (hf.setStage n .running trivial)
  | @awaited n c other next f p f' lookup stage _ ih =>
    have hnext : (Stage.awaiting other next).Smooth := stage ▸ hf n c lookup
    exact ih hnext (hf.setStage n .running trivial)

/-! ## Catching up -/

/-- How another factory catches up with a task that one has carried on to a floor: it gets to the same
result, or, where the task is left pending, to every result that it can get to from there. -/
def CaughtUp (o : Factory) (t : Task) (f f' : Floor) : Progress → Prop
  | .ready result => Runs o t f (.ready result) f'
  | .pending _ => ∀ result f'', Runs o (.poll t.subject) f' (.ready result) f'' →
      Runs o t f (.ready result) f''

theorem CaughtUp.imp {t t' : Task} {f₀ : Floor} {p : Progress} (h : o.CaughtUp t f₀ f' p)
    (hsubject : t'.subject = t.subject)
    (himp : ∀ {result f''}, Runs o t f₀ (.ready result) f'' → Runs o t' f (.ready result) f'') :
    o.CaughtUp t' f f' p := by
  cases p with
  | ready result => exact himp h
  | pending moved =>
    intro result f'' hpoll
    rw [hsubject] at hpoll
    exact himp (h result f'' hpoll)

/-- If a build that waits gets to a result when it is polled again, it gets there from where it began
to wait. -/
theorem Runs.unblock {n other : Nat} {next : Json → Build Json} {moved : Bool}
    {result : Except BuildError Json}
    (hp : f₁.registry.Polled n settings)
    (hpoll : ∀ result f'', Runs o (.poll other) f₁ (.ready result) f'' →
      Runs o (.poll other) f (.ready result) f'')
    (h : Runs o (.poll n) (f₁.setStage n (.awaiting other next)) (.ready result) f') :
    Runs o (.wait n settings other next moved) f (.ready result) f' := by
  obtain ⟨c, hc, hs, rfl⟩ := hp
  have hwait := h.inv (construction?_setStage_self hc (.awaiting other next)) rfl
  have hwait : Runs o (.wait n c.settings other next false)
      ((f₁.setStage n (.awaiting other next)).setStage n .running) (.ready result) f' := hwait
  rw [Floor.setStage_setStage hc hs] at hwait
  cases hwait with
  | received poll rest => exact .received (hpoll _ _ poll) rest
  | passedOn poll => exact .passedOn (hpoll _ _ poll)

/-- **A factory that does not suspend its builds catches up with one that does.** -/
theorem Runs.caughtUp {t : Task} {p : Progress} (h : Runs (numbering true ps) t f p f')
    (hord : f.registry.Orderly) (hatt : t.Attends f.registry) (ht : t.Smooth)
    (hf : f.registry.Smooth) : (numbering false ps).CaughtUp t f f' p := by
  -- by induction on the work: only a poll that begins a build differs, and there the pause is made up
  induction h with
  | done v => exact .done v
  | fail e => exact .fail e
  | suspend next => exact ht.elim
  | read _ ih => exact (ih hord hatt (ht _ trivial) hf).imp rfl .read
  | write _ ih => exact (ih hord hatt ht.2 hf).imp rfl .write
  | answered entry _ ih =>
    obtain ⟨rfl, -⟩ := enter_answered entry
    rw [enter_numbering] at entry
    exact (ih hord hatt (ht _) hf).imp rfl (.answered entry)
  | refused entry =>
    rw [enter_numbering] at entry
    exact .refused entry
  | @request n settings config next other f f₁ p f' entry _ ih =>
    obtain ⟨hk, -, hd⟩ := keeps_of_enter hord entry
    have hf₁ := enter_smooth entry hf
    rw [enter_numbering] at entry
    exact (ih hk.orderly ⟨hatt.keeps hk, hd⟩ ht hf₁).imp rfl (.request entry)
  | @received n settings other next moved v f f₁ p f' poll _ ihp ihr =>
    have hk' := poll.keeps_receive hord hatt.2 (some n)
    have hpoll := ihp hord hatt.2 trivial hf
    exact (ihr hk'.orderly (hatt.1.keeps hk') (ht v) (poll.smooth trivial hf)).imp rfl
      (.received hpoll)
  | passedOn poll ihp => exact .passedOn (ihp hord hatt.2 trivial hf)
  | blocked poll ihp =>
    obtain ⟨hk, -⟩ := poll.upkeep hord hatt.2
    exact fun result f'' hpoll =>
      hpoll.unblock (hatt.1.keeps hk) (ihp hord hatt.2 trivial hf)
  | missing lookup => exact fun _ _ hpoll => hpoll
  | finished lookup stage => exact .finished lookup stage
  | running lookup stage => exact fun _ _ hpoll => hpoll
  | unprepared lookup stage form => exact .unprepared lookup stage form
  | @prepared n c raw graph f p f' lookup stage form rest ih =>
    obtain ⟨-, c₁, hc₁, hs₁, hset⟩ := hord.pollFresh lookup stage raw
    obtain ⟨rfl, rfl⟩ := rest.suspends
    -- the build is resumed where the other factory has not stopped at all
    intro result f'' hpoll
    let f₁ := ((f.setStage n .running).setGraph graph).setRaw n raw
    have hc₂ : (counted f₁).registry.construction? n = some c₁ := hc₁
    have hrest : Runs (numbering false ps)
        (.drive n c₁.settings (Counting.assemble (f₁.bench.builds + 1) raw))
        (((counted f₁).setStage n (.suspended (Counting.assemble (f₁.bench.builds + 1) raw))).setStage
          n .running) (.ready result) f'' :=
      hpoll.inv (construction?_setStage_self hc₂ _) rfl
    rw [Floor.setStage_setStage hc₂ hs₁, hset] at hrest
    exact .prepared lookup stage form hrest.straightOn
  | @resumed n c next f p f' lookup stage _ ih =>
    obtain ⟨hord', hp⟩ := hord.poll lookup (stage ▸ Stage.open_suspended next)
    have hnext : (Stage.suspended next).Smooth := stage ▸ hf n c lookup
    exact (ih hord' hp hnext (hf.setStage n .running trivial)).imp rfl
      (.resumed lookup stage)
  | @awaited n c other next f p f' lookup stage _ ih =>
    obtain ⟨hord', hatt'⟩ := hord.pollAwaiting lookup stage
    have hnext : (Stage.awaiting other next).Smooth := stage ▸ hf n c lookup
    exact (ih hord' hatt' hnext (hf.setStage n .running trivial)).imp rfl
      (.awaited lookup stage)

/-! ## Single requests -/

/-- The rounds of a single request that waits fold up into one poll. -/
theorem Concludes.foldUp {n : Nat} {rs : List Request} {joined : Joined}
    {result : Except BuildError Json} (h : Concludes (numbering true ps) settings rs f joined f')
    (hrs : rs = [.waiting n]) (hj : joined = .answers [result]) (hf : f.On .standing)
    (hn : ∃ c, f.registry.construction? n = some c) (hsmooth : f.registry.Smooth) :
    ∃ f₁, Runs (numbering false ps) (.poll n) f (.ready result) f₁ ∧
      f' = f₁.receive none n result := by
  induction h with
  | answers round all =>
    subst hrs
    obtain ⟨r, rfl, hserve⟩ := round.single
    cases hserve with
    | received poll =>
      cases all
      cases hj
      exact ⟨_, poll.caughtUp hf.orderly hn trivial hsmooth, rfl⟩
    | pending poll => cases all
  | deadlock => cases hj
  | @again rs rs' joined f f₁ f' round some _ ih =>
    subst hrs
    obtain ⟨r, rfl, hserve⟩ := round.single
    cases hserve with
    | received poll => cases some
    | pending poll =>
      -- the later rounds are one poll, and it goes through to the floor before this round
      obtain ⟨hf₁, hk, -⟩ := poll.on (suit_standing _) hf hn
      obtain ⟨c, hc⟩ := hn
      obtain ⟨d, hd, -⟩ := hk.leads.becomes hc
      obtain ⟨f₂, hpoll, rfl⟩ := ih rfl hj hf₁ ⟨d, hd⟩ (poll.smooth trivial hsmooth)
      exact ⟨f₂, poll.caughtUp hf.orderly ⟨c, hc⟩ trivial hsmooth result f₂ hpoll, rfl⟩

/-- What answers a single request of the suspending factory answers it in one poll of the other. -/
theorem Concludes.answers_numbering {config : NodeId} {result : Except BuildError Json}
    (h : Concludes (numbering true ps) settings [.new config] f (.answers [result]) f')
    (hf : f.On .standing) (hended : ∀ n, ¬ f.registry.IsOpen n) :
    (numbering false ps).Answers settings config f result f' := by
  have hsmooth := smooth_of_ended hended
  -- a request that is entered is a request that waits
  have hentered : ∀ {n f₁}, (numbering true ps).enter config settings f = (.waiting n, f₁) →
      Concludes (numbering true ps) settings [.waiting n] f₁ (.answers [result]) f' →
      (numbering false ps).Answers settings config f result f' := by
    intro n f₁ entry hrest
    obtain ⟨hf₁, -, -, hn⟩ := enter_on (grants_standing config) hf entry
    obtain ⟨f₂, hpoll, rfl⟩ :=
      hrest.foldUp rfl rfl hf₁ (placed_of_on hn n rfl) (enter_smooth entry hsmooth)
    rw [enter_numbering] at entry
    exact .built entry hpoll
  cases h with
  | answers round all =>
    obtain ⟨r, rfl, hserve⟩ := round.single
    cases hserve with
    | answered entry =>
      cases all
      rw [enter_numbering] at entry
      exact .direct entry
    | entered entry rest => exact hentered entry (.answers (.cons rest .nil) all)
  | again round some rest₁ =>
    obtain ⟨r, rfl, hserve⟩ := round.single
    cases hserve with
    | answered entry => cases some
    | entered entry rest => exact hentered entry (.again (.cons rest .nil) some rest₁)

/-- A join of one request is answered. -/
theorem join_single {suspends : Bool} (hs : o.strategy = .counting suspends) (settings : Settings)
    (config : NodeId) (hf : f.On .standing) (hended : ∀ n, ¬ f.registry.IsOpen n) :
    ∃ result f', (o.join settings [config]).run f = some (.answers [result], f') := by
  obtain ⟨joined, f', hj⟩ := join_total hs settings [config] hf hended
  have hconcludes := concludes_of_join hj
  have hlive := hconcludes.ne_deadlock_of_single hf hended (Nat.le_refl 1)
  cases joined with
  | deadlock => exact absurd rfl hlive
  | answers results =>
    have hgrants : ∀ d ∈ [config], Terms.standing.Grants o settings d ((fun _ _ => True) d) :=
      fun d _ => grants_standing d
    obtain ⟨-, -, -, hanswers⟩ := hconcludes.on (suit_standing o) hf hgrants
    cases hanswers results rfl with
    | cons _ htail =>
      cases htail
      exact ⟨_, f', hj⟩

/-- **A single request is answered alike whether or not builds suspend themselves**, and leaves the
same behind. -/
theorem join_numbering (ps : List Preprocessor) (settings : Settings) (config : NodeId)
    (hf : f.On .standing) (hended : ∀ n, ¬ f.registry.IsOpen n) :
    ((numbering true ps).join settings [config]).run f =
      ((numbering false ps).join settings [config]).run f := by
  obtain ⟨result, f₁, h₁⟩ := join_single (o := numbering true ps) rfl settings config hf hended
  obtain ⟨result₀, f₀, h₀⟩ := join_single (o := numbering false ps) rfl settings config hf hended
  have hanswers := (concludes_of_join h₁).answers_numbering hf hended
  obtain ⟨hsame, rfl⟩ := hanswers.concludes.unique (concludes_of_join h₀)
  rw [h₁, h₀, hsame]

end Factory

/-! ## Switching pools -/

/-- The strategy, with builds that suspend themselves or not. -/
def Strategy.suspending (suspends : Bool) : Strategy → Strategy
  | .describe => .describe
  | .counting _ => .counting suspends

/-- The factory, with builds that suspend themselves or not. -/
def Factory.suspending (suspends : Bool) (o : Factory) : Factory :=
  { o with strategy := o.strategy.suspending suspends }

/-- The pool, with builds that suspend themselves or not. -/
def Pool.suspending (suspends : Bool) (p : Pool) : Pool :=
  { p with factory := p.factory.suspending suspends }

/-- The session, with builds of numbered instances that suspend themselves or not. -/
def Session.suspending (suspends : Bool) (s : Session) : Session :=
  { s with pools := s.pools.map (·.suspending suspends) }

/-- The command, with a pool that is switched if it makes one. -/
def Command.suspending (suspends : Bool) : Command → Command
  | .openPool factory failures => .openPool (factory.suspending suspends) failures
  | c => c

/-- Joins are for one config. -/
def Command.Single : Command → Prop
  | .join _ _ configs => configs.length = 1
  | _ => True

instance : DecidablePred Command.Single
  | .update _ => .isTrue trivial
  | .check _ _ => .isTrue trivial
  | .capture _ _ => .isTrue trivial
  | .openPool _ _ => .isTrue trivial
  | .join _ _ configs => inferInstanceAs (Decidable (configs.length = 1))
  | .prepare _ _ => .isTrue trivial

theorem Factory.join_suspending {f : Floor} (suspends : Bool) (o : Factory) (settings : Settings)
    (config : NodeId) (hf : f.On .standing) (hended : ∀ n, ¬ f.registry.IsOpen n) :
    ((o.suspending suspends).join settings [config]).run f = (o.join settings [config]).run f := by
  obtain ⟨strategy, ps⟩ := o
  cases strategy with
  | describe => rfl
  | counting before =>
    have hsame := join_numbering ps settings config hf hended
    cases before with
    | true =>
      cases suspends with
      | true => rfl
      | false => exact hsame.symm
    | false =>
      cases suspends with
      | true => exact hsame
      | false => rfl

namespace Session

/-- A session between commands, in which nothing is open. -/
structure Settled (s : Session) : Prop extends s.AtRest where
  ended : ∀ {i : Nat} {p : Pool}, s.pools[i]? = some p → ∀ n, ¬ p.registry.IsOpen n

theorem settled_empty : Session.Settled {} where
  toAtRest := atRest_empty
  ended h := by simp at h

@[simp] theorem suspending_empty (suspends : Bool) : Session.suspending suspends {} = {} := by
  simp [Session.suspending]

variable {s s' : Session} {answer : Answer}

/-- As long as there are no deadlocks, nothing stays open. -/
theorem Settled.moves (h : s.Settled) (hm : s.Moves answer s') (hlive : answer ≠ .joined .deadlock) :
    s'.Settled := by
  have hP : Invariant (· ≠ .deadlock) fun _ p => ∀ n, ¬ p.registry.IsOpen n := by
    refine ⟨fun _ _ _ n hn => ?_, fun h _ => h, fun {p store settings configs joined floor} hrest hp
      hjoined hj => ?_⟩
    · obtain ⟨c, hc, -⟩ := hn
      cases hc
    · cases joined with
      | deadlock => exact absurd rfl hjoined
      | answers results => exact (Factory.concludes_of_join hj).all_ended hrest.floor hp
  have hanswer : ∀ joined, answer = .joined joined → joined ≠ .deadlock := by
    rintro joined rfl rfl
    exact hlive rfl
  obtain ⟨hrest, hended⟩ := hP.moves hm hanswer h.toAtRest h.ended
  exact ⟨hrest, hended⟩

/-- A single request never ends in a deadlock. -/
theorem Settled.single (h : s.Settled) {c : Command} (hc : c.Single)
    (hstep : s.step c = some (answer, s')) : answer ≠ .joined .deadlock := by
  rintro rfl
  cases c with
  | join i settings configs =>
    obtain ⟨p, floor, hp, hj, -⟩ := step_join hstep
    exact (Factory.concludes_of_join hj).ne_deadlock_of_single (h.pools hp).floor (h.ended hp)
      (Nat.le_of_eq hc) rfl
  | update u => cases hstep
  | check value source =>
    obtain ⟨r, -, hstep⟩ := Option.bind_eq_some_iff.mp hstep
    cases r <;> cases hstep
  | capture value source =>
    obtain ⟨r, -, hstep⟩ := Option.bind_eq_some_iff.mp hstep
    cases r <;> cases hstep
  | openPool factory failures => cases hstep
  | prepare i config =>
    have hstep : s.work i (·.prepare config) .prepared = some (_, s') := hstep
    rcases work_eq_some hstep with ⟨-, hcon, -⟩ | ⟨p, raw, floor, -, -, hcon, -⟩ <;> cases hcon

/-- A switched session lets a switched pool do a job, and if the job comes to the same, so does the
session. -/
theorem work_suspending {α : Type} (suspends : Bool) (s : Session) (i : Nat) (job : Factory → Job α)
    (tell : α → Answer)
    (hjob : ∀ p, s.pools[i]? = some p → (job (p.factory.suspending suspends)).run (p.floor s.store) =
      (job p.factory).run (p.floor s.store)) :
    (s.suspending suspends).work i job tell =
      (s.work i job tell).map fun out => (out.1, out.2.suspending suspends) := by
  have hpool : (s.suspending suspends).pools[i]? = (s.pools[i]?).map (·.suspending suspends) :=
    Array.getElem?_map ..
  rw [work, work, hpool]
  cases hp : s.pools[i]? with
  | none => rfl
  | some p =>
    show Option.bind ((job (p.factory.suspending suspends)).run (p.floor s.store)) _ =
      Option.map _ (Option.bind ((job p.factory).run (p.floor s.store)) _)
    rw [hjob p hp]
    cases (job p.factory).run (p.floor s.store) with
    | none => rfl
    | some out =>
      show some (tell out.1, Session.mk _ ((s.pools.map (·.suspending suspends)).setIfInBounds i
        ((p.suspending suspends).keep out.2))) =
          some (tell out.1, (Session.mk _ (s.pools.setIfInBounds i (p.keep out.2))).suspending suspends)
      rw [Session.suspending, Array.map_setIfInBounds]
      rfl

/-- A command does the same to a switched session. -/
theorem Settled.step_suspending (h : s.Settled) (suspends : Bool) {c : Command} (hc : c.Single) :
    (s.suspending suspends).step (c.suspending suspends) =
      (s.step c).map fun out => (out.1, out.2.suspending suspends) := by
  cases c with
  | update u => rfl
  | check value source =>
    show Option.bind (source.range s.store.graph).run _ =
      Option.map _ (Option.bind (source.range s.store.graph).run _)
    cases (source.range s.store.graph).run with
    | none => rfl
    | some r => cases r <;> rfl
  | capture value source =>
    show Option.bind (source.parameter s.store.graph).run _ =
      Option.map _ (Option.bind (source.parameter s.store.graph).run _)
    cases (source.parameter s.store.graph).run with
    | none => rfl
    | some r => cases r <;> rfl
  | openPool factory failures =>
    show some (Answer.opened (s.pools.map (·.suspending suspends)).size, Session.mk s.store
      ((s.pools.map (·.suspending suspends)).push ((Pool.new factory failures).suspending suspends))) =
        some (Answer.opened s.pools.size, Session.suspending suspends
          (Session.mk s.store (s.pools.push (.new factory failures))))
    rw [Session.suspending, Array.map_push, Array.size_map]
  | join i settings configs =>
    obtain ⟨config, rfl⟩ := List.length_eq_one_iff.mp hc
    exact work_suspending suspends s i (·.join settings [config]) .joined fun p hp =>
      Factory.join_suspending suspends p.factory settings config (h.pools hp).floor (h.ended hp)
  | prepare i config => exact work_suspending suspends s i (·.prepare config) .prepared fun _ _ => rfl

/-- Sessions of single requests stay settled and are answered alike when switched. -/
theorem Settled.run_suspending (h : s.Settled) (suspends : Bool) {cs : List Command}
    (hcs : ∀ c ∈ cs, c.Single) :
    ((s.suspending suspends).run (cs.map (·.suspending suspends)) =
        (s.run cs).map fun out => (out.1, out.2.suspending suspends)) ∧
      ∀ answers s', s.run cs = some (answers, s') →
        s'.Settled ∧ .joined .deadlock ∉ answers := by
  induction cs generalizing s with
  | nil =>
    refine ⟨rfl, fun answers s' hrun => ?_⟩
    cases hrun
    exact ⟨h, List.not_mem_nil⟩
  | cons c cs ih =>
    have hsame := h.step_suspending suspends (hcs c List.mem_cons_self)
    rw [run, List.map_cons, run, hsame]
    cases hstep : s.step c with
    | none => exact ⟨rfl, fun answers s' hrun => nomatch hrun⟩
    | some out =>
      obtain ⟨answer, s₁⟩ := out
      have hlive := h.single (hcs c List.mem_cons_self) hstep
      obtain ⟨hrun, hrest⟩ := ih (h.moves (moves_of_step hstep) hlive)
        fun c hc => hcs c (List.mem_cons_of_mem _ hc)
      constructor
      · show Option.bind ((s₁.suspending suspends).run (cs.map (·.suspending suspends))) _ =
          Option.map _ (Option.bind (s₁.run cs) _)
        rw [hrun]
        cases s₁.run cs <;> rfl
      · intro answers s' hrun'
        obtain ⟨out, hfirst, hrun'⟩ := Option.bind_eq_some_iff.mp hrun'
        cases hfirst
        obtain ⟨⟨as, s₂⟩, has, hrun'⟩ := Option.bind_eq_some_iff.mp hrun'
        cases hrun'
        obtain ⟨hsettled, hdead⟩ := hrest as s' has
        refine ⟨hsettled, fun hmem => ?_⟩
        rcases List.mem_cons.mp hmem with hanswer | hmem
        · exact hlive hanswer.symm
        · exact hdead hmem

/-- **Suspension is invisible to one request at a time.** Where each join is for one config, pools
whose builds suspend themselves answer like pools whose builds do not, and leave behind the same
store, the same constructions and the same counters. No join is a deadlock, and pools with numbered
instances answer every further one. -/
theorem suspension_invisible {cs : List Command} (hcs : ∀ c ∈ cs, c.Single) (suspends : Bool) :
    Session.run {} (cs.map (·.suspending suspends)) =
        (Session.run {} cs).map (fun out => (out.1, out.2.suspending suspends)) ∧
      ∀ answers s, Session.run {} cs = some (answers, s) →
        .joined .deadlock ∉ answers ∧
        ∀ (i : Nat) (p : Pool) (before : Bool), s.pools[i]? = some p →
          p.factory.strategy = .counting before →
          ∀ settings config, ∃ result s',
            s.step (.join i settings [config]) = some (.joined (.answers [result]), s') := by
  obtain ⟨hrun, hrest⟩ := settled_empty.run_suspending suspends hcs
  rw [suspending_empty] at hrun
  refine ⟨hrun, fun answers s h => ?_⟩
  obtain ⟨hsettled, hdead⟩ := hrest answers s h
  refine ⟨hdead, fun i p before hp hs settings config => ?_⟩
  obtain ⟨result, floor, hj⟩ :=
    Factory.join_single hs settings config (hsettled.pools hp).floor (hsettled.ended hp)
  obtain ⟨s', hstep, -⟩ := step_of_join hp hj
  exact ⟨result, s', hstep⟩

/-- Two configs depend on each other, the build of one of them fails at first, and they are requested
one after the other. -/
def interleaved : List Command :=
  [.update (.named "ex:a"), .update (.named "ex:b"), .update (.literal "App"),
    .update (.addProperty 0 Components.requireName 2),
    .update (.addProperty 1 Components.requireName 2), .update (.addProperty 0 Dependency.dep 1),
    .update (.addProperty 1 Dependency.dep 0), .update (.addProperty 1 Dependency.flaky 2),
    .openPool { strategy := .counting false } 1, .join 0 {} [0], .join 0 {} [1],
    .update (.addProperty 0 Dependency.dep 0), .join 0 {} [0]]

/-- The first request fails, the second one builds both configs, and the third one finds them built:
all three are answered alike when builds suspend themselves. -/
theorem suspension_invisible_interleaved : ∃ answers s,
    Session.run {} interleaved = some (answers, s) ∧
      Session.run {} (interleaved.map (·.suspending true)) = some (answers, s.suspending true) ∧
      .joined .deadlock ∉ answers ∧ s.pools[0]?.map (·.builds) = some 4 := by
  have hrun : (Session.run {} interleaved).any fun out =>
      out.2.pools[0]?.map (·.builds) == some 4 := by decide +kernel
  obtain ⟨⟨answers, s⟩, h, hbuilds⟩ := (Option.any_eq_true _ _).mp hrun
  have hsingle : ∀ c ∈ interleaved, c.Single := by decide
  obtain ⟨hsame, hrest⟩ := suspension_invisible hsingle true
  rw [h] at hsame
  exact ⟨answers, s, h, hsame, (hrest answers s h).1, beq_iff_eq.mp hbuilds⟩

end Session

end Wiring

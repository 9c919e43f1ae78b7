import Wiring.Factory.Polling

/-!
# The work of a factory as a relation

`Factory.Runs` relates a task on a floor to its outcome, without limits and without a monad: one
rule per thing that can happen while constructions are polled and their builds are carried on.
Polling is sound for it (`runs_of_pollWithin`), so what is proved of each rule holds of every poll.

There are three kinds of tasks. `poll` polls a construction; `drive` carries on the build of a
construction that is being polled; `wait` is the point in between, where a build waits for another
construction.
-/

namespace Wiring

/-- If one job follows another, both of them end. -/
theorem Job.bind_eq_some {α β : Type} {m : Job α} {k : α → Job β} {f f' : Floor} {b : β} :
    (m >>= k).run f = some (b, f') ↔
      ∃ a f₁, m.run f = some (a, f₁) ∧ (k a).run f₁ = some (b, f') := by
  simp [StateT.run_bind, Option.bind_eq_some_iff]

/-- A piece of work on a construction, by number. -/
inductive Task where
  /-- Poll it. -/
  | poll (n : Nat)
  /-- Carry on its build. -/
  | drive (n : Nat) (settings : Settings) (rest : Build Json)
  /-- Wait for another construction and go on with its instance. The last argument tells whether
  anything has been moved on before. -/
  | wait (n : Nat) (settings : Settings) (other : Nat) (next : Json → Build Json) (moved : Bool)

/-- The construction that a task works on. -/
def Task.subject : Task → Nat
  | .poll n => n
  | .drive n _ _ => n
  | .wait n _ _ _ _ => n

namespace Factory

/-- What comes of a task: the progress that is reported, and the floor afterwards. -/
inductive Runs (o : Factory) : Task → Floor → Progress → Floor → Prop
  | done {n settings f} (v : Json) :
      Runs o (.drive n settings (.done v)) f (.ready (.ok v)) (f.finish n (.ok v))
  | fail {n settings f} (e : BuildError) :
      Runs o (.drive n settings (.fail e)) f (.ready (.error e)) (f.finish n (.error e))
  | suspend {n settings f} (next : Build Json) :
      Runs o (.drive n settings (.suspend next)) f (.pending true)
        (f.setStage n (.suspended next))
  | read {n settings next f p f'} (rest : Runs o (.drive n settings (next f.bench)) f p f') :
      Runs o (.drive n settings (.read next)) f p f'
  | write {n settings bench next f p f'}
      (rest : Runs o (.drive n settings next) { f with bench } p f') :
      Runs o (.drive n settings (.write bench next)) f p f'
  | answered {n settings config next v f f₁ p f'}
      (entry : o.enter config settings f = (.answered (.ok v), f₁))
      (rest : Runs o (.drive n settings (next v)) f₁ p f') :
      Runs o (.drive n settings (.request config next)) f p f'
  | refused {n settings config next e f f₁}
      (entry : o.enter config settings f = (.answered (.error e), f₁)) :
      Runs o (.drive n settings (.request config next)) f (.ready (.error e))
        (f₁.finish n (.error e))
  | request {n settings config next other f f₁ p f'}
      (entry : o.enter config settings f = (.waiting other, f₁))
      (rest : Runs o (.wait n settings other next true) f₁ p f') :
      Runs o (.drive n settings (.request config next)) f p f'
  | received {n settings other next moved v f f₁ p f'}
      (poll : Runs o (.poll other) f (.ready (.ok v)) f₁)
      (rest : Runs o (.drive n settings (next v)) (f₁.receive (some n) other (.ok v)) p f') :
      Runs o (.wait n settings other next moved) f p f'
  | passedOn {n settings other next moved e f f₁}
      (poll : Runs o (.poll other) f (.ready (.error e)) f₁) :
      Runs o (.wait n settings other next moved) f (.ready (.error e))
        ((f₁.receive (some n) other (.error e)).finish n (.error e))
  | blocked {n settings other next moved further f f₁}
      (poll : Runs o (.poll other) f (.pending further) f₁) :
      Runs o (.wait n settings other next moved) f (.pending (moved || further))
        (f₁.setStage n (.awaiting other next))
  | missing {n f} (lookup : f.registry.construction? n = none) :
      Runs o (.poll n) f (.pending false) f
  | finished {n c result f} (lookup : f.registry.construction? n = some c)
      (stage : c.stage = .finished result) : Runs o (.poll n) f (.ready result) f
  | running {n c f} (lookup : f.registry.construction? n = some c) (stage : c.stage = .running) :
      Runs o (.poll n) f (.pending false) f
  | unprepared {n c e graph f} (lookup : f.registry.construction? n = some c)
      (stage : c.stage = .fresh)
      (form : rawConfig o.preprocessors f.graph c.config = (.error e, graph)) :
      Runs o (.poll n) f (.ready (.error e))
        (((f.setStage n .running).setGraph graph).finish n (.error e))
  | prepared {n c raw graph f p f'} (lookup : f.registry.construction? n = some c)
      (stage : c.stage = .fresh)
      (form : rawConfig o.preprocessors f.graph c.config = (.ok raw, graph))
      (rest : Runs o (.drive n c.settings (o.strategy.build raw))
        (((f.setStage n .running).setGraph graph).setRaw n raw) p f') :
      Runs o (.poll n) f p f'
  | resumed {n c next f p f'} (lookup : f.registry.construction? n = some c)
      (stage : c.stage = .suspended next)
      (rest : Runs o (.drive n c.settings next) (f.setStage n .running) p f') :
      Runs o (.poll n) f p f'
  | awaited {n c other next f p f'} (lookup : f.registry.construction? n = some c)
      (stage : c.stage = .awaiting other next)
      (rest : Runs o (.wait n c.settings other next false) (f.setStage n .running) p f') :
      Runs o (.poll n) f p f'

variable {o : Factory}

/-! ## Entering a request -/

/-- A request is answered at once, without any change, for one of three reasons. -/
inductive Direct (o : Factory) (g : Graph) (settings : Settings) (config : NodeId) :
    Except BuildError Json → Prop
  | missing (h : g.value? config = none) :
      Direct o g settings config (.error (.unknownNode config))
  | inProgress {key} (h : g.value? config = some key) (hp : settings.isInProgress key = true) :
      Direct o g settings config (.ok o.strategy.undefined)
  | variable {key} (h : g.value? config = some key) (hp : settings.isInProgress key = false)
      (hv : g.isVariable config = true) :
      Direct o g settings config (o.strategy.variableValue settings key)

/-- The request is for a construction of a key. -/
structure Constructs (g : Graph) (settings : Settings) (config : NodeId) (key : String) : Prop where
  value : g.value? config = some key
  notInProgress : settings.isInProgress key = false
  notVariable : g.isVariable config = false

/-- A request for a construction is not answered at once. -/
theorem Constructs.not_direct {g : Graph} {settings : Settings} {config : NodeId} {key : String}
    {result : Except BuildError Json} (h : Constructs g settings config key) :
    ¬ Direct o g settings config result := by
  intro hdirect
  cases hdirect with
  | missing hnone => cases h.value.symm.trans hnone
  | inProgress hvalue hprogress =>
    obtain rfl := Option.some.inj (h.value.symm.trans hvalue)
    exact Bool.false_ne_true (h.notInProgress.symm.trans hprogress)
  | «variable» _ _ hvar => exact Bool.false_ne_true (h.notVariable.symm.trans hvar)

theorem enter_answered {config : NodeId} {settings : Settings} {f f₁ : Floor}
    {result : Except BuildError Json}
    (h : o.enter config settings f = (.answered result, f₁)) :
    f₁ = f ∧ Direct o f.graph settings config result := by
  unfold enter at h
  dsimp only at h
  split at h
  · rename_i hv
    cases h
    exact ⟨rfl, .missing hv⟩
  · rename_i key hv
    by_cases hp : settings.isInProgress key
    · rw [if_pos hp] at h
      cases h
      exact ⟨rfl, .inProgress hv hp⟩
    · rw [if_neg hp] at h
      by_cases hvar : f.graph.isVariable config
      · rw [if_pos hvar] at h
        cases h
        exact ⟨rfl, .variable hv (by simpa using hp) hvar⟩
      · rw [if_neg hvar] at h
        split at h <;> cases h

/-- A request waits for the current construction of its key, or for a new one. -/
theorem enter_waiting {config : NodeId} {settings : Settings} {f f₁ : Floor} {n : Nat}
    (h : o.enter config settings f = (.waiting n, f₁)) :
    ∃ key, Constructs f.graph settings config key ∧
      ((f.registry.current? key = some n ∧ f₁ = f) ∨
        (f.registry.current? key = none ∧
          f.start config key (settings.descend key) = (n, f₁))) := by
  unfold enter at h
  dsimp only at h
  split at h
  · cases h
  · rename_i key hv
    by_cases hp : settings.isInProgress key
    · rw [if_pos hp] at h
      cases h
    · rw [if_neg hp] at h
      by_cases hvar : f.graph.isVariable config
      · rw [if_pos hvar] at h
        cases h
      · rw [if_neg hvar] at h
        refine ⟨key, ⟨hv, by simpa using hp, by simpa using hvar⟩, ?_⟩
        split at h
        · rename_i hcur
          cases h
          exact .inl ⟨hcur, rfl⟩
        · rename_i hcur
          cases h
          exact .inr ⟨hcur, rfl⟩

section

variable {settings : Settings} {config : NodeId} {key : String} {f : Floor}

theorem enter_inProgress (hv : f.graph.value? config = some key)
    (hp : settings.isInProgress key = true) :
    o.enter config settings f = (.answered (.ok o.strategy.undefined), f) := by
  unfold enter
  simp only [hv, hp, if_true]

theorem enter_current {n : Nat} (h : Constructs f.graph settings config key)
    (hcur : f.registry.current? key = some n) : o.enter config settings f = (.waiting n, f) := by
  unfold enter
  simp [h.value, h.notInProgress, h.notVariable, hcur]

theorem enter_free (h : Constructs f.graph settings config key)
    (hfree : f.registry.current? key = none) :
    o.enter config settings f =
      (.waiting f.registry.history.size, (f.start config key (settings.descend key)).2) := by
  unfold enter
  simp only [h.value, h.notInProgress, h.notVariable, hfree, Bool.false_eq_true, if_false]
  rfl

end

/-! ## The parts of a poll -/

/-- Waits for another construction and goes on with its instance. -/
def waitFor (o : Factory) (poll : Nat → Job Progress) (n : Nat) (settings : Settings) (other : Nat)
    (next : Json → Build Json) (moved : Bool) : Job Progress := do
  match ← await poll (some n) other with
  | .ready (.ok v) => drive o poll n settings (next v)
  | .ready (.error e) => finish n (.error e)
  | .pending further => do
    modify (·.setStage n (.awaiting other next))
    pure (.pending (moved || further))

/-- What a build does next is up to how its request is met. -/
theorem drive_request_run {poll : Nat → Job Progress} {n : Nat} {settings : Settings}
    {config : NodeId} {next : Json → Build Json} {f f₁ : Floor} {entry : Entry}
    (hentry : o.enter config settings f = (entry, f₁)) :
    (drive o poll n settings (.request config next)).run f =
      match entry with
      | .answered (.ok v) => (drive o poll n settings (next v)).run f₁
      | .answered (.error e) => (finish n (.error e)).run f₁
      | .waiting other => (waitFor o poll n settings other next true).run f₁ := by
  have hrun : (modifyGet (o.enter config settings) : Job Entry).run f = some (entry, f₁) :=
    congrArg some hentry
  rw [drive, StateT.run_bind, hrun]
  match entry with
  | .answered (.ok v) => rfl
  | .answered (.error e) => rfl
  | .waiting other => rfl

theorem prepare_run (config : NodeId) (f : Floor) :
    (o.prepare config).run f = some ((rawConfig o.preprocessors f.graph config).1,
      f.setGraph (rawConfig o.preprocessors f.graph config).2) :=
  rfl

/-- What a poll does is up to the stage of the construction. -/
theorem pollWithin_run {n : Nat} {f : Floor} {c : Construction}
    (hc : f.registry.construction? n = some c) (limit : Nat) :
    (pollWithin o (limit + 1) n).run f =
      match c.stage with
      | .finished result => some (.ready result, f)
      | .running => some (.pending false, f)
      | .fresh => match rawConfig o.preprocessors f.graph c.config with
        | (.error e, graph) => (finish n (.error e)).run ((f.setStage n .running).setGraph graph)
        | (.ok raw, graph) => (drive o (pollWithin o limit) n c.settings (o.strategy.build raw)).run
            (((f.setStage n .running).setGraph graph).setRaw n raw)
      | .suspended rest =>
        (drive o (pollWithin o limit) n c.settings rest).run (f.setStage n .running)
      | .awaiting other next =>
        (waitFor o (pollWithin o limit) n c.settings other next false).run
          (f.setStage n .running) := by
  have hget : (get : Job Floor).run f = some (f, f) := rfl
  rw [pollWithin, StateT.run_bind, hget, Option.bind_eq_bind, Option.bind_some]
  simp only [hc]
  cases c.stage with
  | fresh =>
    have hgraph : (f.setStage n .running).graph = f.graph := rfl
    have hset : (modify (·.setStage n .running) : Job PUnit).run f =
        some (⟨⟩, f.setStage n .running) := rfl
    simp only [StateT.run_bind, hset, Option.bind_eq_bind, Option.bind_some, prepare_run, hgraph]
    rcases rawConfig o.preprocessors f.graph c.config with ⟨result, graph⟩
    cases result with
    | error e => rfl
    | ok raw => rfl
  | _ => rfl

/-! ## Polling is sound -/

/-- Polls with this function do what the relation says. -/
def Sound (o : Factory) (poll : Nat → Job Progress) : Prop :=
  ∀ n f p f', (poll n).run f = some (p, f') → Runs o (.poll n) f p f'

theorem await_eq_some {poll : Nat → Job Progress} {waiter : Option Nat} {n : Nat} {f f' : Floor}
    {p : Progress} (h : (await poll waiter n).run f = some (p, f')) :
    (∃ result f₁, (poll n).run f = some (.ready result, f₁) ∧ p = .ready result ∧
        f' = f₁.receive waiter n result) ∨
      ∃ moved, (poll n).run f = some (.pending moved, f') ∧ p = .pending moved := by
  obtain ⟨q, f₁, hq, h⟩ := Job.bind_eq_some.mp h
  cases q with
  | ready result =>
    cases h
    exact .inl ⟨result, f₁, hq, rfl, rfl⟩
  | pending moved =>
    cases h
    exact .inr ⟨moved, hq, rfl⟩

theorem runs_of_waitFor {poll : Nat → Job Progress} (hpoll : Sound o poll) {n : Nat}
    {settings : Settings} {other : Nat} {next : Json → Build Json} {moved : Bool} {f f' : Floor}
    {p : Progress}
    (hdrive : ∀ {v f p f'}, (drive o poll n settings (next v)).run f = some (p, f') →
      Runs o (.drive n settings (next v)) f p f')
    (h : (waitFor o poll n settings other next moved).run f = some (p, f')) :
    Runs o (.wait n settings other next moved) f p f' := by
  obtain ⟨q, f₁, hq, h⟩ := Job.bind_eq_some.mp h
  rcases await_eq_some hq with ⟨result, f₂, hp, rfl, rfl⟩ | ⟨further, hp, rfl⟩
  · cases result with
    | ok v => exact .received (hpoll _ _ _ _ hp) (hdrive h)
    | error e =>
      cases h
      exact .passedOn (hpoll _ _ _ _ hp)
  · cases h
    exact .blocked (hpoll _ _ _ _ hp)

theorem runs_of_drive {poll : Nat → Job Progress} (hpoll : Sound o poll) {n : Nat}
    {settings : Settings} {b : Build Json} {f f' : Floor} {p : Progress}
    (h : (drive o poll n settings b).run f = some (p, f')) :
    Runs o (.drive n settings b) f p f' := by
  induction b generalizing f f' p with
  | done v =>
    cases h
    exact .done v
  | fail e =>
    cases h
    exact .fail e
  | endless => cases h
  | suspend next =>
    cases h
    exact .suspend next
  | read next ih => exact .read (ih _ h)
  | write bench next ih => exact .write (ih h)
  | request config next ih =>
    rcases hentry : o.enter config settings f with ⟨entry, f₁⟩
    rw [drive_request_run hentry] at h
    cases entry with
    | waiting other => exact .request hentry (runs_of_waitFor hpoll (ih _) h)
    | answered result =>
      cases result with
      | ok v => exact .answered hentry (ih v h)
      | error e =>
        cases h
        exact .refused hentry

theorem runs_of_pollWithin (limit : Nat) : Sound o (pollWithin o limit) := by
  induction limit with
  | zero =>
    intro n f p f' h
    cases h
  | succ limit ih =>
    intro n f p f' h
    cases hc : f.registry.construction? n with
    | none =>
      obtain ⟨f₀, f₁, hget, h⟩ := Job.bind_eq_some.mp h
      cases hget
      rw [hc] at h
      cases h
      exact .missing hc
    | some c =>
      rw [pollWithin_run hc] at h
      cases hs : c.stage with
      | finished result =>
        rw [hs] at h
        cases h
        exact .finished hc hs
      | running =>
        rw [hs] at h
        cases h
        exact .running hc hs
      | suspended rest =>
        rw [hs] at h
        exact .resumed hc hs (runs_of_drive ih h)
      | fresh =>
        rw [hs] at h
        rcases hform : rawConfig o.preprocessors f.graph c.config with ⟨result, graph⟩
        rw [hform] at h
        cases result with
        | error e =>
          cases h
          exact .unprepared hc hs hform
        | ok raw => exact .prepared hc hs hform (runs_of_drive ih h)
      | awaiting other next =>
        rw [hs] at h
        exact .awaited hc hs (runs_of_waitFor ih (runs_of_drive ih) h)

theorem runs_of_poll : Sound o o.poll := by
  intro n f p f' h
  obtain ⟨f₀, f₁, hget, h⟩ := Job.bind_eq_some.mp h
  cases hget
  exact runs_of_pollWithin _ n f p f' h

end Factory

end Wiring

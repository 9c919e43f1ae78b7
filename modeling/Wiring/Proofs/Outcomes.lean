import Wiring.Proofs.Joins

/-!
# Work has one outcome

`Factory.Runs` relates each task on a floor to one outcome at most (`Runs.unique`), and so do the
relations for polls of requests, rounds and joins. With this, what is known to come of a join is
what comes of it, if it ends at all (`Concludes.unique`).

What a poll does is up to the stage of the construction; `Runs.inv` reads the rules backwards.
-/

namespace Wiring

namespace Factory

variable {o : Factory}

/-! ## Polls, read backwards -/

/-- What comes of polling a construction at a stage. -/
def PollSpec (o : Factory) (n : Nat) (c : Construction) (f : Floor) (p : Progress) (f' : Floor) :
    Stage → Prop
  | .finished result => p = .ready result ∧ f' = f
  | .running => p = .pending false ∧ f' = f
  | .fresh =>
    (∃ e graph, rawConfig o.preprocessors f.graph c.config = (.error e, graph) ∧
      p = .ready (.error e) ∧
      f' = ((f.setStage n .running).setGraph graph).finish n (.error e)) ∨
    ∃ raw graph, rawConfig o.preprocessors f.graph c.config = (.ok raw, graph) ∧
      Runs o (.drive n c.settings (o.strategy.build raw))
        (((f.setStage n .running).setGraph graph).setRaw n raw) p f'
  | .suspended next => Runs o (.drive n c.settings next) (f.setStage n .running) p f'
  | .awaiting other next =>
    Runs o (.wait n c.settings other next false) (f.setStage n .running) p f'

/-- A poll does what the stage of the construction says. -/
theorem Runs.inv {n : Nat} {f f' : Floor} {p : Progress} {c : Construction} {stage : Stage}
    (h : Runs o (.poll n) f p f') (hc : f.registry.construction? n = some c)
    (hs : c.stage = stage) : PollSpec o n c f p f' stage := by
  cases h with
  | missing lookup => cases lookup.symm.trans hc
  | finished lookup stage' =>
    cases lookup.symm.trans hc
    cases stage'.symm.trans hs
    exact ⟨rfl, rfl⟩
  | running lookup stage' =>
    cases lookup.symm.trans hc
    cases stage'.symm.trans hs
    exact ⟨rfl, rfl⟩
  | unprepared lookup stage' form =>
    cases lookup.symm.trans hc
    cases stage'.symm.trans hs
    exact .inl ⟨_, _, form, rfl, rfl⟩
  | prepared lookup stage' form rest =>
    cases lookup.symm.trans hc
    cases stage'.symm.trans hs
    exact .inr ⟨_, _, form, rest⟩
  | resumed lookup stage' rest =>
    cases lookup.symm.trans hc
    cases stage'.symm.trans hs
    exact rest
  | awaited lookup stage' rest =>
    cases lookup.symm.trans hc
    cases stage'.symm.trans hs
    exact rest

/-! ## Uniqueness -/

/-- **A task has one outcome.** -/
theorem Runs.unique {t : Task} {f f' f₁ : Floor} {p p₁ : Progress} (h : Runs o t f p f')
    (h₁ : Runs o t f p₁ f₁) : p₁ = p ∧ f₁ = f' := by
  induction h generalizing p₁ f₁ with
  | done v =>
    cases h₁
    exact ⟨rfl, rfl⟩
  | fail e =>
    cases h₁
    exact ⟨rfl, rfl⟩
  | suspend next =>
    cases h₁
    exact ⟨rfl, rfl⟩
  | read _ ih =>
    cases h₁ with
    | read rest => exact ih rest
  | write _ ih =>
    cases h₁ with
    | write rest => exact ih rest
  | answered entry _ ih =>
    cases h₁ with
    | answered entry₁ rest =>
      cases entry.symm.trans entry₁
      exact ih rest
    | refused entry₁ => cases entry.symm.trans entry₁
    | request entry₁ _ => cases entry.symm.trans entry₁
  | refused entry =>
    cases h₁ with
    | answered entry₁ _ => cases entry.symm.trans entry₁
    | refused entry₁ =>
      cases entry.symm.trans entry₁
      exact ⟨rfl, rfl⟩
    | request entry₁ _ => cases entry.symm.trans entry₁
  | request entry _ ih =>
    cases h₁ with
    | answered entry₁ _ => cases entry.symm.trans entry₁
    | refused entry₁ => cases entry.symm.trans entry₁
    | request entry₁ rest =>
      cases entry.symm.trans entry₁
      exact ih rest
  | received _ _ ihp ihr =>
    cases h₁ with
    | received poll rest =>
      obtain ⟨hp, rfl⟩ := ihp poll
      cases hp
      exact ihr rest
    | passedOn poll => cases (ihp poll).1
    | blocked poll => cases (ihp poll).1
  | passedOn _ ihp =>
    cases h₁ with
    | received poll _ => cases (ihp poll).1
    | passedOn poll =>
      obtain ⟨hp, rfl⟩ := ihp poll
      cases hp
      exact ⟨rfl, rfl⟩
    | blocked poll => cases (ihp poll).1
  | blocked _ ihp =>
    cases h₁ with
    | received poll _ => cases (ihp poll).1
    | passedOn poll => cases (ihp poll).1
    | blocked poll =>
      obtain ⟨hp, rfl⟩ := ihp poll
      cases hp
      exact ⟨rfl, rfl⟩
  | missing lookup =>
    cases h₁ with
    | missing => exact ⟨rfl, rfl⟩
    | finished lookup₁ => cases lookup.symm.trans lookup₁
    | running lookup₁ => cases lookup.symm.trans lookup₁
    | unprepared lookup₁ => cases lookup.symm.trans lookup₁
    | prepared lookup₁ => cases lookup.symm.trans lookup₁
    | resumed lookup₁ => cases lookup.symm.trans lookup₁
    | awaited lookup₁ => cases lookup.symm.trans lookup₁
  | finished lookup stage => exact h₁.inv lookup stage
  | running lookup stage => exact h₁.inv lookup stage
  | unprepared lookup stage form =>
    rcases h₁.inv lookup stage with ⟨e, graph, form₁, rfl, rfl⟩ | ⟨raw, graph, form₁, -⟩
    · cases form.symm.trans form₁
      exact ⟨rfl, rfl⟩
    · cases form.symm.trans form₁
  | prepared lookup stage form _ ih =>
    rcases h₁.inv lookup stage with ⟨e, graph, form₁, -, -⟩ | ⟨raw, graph, form₁, rest⟩
    · cases form.symm.trans form₁
    · cases form.symm.trans form₁
      exact ih rest
  | resumed lookup stage _ ih => exact ih (h₁.inv lookup stage)
  | awaited lookup stage _ ih => exact ih (h₁.inv lookup stage)

variable {settings : Settings} {f f' f₁ : Floor}

/-- A poll of a request has one outcome. -/
theorem Serves.unique {r r' r₁ : Request} {moved moved₁ : Bool}
    (h : Serves o settings r f r' moved f') (h₁ : Serves o settings r f r₁ moved₁ f₁) :
    r₁ = r' ∧ moved₁ = moved ∧ f₁ = f' := by
  induction h generalizing r₁ moved₁ f₁ with
  | settled =>
    cases h₁
    exact ⟨rfl, rfl, rfl⟩
  | answered entry =>
    cases h₁ with
    | answered entry₁ =>
      cases entry.symm.trans entry₁
      exact ⟨rfl, rfl, rfl⟩
    | entered entry₁ _ => cases entry.symm.trans entry₁
  | entered entry _ ih =>
    cases h₁ with
    | answered entry₁ => cases entry.symm.trans entry₁
    | entered entry₁ rest =>
      cases entry.symm.trans entry₁
      exact ih rest
  | received poll =>
    cases h₁ with
    | received poll₁ =>
      obtain ⟨hp, rfl⟩ := poll.unique poll₁
      cases hp
      exact ⟨rfl, rfl, rfl⟩
    | pending poll₁ => cases (poll.unique poll₁).1
  | pending poll =>
    cases h₁ with
    | received poll₁ => cases (poll.unique poll₁).1
    | pending poll₁ =>
      obtain ⟨hp, rfl⟩ := poll.unique poll₁
      cases hp
      exact ⟨rfl, rfl, rfl⟩

/-- A round has one outcome. -/
theorem Sweeps.unique {rs rs' rs₁ : List Request} {moved moved₁ : Bool}
    (h : Sweeps o settings rs f rs' moved f') (h₁ : Sweeps o settings rs f rs₁ moved₁ f₁) :
    rs₁ = rs' ∧ moved₁ = moved ∧ f₁ = f' := by
  induction h generalizing rs₁ moved₁ f₁ with
  | nil =>
    cases h₁
    exact ⟨rfl, rfl, rfl⟩
  | cons head _ ih =>
    cases h₁ with
    | cons head₁ tail₁ =>
      obtain ⟨rfl, rfl, rfl⟩ := head.unique head₁
      obtain ⟨rfl, rfl, rfl⟩ := ih tail₁
      exact ⟨rfl, rfl, rfl⟩

/-- **A join has one outcome.** -/
theorem Concludes.unique {rs : List Request} {joined joined₁ : Joined}
    (h : Concludes o settings rs f joined f') (h₁ : Concludes o settings rs f joined₁ f₁) :
    joined₁ = joined ∧ f₁ = f' := by
  induction h generalizing joined₁ f₁ with
  | answers round all =>
    cases h₁ with
    | answers round₁ all₁ =>
      obtain ⟨rfl, rfl, rfl⟩ := round.unique round₁
      cases all.symm.trans all₁
      exact ⟨rfl, rfl⟩
    | deadlock round₁ some₁ =>
      obtain ⟨rfl, -, -⟩ := round.unique round₁
      cases all.symm.trans some₁
    | again round₁ some₁ _ =>
      obtain ⟨rfl, -, -⟩ := round.unique round₁
      cases all.symm.trans some₁
  | deadlock round some =>
    cases h₁ with
    | answers round₁ all₁ =>
      obtain ⟨rfl, -, -⟩ := round.unique round₁
      cases some.symm.trans all₁
    | deadlock round₁ _ =>
      obtain ⟨-, -, rfl⟩ := round.unique round₁
      exact ⟨rfl, rfl⟩
    | again round₁ _ _ => cases (round.unique round₁).2.1
  | again round some _ ih =>
    cases h₁ with
    | answers round₁ all₁ =>
      obtain ⟨rfl, -, -⟩ := round.unique round₁
      cases some.symm.trans all₁
    | deadlock round₁ _ => cases (round.unique round₁).2.1
    | again round₁ _ rest₁ =>
      obtain ⟨rfl, -, rfl⟩ := round.unique round₁
      exact ih rest₁

/-! ## A single request -/

/-- How a caller's request for a config is answered in a single poll. -/
inductive Answers (o : Factory) (settings : Settings) (config : NodeId) (f : Floor) :
    Except BuildError Json → Floor → Prop
  | direct {result f'} (entry : o.enter config settings f = (.answered result, f')) :
      Answers o settings config f result f'
  | built {n result f₁ f'} (entry : o.enter config settings f = (.waiting n, f₁))
      (poll : Runs o (.poll n) f₁ (.ready result) f') :
      Answers o settings config f result (f'.receive none n result)

/-- A request that is answered in a single poll is settled by it. -/
theorem Answers.serves {config : NodeId} {result : Except BuildError Json}
    (h : Answers o settings config f result f') :
    Serves o settings (.new config) f (.settled result) true f' := by
  cases h with
  | direct entry => exact .answered entry
  | built entry poll => exact .entered entry (.received poll)

/-- Then it is a join of one round. -/
theorem Answers.concludes {config : NodeId} {result : Except BuildError Json}
    (h : Answers o settings config f result f') :
    Concludes o settings [.new config] f (.answers [result]) f' :=
  .answers (.cons h.serves .nil) rfl

end Factory

end Wiring

import Mathlib.Data.List.Forall2
import Wiring.Factory.Join
import Wiring.Proofs.Upkeep

/-!
# Joins as a relation

What `Factory.Runs` is for tasks, `Serves` is for one poll of a request, `Sweeps` for one round and
`Concludes` for the rounds of a join. A join is sound for them (`concludes_of_join`).

What every poll of a request keeps, a join keeps: `Concludes.invariant` is for invariants of all
requests together with the floor, `Concludes.each` for properties of single requests that last.
-/

namespace Wiring

/-- How the requests of a join stand when it has ended. -/
def Joined.Of (rs : List Request) : Joined → Prop
  | .answers results => rs = results.map .settled
  | .deadlock => ∃ r ∈ rs, ∀ result, r ≠ .settled result

theorem Request.mapM_result?_eq_some {rs : List Request} {results : List (Except BuildError Json)} :
    rs.mapM Request.result? = some results ↔ rs = results.map .settled := by
  induction rs generalizing results with
  | nil => simp [eq_comm]
  | cons r rs ih =>
    cases r with
    | settled result =>
      cases results with
      | nil => simp [Request.result?, Option.bind_eq_some_iff]
      | cons a as =>
        simp only [List.mapM_cons, result?, Option.bind_eq_bind, Option.bind_some,
          Option.bind_eq_some_iff, Option.pure_def, Option.some.injEq, List.cons.injEq,
          List.map_cons, settled.injEq, ← ih]
        constructor
        · rintro ⟨as', has, rfl, rfl⟩
          exact ⟨rfl, has⟩
        · rintro ⟨rfl, has⟩
          exact ⟨as, has, rfl, rfl⟩
    | new config => cases results <;> simp [Request.result?]
    | waiting n => cases results <;> simp [Request.result?]

theorem Request.mapM_result?_eq_none {rs : List Request} (h : rs.mapM Request.result? = none) :
    ∃ r ∈ rs, ∀ result, r ≠ .settled result := by
  induction rs with
  | nil => simp at h
  | cons r rs ih =>
    cases r with
    | settled result =>
      have htail : rs.mapM Request.result? = none := by
        cases hrs : rs.mapM Request.result? with
        | none => rfl
        | some results => simp [Request.result?, hrs] at h
      obtain ⟨q, hq, hopen⟩ := ih htail
      exact ⟨q, List.mem_cons_of_mem _ hq, hopen⟩
    | new config => exact ⟨_, List.mem_cons_self, fun _ hr => nomatch hr⟩
    | waiting n => exact ⟨_, List.mem_cons_self, fun _ hr => nomatch hr⟩

namespace Factory

/-- One poll of a request: what becomes of it, whether anything moved, and the floor afterwards. -/
inductive Serves (o : Factory) (settings : Settings) :
    Request → Floor → Request → Bool → Floor → Prop
  | settled {result f} : Serves o settings (.settled result) f (.settled result) false f
  | answered {config result f f₁}
      (entry : o.enter config settings f = (.answered result, f₁)) :
      Serves o settings (.new config) f (.settled result) true f₁
  | entered {config n r moved f f₁ f'} (entry : o.enter config settings f = (.waiting n, f₁))
      (rest : Serves o settings (.waiting n) f₁ r moved f') :
      Serves o settings (.new config) f r moved f'
  | received {n result f f₁} (poll : Runs o (.poll n) f (.ready result) f₁) :
      Serves o settings (.waiting n) f (.settled result) true (f₁.receive none n result)
  | pending {n moved f f₁} (poll : Runs o (.poll n) f (.pending moved) f₁) :
      Serves o settings (.waiting n) f (.waiting n) moved f₁

/-- One round. -/
inductive Sweeps (o : Factory) (settings : Settings) :
    List Request → Floor → List Request → Bool → Floor → Prop
  | nil {f} : Sweeps o settings [] f [] false f
  | cons {r r' rs rs' moved later f f₁ f'} (head : Serves o settings r f r' moved f₁)
      (tail : Sweeps o settings rs f₁ rs' later f') :
      Sweeps o settings (r :: rs) f (r' :: rs') (moved || later) f'

/-- All rounds of a join: how the requests stand in the end, whether anything moved in the last
round, and the floor afterwards. -/
inductive Concludes (o : Factory) (settings : Settings) :
    List Request → Floor → Joined → Floor → Prop
  | answers {rs rs' moved results f f'} (round : Sweeps o settings rs f rs' moved f')
      (all : rs'.mapM Request.result? = some results) :
      Concludes o settings rs f (.answers results) f'
  | deadlock {rs rs' f f'} (round : Sweeps o settings rs f rs' false f')
      (some : rs'.mapM Request.result? = none) : Concludes o settings rs f .deadlock f'
  | again {rs rs' joined f f₁ f'} (round : Sweeps o settings rs f rs' true f₁)
      (some : rs'.mapM Request.result? = none) (rest : Concludes o settings rs' f₁ joined f') :
      Concludes o settings rs f joined f'

variable {o : Factory} {settings : Settings}

/-! ## Joins are sound -/

theorem serves_of_pollFor {n : Nat} {f f' : Floor} {r : Request} {moved : Bool}
    (h : (o.pollFor n).run f = some ((r, moved), f')) :
    Serves o settings (.waiting n) f r moved f' := by
  obtain ⟨p, f₁, hp, h⟩ := Job.bind_eq_some.mp h
  rcases await_eq_some hp with ⟨result, f₂, hq, rfl, rfl⟩ | ⟨moved, hq, rfl⟩
  · cases h
    exact .received (runs_of_poll _ _ _ _ hq)
  · cases h
    exact .pending (runs_of_poll _ _ _ _ hq)

theorem serves_of_pollRequest {q r : Request} {f f' : Floor} {moved : Bool}
    (h : (o.pollRequest settings q).run f = some ((r, moved), f')) :
    Serves o settings q f r moved f' := by
  cases q with
  | settled result =>
    cases h
    exact .settled
  | waiting n => exact serves_of_pollFor h
  | new config =>
    rw [pollRequest] at h
    obtain ⟨entry, f₁, hentry, h⟩ := Job.bind_eq_some.mp h
    have hentry : o.enter config settings f = (entry, f₁) := Option.some.inj hentry
    cases entry with
    | answered result =>
      cases h
      exact .answered hentry
    | waiting n => exact .entered hentry (serves_of_pollFor h)

theorem sweeps_of_round {rs rs' : List Request} {f f' : Floor} {moved : Bool}
    (h : (o.round settings rs).run f = some ((rs', moved), f')) :
    Sweeps o settings rs f rs' moved f' := by
  induction rs generalizing f rs' moved with
  | nil =>
    cases h
    exact .nil
  | cons r rs ih =>
    rw [round] at h
    obtain ⟨⟨r', m⟩, f₁, hr, h⟩ := Job.bind_eq_some.mp h
    obtain ⟨⟨rs'', m'⟩, f₂, hrs, h⟩ := Job.bind_eq_some.mp h
    cases h
    exact .cons (serves_of_pollRequest hr) (ih hrs)

theorem concludes_of_rounds {limit : Nat} {rs : List Request} {f f' : Floor} {joined : Joined}
    (h : (o.rounds settings limit rs).run f = some (joined, f')) :
    Concludes o settings rs f joined f' := by
  induction limit generalizing rs f with
  | zero => cases h
  | succ limit ih =>
    rw [rounds] at h
    obtain ⟨⟨rs', moved⟩, f₁, hround, h⟩ := Job.bind_eq_some.mp h
    have hround := sweeps_of_round hround
    dsimp only at h
    cases hall : rs'.mapM Request.result? with
    | some results =>
      rw [hall] at h
      cases h
      exact .answers hround hall
    | none =>
      rw [hall] at h
      cases moved with
      | false =>
        cases h
        exact .deadlock hround hall
      | true => exact .again hround hall (ih h)

theorem concludes_of_join {configs : List NodeId} {f f' : Floor} {joined : Joined}
    (h : (o.join settings configs).run f = some (joined, f')) :
    Concludes o settings (configs.map .new) f joined f' := by
  obtain ⟨f₀, f₁, hget, h⟩ := Job.bind_eq_some.mp h
  cases hget
  exact concludes_of_rounds h

/-- A round keeps the number of requests. -/
theorem Sweeps.length {rs rs' : List Request} {f f' : Floor} {moved : Bool}
    (h : Sweeps o settings rs f rs' moved f') : rs'.length = rs.length := by
  induction h with
  | nil => rfl
  | cons _ _ ih => rw [List.length_cons, List.length_cons, ih]

/-! ## What polls of requests keep, joins keep -/

section Invariant

variable {I : List Request → Floor → Prop}
  (step : ∀ {before r after f r' moved f'}, I (before ++ r :: after) f →
    Serves o settings r f r' moved f' → I (before ++ r' :: after) f')
include step

theorem Sweeps.invariant {rs rs' : List Request} {f f' : Floor} {moved : Bool}
    (h : Sweeps o settings rs f rs' moved f') (before : List Request) (hI : I (before ++ rs) f) :
    I (before ++ rs') f' := by
  induction h generalizing before with
  | nil => exact hI
  | @cons r r' rs rs' moved later f f₁ f' head _ ih =>
    have h₁ : I ((before ++ [r']) ++ rs) f₁ := by
      simpa using step hI head
    simpa using ih (before ++ [r']) h₁

/-- An invariant of the requests and the floor. -/
theorem Concludes.invariant {rs : List Request} {f f' : Floor} {joined : Joined}
    (h : Concludes o settings rs f joined f') (hI : I rs f) : ∃ rs', I rs' f' ∧ joined.Of rs' := by
  induction h with
  | @answers rs rs' moved results f f' round all =>
    exact ⟨rs', round.invariant step [] hI, Request.mapM_result?_eq_some.mp all⟩
  | @deadlock rs rs' f f' round some =>
    exact ⟨rs', round.invariant step [] hI, Request.mapM_result?_eq_none some⟩
  | again round _ _ ih => exact ih (round.invariant step [] hI)

end Invariant

section Each

variable {J : Floor → Prop} {P : NodeId → Request → Floor → Prop}
  (step : ∀ {r f r' moved f'}, J f → (∃ config, P config r f) → Serves o settings r f r' moved f' →
    J f' ∧ (∀ config, P config r f → P config r' f') ∧ ∀ config q, P config q f → P config q f')
include step

theorem Sweeps.each {rs rs' : List Request} {f f' : Floor} {moved : Bool}
    (h : Sweeps o settings rs f rs' moved f') {configs : List NodeId} (hJ : J f)
    (hP : List.Forall₂ (P · · f) configs rs) :
    J f' ∧ List.Forall₂ (P · · f') configs rs' ∧ ∀ config q, P config q f → P config q f' := by
  induction h generalizing configs with
  | nil => exact ⟨hJ, by cases hP; exact .nil, fun _ _ => id⟩
  | cons head _ ih =>
    cases hP with
    | cons hp hps =>
      obtain ⟨hJ₁, hown, hothers⟩ := step hJ ⟨_, hp⟩ head
      obtain ⟨hJ', htail, hlast⟩ := ih hJ₁ (hps.imp fun _ _ => hothers _ _)
      exact ⟨hJ', .cons (hlast _ _ (hown _ hp)) htail, fun c q hq => hlast c q (hothers c q hq)⟩

/-- A property of each request with its config that lasts while other requests are polled. -/
theorem Concludes.each {rs : List Request} {f f' : Floor} {joined : Joined}
    (h : Concludes o settings rs f joined f') {configs : List NodeId} (hJ : J f)
    (hP : List.Forall₂ (P · · f) configs rs) :
    J f' ∧ ∃ rs', List.Forall₂ (P · · f') configs rs' ∧ joined.Of rs' := by
  induction h with
  | @answers rs rs' moved results f f' round all =>
    obtain ⟨hJ', hP', -⟩ := round.each step hJ hP
    exact ⟨hJ', rs', hP', Request.mapM_result?_eq_some.mp all⟩
  | @deadlock rs rs' f f' round some =>
    obtain ⟨hJ', hP', -⟩ := round.each step hJ hP
    exact ⟨hJ', rs', hP', Request.mapM_result?_eq_none some⟩
  | again round _ _ ih =>
    obtain ⟨hJ', hP', -⟩ := round.each step hJ hP
    exact ih hJ' hP'

end Each

end Factory

end Wiring

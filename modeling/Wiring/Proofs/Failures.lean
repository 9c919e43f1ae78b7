import Wiring.Proofs.Requests

/-!
# Failures unwind

No build handles the error of another one. So while a single request is polled, the journal goes on
without failures until a construction fails; from then on it only has that error, which ends one
construction after the other on its way to the caller (`Progress.Fits`, `Runs.fits`). In particular
nothing is started any more.
-/

namespace Wiring

namespace Journal

/-- No construction fails. -/
def Clean (j : Journal) : Prop := ∀ n e, .ended n (.error e) ∉ j

/-- Constructions end with an error or receive it, and nothing else happens. -/
def Unwinds (e : BuildError) (j : Journal) : Prop :=
  ∀ x ∈ j, (∃ n, x = .ended n (.error e)) ∨ ∃ waiter n, x = .received waiter n (.error e)

/-- A journal that ends with an error unwinds from its first failure on. -/
def Fails (e : BuildError) (j : Journal) : Prop :=
  ∃ before after, j = before ++ after ∧ Clean before ∧ Unwinds e after

theorem clean_nil : Clean [] := fun _ _ h => nomatch h

theorem Clean.append {j k : Journal} (hj : Clean j) (hk : Clean k) : Clean (j ++ k) :=
  fun n e h => (List.mem_append.mp h).elim (hj n e) (hk n e)

theorem clean_singleton {x : Event} (hx : ∀ n e, x ≠ .ended n (.error e)) : Clean [x] :=
  fun n e h => hx n e (List.mem_singleton.mp h).symm

theorem unwinds_nil (e : BuildError) : Unwinds e [] := fun _ h => nomatch h

theorem Unwinds.append {e : BuildError} {j k : Journal} (hj : Unwinds e j) (hk : Unwinds e k) :
    Unwinds e (j ++ k) :=
  fun x hx => (List.mem_append.mp hx).elim (hj x) (hk x)

theorem unwinds_ended (e : BuildError) (n : Nat) : Unwinds e [.ended n (.error e)] :=
  fun _ hx => .inl ⟨n, List.mem_singleton.mp hx⟩

theorem unwinds_received (e : BuildError) (waiter : Option Nat) (n : Nat) :
    Unwinds e [.received waiter n (.error e)] :=
  fun _ hx => .inr ⟨waiter, n, List.mem_singleton.mp hx⟩

theorem Unwinds.not_started {e : BuildError} {j : Journal} (h : Unwinds e j) (n : Nat)
    (key : String) : .started n key ∉ j := by
  intro hmem
  rcases h _ hmem with ⟨m, hm⟩ | ⟨waiter, m, hm⟩ <;> cases hm

theorem Unwinds.not_succeeded {e : BuildError} {j : Journal} (h : Unwinds e j) {n : Nat}
    {v : Json} : .ended n (.ok v) ∉ j := by
  intro hmem
  rcases h _ hmem with ⟨m, hm⟩ | ⟨waiter, m, hm⟩ <;> cases hm

theorem Fails.prepend {e : BuildError} {j k : Journal} (hk : Fails e k) (hj : Clean j) :
    Fails e (j ++ k) := by
  obtain ⟨before, after, rfl, hclean, hunwind⟩ := hk
  exact ⟨j ++ before, after, by simp, hj.append hclean, hunwind⟩

theorem Fails.append {e : BuildError} {j k : Journal} (hj : Fails e j) (hk : Unwinds e k) :
    Fails e (j ++ k) := by
  obtain ⟨before, after, rfl, hclean, hunwind⟩ := hj
  exact ⟨before, after ++ k, by simp, hclean, hunwind.append hk⟩

theorem Unwinds.fails {e : BuildError} {j : Journal} (h : Unwinds e j) : Fails e j :=
  ⟨[], j, rfl, clean_nil, h⟩

end Journal

open Journal

/-- How the journal goes on while work is done that reports some progress. -/
def Progress.Fits : Progress → Journal → Prop
  | .ready (.error e), j => Fails e j
  | _, j => Clean j

theorem Progress.Fits.prepend {p : Progress} {j k : Journal} (hk : p.Fits k) (hj : Clean j) :
    p.Fits (j ++ k) := by
  match p, hk with
  | .ready (.error _), hk => exact Fails.prepend hk hj
  | .ready (.ok _), hk => exact Clean.append hj hk
  | .pending _, hk => exact Clean.append hj hk

theorem Progress.fits_nil (p : Progress) : p.Fits [] := by
  match p with
  | .ready (.error e) => exact (unwinds_nil e).fails
  | .ready (.ok _) => exact clean_nil
  | .pending _ => exact clean_nil

namespace Factory

variable {o : Factory} {settings : Settings} {f f₁ f' : Floor}

/-- Entering a request starts one construction at most. -/
theorem enter_clean {config : NodeId} {entry : Entry}
    (h : o.enter config settings f = (entry, f₁)) :
    ∃ j, f₁.registry.journal.toList = f.registry.journal.toList ++ j ∧ Clean j := by
  cases entry with
  | answered result =>
    obtain ⟨rfl, -⟩ := enter_answered h
    exact ⟨[], by simp, clean_nil⟩
  | waiting n =>
    obtain ⟨key, -, ⟨-, rfl⟩ | ⟨-, hstart⟩⟩ := enter_waiting h
    · exact ⟨[], by simp, clean_nil⟩
    · cases hstart
      exact ⟨_, Registry.journal_start .., clean_singleton fun _ _ h => nomatch h⟩

/-- **Errors unwind**: the journal fits what work reports. -/
theorem Runs.fits {t : Task} {p : Progress} (h : Runs o t f p f') :
    ∃ j, f'.registry.journal.toList = f.registry.journal.toList ++ j ∧ p.Fits j := by
  -- by induction on the work: only `fail`, `refused` and `unprepared` bring up an error
  induction h with
  | @done n settings f v =>
    exact ⟨_, Registry.journal_finish .., clean_singleton fun _ _ h => nomatch h⟩
  | @fail n settings f e => exact ⟨_, Registry.journal_finish .., (unwinds_ended e n).fails⟩
  | suspend next => exact ⟨[], by simp [Floor.setStage], clean_nil⟩
  | read _ ih => exact ih
  | write _ ih => exact ih
  | answered entry _ ih =>
    obtain ⟨rfl, -⟩ := enter_answered entry
    exact ih
  | @refused n settings config next e f f₁ entry =>
    obtain ⟨rfl, -⟩ := enter_answered entry
    exact ⟨_, Registry.journal_finish .., (unwinds_ended e n).fails⟩
  | request entry _ ih =>
    obtain ⟨j, hj, hclean⟩ := enter_clean entry
    obtain ⟨k, hk, hfits⟩ := ih
    exact ⟨j ++ k, by rw [hk, hj, List.append_assoc], hfits.prepend hclean⟩
  | @received n settings other next moved v f f₁ p f' _ _ ihp ihr =>
    obtain ⟨j, hj, hclean⟩ := ihp
    obtain ⟨k, hk, hfits⟩ := ihr
    have hrec : Clean [.received (some n) other (.ok v)] := clean_singleton fun _ _ h => nomatch h
    refine ⟨j ++ [.received (some n) other (.ok v)] ++ k, ?_,
      hfits.prepend (Clean.append hclean hrec)⟩
    rw [hk, Floor.receive, Registry.journal_record, hj]
    simp
  | @passedOn n settings other next moved e f f₁ _ ihp =>
    -- the error is received, and ends the construction that has waited
    obtain ⟨j, hj, hfails⟩ := ihp
    have hrec : Fails e (j ++ [.received (some n) other (.error e)]) :=
      Fails.append hfails (unwinds_received e (some n) other)
    refine ⟨_ ++ [.ended n (.error e)], ?_, Fails.append hrec (unwinds_ended e n)⟩
    rw [Floor.finish, Registry.journal_finish, Floor.receive, Registry.journal_record, hj]
    simp
  | blocked _ ihp => exact ihp
  | missing lookup => exact ⟨[], by simp, clean_nil⟩
  | finished lookup stage => exact ⟨[], by simp, Progress.fits_nil _⟩
  | running lookup stage => exact ⟨[], by simp, clean_nil⟩
  | @unprepared n c e graph f _ _ _ =>
    exact ⟨_, Registry.journal_finish .., (unwinds_ended e n).fails⟩
  | prepared lookup stage form _ ih => exact ih
  | resumed lookup stage _ ih => exact ih
  | awaited lookup stage _ ih => exact ih

end Factory

/-- How the journal goes on while a request comes to stand as it does. -/
def Request.Fits : Request → Journal → Prop
  | .settled result, j => (Progress.ready result).Fits j
  | _, j => Clean j

theorem Request.Fits.prepend {r : Request} {j k : Journal} (hk : r.Fits k) (hj : Clean j) :
    r.Fits (j ++ k) := by
  cases r with
  | settled result => exact Progress.Fits.prepend hk hj
  | new config => exact Clean.append hj hk
  | waiting n => exact Clean.append hj hk

namespace Factory

variable {o : Factory} {settings : Settings} {f f' : Floor}

theorem Serves.fits {r r' : Request} {moved : Bool} (h : Serves o settings r f r' moved f') :
    ∃ j, f'.registry.journal.toList = f.registry.journal.toList ++ j ∧ r'.Fits j := by
  induction h with
  | settled => exact ⟨[], by simp, Progress.fits_nil _⟩
  | answered entry =>
    obtain ⟨rfl, -⟩ := enter_answered entry
    exact ⟨[], by simp, Progress.fits_nil _⟩
  | entered entry _ ih =>
    obtain ⟨j, hj, hclean⟩ := enter_clean entry
    obtain ⟨k, hk, hfits⟩ := ih
    exact ⟨j ++ k, by rw [hk, hj, List.append_assoc], hfits.prepend hclean⟩
  | @received n result f f₁ poll =>
    obtain ⟨j, hj, hfits⟩ := poll.fits
    refine ⟨j ++ [.received none n result], ?_, ?_⟩
    · rw [Floor.receive, Registry.journal_record, hj, List.append_assoc]
    · cases result with
      | ok v => exact Clean.append hfits (clean_singleton fun _ _ h => nomatch h)
      | error e => exact Fails.append hfits (unwinds_received e none n)
  | pending poll => exact poll.fits

theorem Sweeps.single {r : Request} {rs : List Request} {moved : Bool}
    (h : Sweeps o settings [r] f rs moved f') :
    ∃ r', rs = [r'] ∧ Serves o settings r f r' moved f' := by
  cases h with
  | @cons _ r' _ _ moved _ _ _ _ head tail =>
    cases tail
    exact ⟨r', rfl, by rwa [Bool.or_false]⟩

/-- The journal of a join of one request fits its answer. -/
theorem Concludes.fits {r : Request} {result : Except BuildError Json}
    (h : Concludes o settings [r] f (.answers [result]) f') :
    ∃ j, f'.registry.journal.toList = f.registry.journal.toList ++ j ∧
      (Request.settled result).Fits j := by
  generalize hrs : [r] = rs at h
  generalize hjoined : Joined.answers [result] = joined at h
  induction h generalizing r with
  | answers round all =>
    subst hrs
    cases hjoined
    obtain ⟨r', rfl, hserve⟩ := round.single
    obtain ⟨rfl, -⟩ := List.cons.inj (Request.mapM_result?_eq_some.mp all)
    exact hserve.fits
  | deadlock => cases hjoined
  | again round some _ ih =>
    subst hrs
    obtain ⟨r', rfl, hserve⟩ := round.single
    obtain ⟨j, hj, hfits⟩ := hserve.fits
    obtain ⟨k, hk, hfits'⟩ := ih rfl hjoined
    refine ⟨j ++ k, by rw [hk, hj, List.append_assoc], hfits'.prepend ?_⟩
    -- the request was not settled in this round
    cases r' with
    | settled answer => simp [Request.result?] at some
    | new config => exact hfits
    | waiting n => exact hfits

end Factory

end Wiring

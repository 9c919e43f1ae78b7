import Mathlib.Data.Finset.Card
import Mathlib.Data.Finset.Range
import Wiring.Proofs.Cycles
import Wiring.Proofs.Evaluation

/-!
# Work that never waits ends

A construction that is started has its own key in progress, and hands it down. So from one nested
construction to the next there are fewer nodes left whose values are not in progress
(`Graph.remaining`), whatever cycles the graph has. In factories without preprocessors whose builds
are straight on the graph, every poll therefore ends with a result (`pollWithin_ends`), and so does
the join of a single config (`join_resolves`).
-/

namespace Wiring

open Registry

/-- How many nodes have values that are not in progress. -/
def Graph.remaining (g : Graph) (settings : Settings) : Nat :=
  ((Finset.range g.size).filter fun id =>
    (g.value? id).any fun key => !settings.isInProgress key).card

namespace Graph

variable {g : Graph} {settings : Settings} {config : NodeId} {key : String}

theorem remaining_le (g : Graph) (settings : Settings) : g.remaining settings ≤ g.size := by
  have h := Finset.card_filter_le (Finset.range g.size)
    fun id => (g.value? id).any fun key => !settings.isInProgress key
  rwa [Finset.card_range] at h

/-- A config that is to be constructed is one of the nodes that are left. -/
theorem mem_remaining (h : Factory.Constructs g settings config key) :
    config ∈ (Finset.range g.size).filter fun id =>
      (g.value? id).any fun key => !settings.isInProgress key := by
  rw [Finset.mem_filter, Finset.mem_range]
  refine ⟨lt_size_of_value h.value, ?_⟩
  rw [h.value, Option.any_some, h.notInProgress]
  rfl

theorem remaining_pos (h : Factory.Constructs g settings config key) :
    0 < g.remaining settings :=
  Finset.card_pos.mpr ⟨config, mem_remaining h⟩

/-- Each nested construction leaves fewer nodes. -/
theorem remaining_descend (h : Factory.Constructs g settings config key) :
    g.remaining (settings.descend key) < g.remaining settings := by
  refine Finset.card_lt_card (Finset.ssubset_iff_of_subset ?_ |>.mpr ⟨config, mem_remaining h, ?_⟩)
  · intro id hid
    rw [Finset.mem_filter] at hid ⊢
    refine ⟨hid.1, ?_⟩
    obtain ⟨other, hother, hleft⟩ := (Option.any_eq_true _ _).mp hid.2
    refine (Option.any_eq_true _ _).mpr ⟨other, hother, ?_⟩
    -- what is in progress stays in progress further in
    rw [Bool.not_eq_true', Bool.eq_false_iff] at hleft ⊢
    exact fun hin => hleft ((Settings.isInProgress_descend ..).mpr (.inr hin))
  · rw [Finset.mem_filter, h.value, Option.any_some,
      (Settings.isInProgress_descend ..).mpr (.inl rfl)]
    exact fun hcon => Bool.false_ne_true hcon.2

end Graph

/-- What a task carries on is straight. -/
def Task.Straight (G : Graph → Prop) (lost : Prop) : Task → Prop
  | .poll _ => True
  | .drive _ _ rest => rest.Straight G lost
  | .wait _ _ _ next _ => ∀ v, (next v).Straight G lost

namespace Factory

/-- A factory leaves a graph as it is, and its builds end there: it has no preprocessors, its builds
never suspend themselves, and they are straight on the graph. -/
structure Settles (o : Factory) (g : Graph) : Prop where
  preprocessors : o.preprocessors = []
  pauseless : o.strategy.Pauseless
  straight : ∀ raw, (o.strategy.build raw).Straight (· = g) False

variable {o : Factory} {g : Graph} {settings : Settings} {f f₁ f' : Floor}

/-- Entering a request leaves the graph as it is. -/
theorem enter_graph {config : NodeId} {n : Nat}
    (entry : o.enter config settings f = (.waiting n, f₁)) : f₁.graph = f.graph := by
  obtain ⟨key, -, ⟨-, rfl⟩ | ⟨-, hstart⟩⟩ := enter_waiting entry
  · rfl
  · cases hstart
    rfl

/-- The raw form of a config is found without any change of the graph. -/
theorem Settles.rawConfig (h : o.Settles g) {config : NodeId} {raw : Except BuildError NodeId}
    {graph : Graph} (hform : Wiring.rawConfig o.preprocessors g config = (raw, graph)) :
    graph = g := by
  rw [h.preprocessors] at hform
  cases raw with
  | ok raw => exact (rawConfig_nil_ok.mp hform).2.1
  | error e => exact (rawConfig_nil_error.mp hform).1

/-- Work leaves the graph as it is. -/
theorem Evaluates.graph (ho : o.Settles g) {t : Task} {result : Except BuildError Json}
    (h : Evaluates o t f result f') (ht : t.Straight (· = g) False) (hg : f.graph = g) :
    f'.graph = g := by
  induction h with
  | done v => exact hg
  | fail e => exact hg
  | read _ ih => exact ih (ht _ hg) hg
  | write _ ih => exact ih ht.2 ht.1
  | answered entry _ ih =>
    obtain ⟨rfl, -⟩ := enter_answered entry
    exact ih (ht _) hg
  | refused entry =>
    obtain ⟨rfl, -⟩ := enter_answered entry
    exact hg
  | request entry _ _ ih => exact ih ht (enter_graph entry ▸ hg)
  | received _ _ ihp ihr => exact ihr (ht _) (ihp trivial hg)
  | passedOn _ ihp => exact ihp trivial hg
  | finished lookup stage => exact hg
  | unprepared lookup stage form =>
    rw [hg] at form
    exact ho.rawConfig form
  | prepared lookup stage form _ ih =>
    rw [hg] at form
    exact ih (ho.straight _) (ho.rawConfig form)

/-- A request leaves the graph as it is. -/
theorem Resolves.graph (ho : o.Settles g) {config : NodeId} {result : Except BuildError Json}
    (h : Resolves o settings config f result f') (hg : f.graph = g) : f'.graph = g := by
  cases h with
  | direct entry =>
    obtain ⟨rfl, -⟩ := enter_answered entry
    exact hg
  | @built n _ f₁ f' entry _ poll =>
    have hg₁ : f'.graph = g := poll.graph ho trivial (enter_graph entry ▸ hg)
    exact hg₁

/-! ## Nested polls -/

/-- A poll through so many nested constructions is enough for a construction. -/
def Suffices (g : Graph) (limit : Nat) (c : Construction) : Prop :=
  0 < limit ∧ (c.stage = .fresh → g.remaining c.settings < limit)

/-- Polls with this function give results for constructions that need no more than a limit. -/
def Ending (g : Graph) (limit : Nat) (poll : Nat → Job Progress) : Prop :=
  ∀ {n f c}, f.registry.Orderly → f.graph = g → f.registry.construction? n = some c →
    f.registry.Clear n → Suffices g limit c →
    ∃ result f', (poll n).run f = some (.ready result, f')

/-- What a request waits for is within reach of nested polls. -/
theorem enter_suffices {limit : Nat} {config : NodeId} {n : Nat} (hord : f.registry.Orderly)
    (hg : f.graph = g) (hguard : f.registry.Guarded settings)
    (hlimit : g.remaining settings ≤ limit) (entry : o.enter config settings f = (.waiting n, f₁)) :
    ∃ c, f₁.registry.construction? n = some c ∧ Suffices g limit c := by
  obtain ⟨hended, -, -⟩ := enter_guarded hord hguard entry
  obtain ⟨key, hkey, ⟨hcur, rfl⟩ | ⟨-, hstart⟩⟩ := enter_waiting entry
  · obtain ⟨c, hc, -⟩ := (hord.current_iff key n).mp hcur
    refine ⟨c, hc, Nat.lt_of_lt_of_le (Graph.remaining_pos (hg ▸ hkey)) hlimit, fun hfresh => ?_⟩
    exact absurd ⟨c, hc, hfresh ▸ Stage.open_fresh⟩ hended
  · cases hstart
    have hless := Nat.lt_of_lt_of_le (Graph.remaining_descend (hg ▸ hkey)) hlimit
    exact ⟨_, construction?_start_self .., Nat.lt_of_le_of_lt (Nat.zero_le _) hless, fun _ => hless⟩

/-- A build that waits for a construction within reach goes on, and the floor is as it was before in
what matters to it. -/
theorem Ending.waits {limit : Nat} {poll : Nat → Job Progress} (ho : o.Settles g)
    (hpoll : Ending g limit poll) (hsound : Sound o poll) (hord : f.registry.Orderly)
    (hg : f.graph = g) {n other : Nat} {next : Json → Build Json} {moved : Bool} {c : Construction}
    (hc : f.registry.construction? other = some c) (hlimit : Suffices g limit c)
    (hp : f.registry.Polled n settings)
    (hguard : (Task.wait n settings other next moved).Guarded f.registry)
    (hdrive : ∀ {v f₁}, f₁.registry.Orderly → f₁.graph = g → f₁.registry.Polled n settings →
      f₁.registry.Guarded settings →
      ∃ result f', (drive o poll n settings (next v)).run f₁ = some (.ready result, f')) :
    ∃ result f', (waitFor o poll n settings other next moved).run f = some (.ready result, f') := by
  obtain ⟨result, f₁, hrun⟩ := hpoll hord hg hc hguard.2.1 hlimit
  have hruns := hsound _ _ _ _ hrun
  obtain ⟨_, hresult, heval, hopen⟩ :=
    hruns.evaluates ho.pauseless hord ⟨c, hc⟩ hguard.2.1
  cases hresult
  have hg₁ : f₁.graph = g := heval.graph ho trivial hg
  have hk := hruns.keeps_receive hord ⟨c, hc⟩ (some n)
  have hawait : (await poll (some n) other).run f =
      some (.ready result, f₁.receive (some n) other result) :=
    Job.bind_eq_some.mpr ⟨_, f₁, hrun, rfl⟩
  cases result with
  | error e => exact ⟨_, _, Job.bind_eq_some.mpr ⟨_, _, hawait, rfl⟩⟩
  | ok v =>
    have hguard₁ := hguard.after hk.leads hopen
    obtain ⟨result, f', h⟩ := hdrive (v := v) hk.orderly hg₁ (hp.keeps hk) hguard₁
    exact ⟨result, f', Job.bind_eq_some.mpr ⟨_, _, hawait, h⟩⟩

/-- Builds are carried on to their ends. -/
theorem drive_ends {limit : Nat} {poll : Nat → Job Progress} (ho : o.Settles g)
    (hpoll : Ending g limit poll) (hsound : Sound o poll) {n : Nat}
    (hlimit : g.remaining settings ≤ limit) {rest : Build Json} (hord : f.registry.Orderly)
    (hg : f.graph = g) (hp : f.registry.Polled n settings)
    (hguard : (Task.drive n settings rest).Guarded f.registry)
    (hstraight : rest.Straight (· = g) False) :
    ∃ result f', (drive o poll n settings rest).run f = some (.ready result, f') := by
  induction rest generalizing f with
  | done v => exact ⟨_, _, rfl⟩
  | fail e => exact ⟨_, _, rfl⟩
  | endless => exact hstraight.elim
  | suspend next => exact hstraight.elim
  | read next ih => exact ih _ hord hg hp ⟨hguard.1 _ trivial, hguard.2⟩ (hstraight _ hg)
  | write bench next ih => exact ih hord hstraight.1 hp ⟨hguard.1.2, hguard.2⟩ hstraight.2
  | request config next ih =>
    rcases hentry : o.enter config settings f with ⟨entry, f₁⟩
    rw [drive_request_run hentry]
    cases entry with
    | answered result =>
      obtain ⟨rfl, -⟩ := enter_answered hentry
      cases result with
      | error e => exact ⟨_, _, rfl⟩
      | ok v => exact ih v hord hg hp ⟨hguard.1 v, hguard.2⟩ (hstraight v)
    | waiting other =>
      obtain ⟨hk, -, -⟩ := keeps_of_enter hord hentry
      have hg₁ : f₁.graph = g := enter_graph hentry ▸ hg
      obtain ⟨c, hc, hsuffices⟩ := enter_suffices hord hg hguard.2 hlimit hentry
      exact hpoll.waits ho hsound hk.orderly hg₁ hc hsuffices (hp.keeps hk)
        (guarded_request hguard hord hentry) fun hord₁ hg₁ hp₁ hguard₁ =>
          ih _ hord₁ hg₁ hp₁ ⟨hguard.1 _, hguard₁⟩ (hstraight _)

/-- **Nested polls end with results.** -/
theorem pollWithin_ends (ho : o.Settles g) (limit : Nat) : Ending g limit (pollWithin o limit) := by
  induction limit with
  | zero => exact fun _ _ _ _ h => absurd h.1 (Nat.lt_irrefl 0)
  | succ limit ih =>
    intro n f c hord hg hc hclear hsuffices
    rw [pollWithin_run hc]
    rcases hclear.stage hc with ⟨result, hs⟩ | ⟨hs, -⟩
    · rw [hs]
      exact ⟨result, f, rfl⟩
    · rw [hs]
      rcases hform : Wiring.rawConfig o.preprocessors f.graph c.config with ⟨raw, graph⟩
      have hgraph := hform
      rw [hg] at hgraph
      obtain rfl := ho.rawConfig hgraph
      cases raw with
      | error e => exact ⟨_, _, rfl⟩
      | ok raw =>
        obtain ⟨hord', hp⟩ := hord.pollFresh hc hs raw
        exact drive_ends ho ih (runs_of_pollWithin limit) (Nat.le_of_lt_succ (hsuffices.2 hs))
          hord' rfl hp (guarded_begin ho.pauseless hc hs hclear _ raw).1 (ho.straight raw)

/-! ## Single requests -/

/-- **A request is resolved in one poll** where nothing is open. -/
theorem pollRequest_resolves (ho : o.Settles g) (settings : Settings) (config : NodeId)
    (hord : f.registry.Orderly) (hg : f.graph = g) (hended : ∀ m, ¬ f.registry.IsOpen m) :
    ∃ result f', (o.pollRequest settings (.new config)).run f = some ((.settled result, true), f') ∧
      Resolves o settings config f result f' := by
  rcases hentry : o.enter config settings f with ⟨entry, f₁⟩
  have hrun : (modifyGet (o.enter config settings) : Job Entry).run f = some (entry, f₁) :=
    congrArg some hentry
  cases entry with
  | answered result =>
    exact ⟨result, f₁, Job.bind_eq_some.mpr ⟨_, _, hrun, rfl⟩, .direct hentry⟩
  | waiting n =>
    have hguard := guarded_of_ended hended settings
    obtain ⟨hk, -, -⟩ := keeps_of_enter hord hentry
    obtain ⟨hended', hclear, -⟩ := enter_guarded hord hguard hentry
    have hg₁ : f₁.graph = g := enter_graph hentry ▸ hg
    obtain ⟨c, hc, hsuffices⟩ :=
      enter_suffices hord hg hguard (Nat.le_succ_of_le (g.remaining_le settings)) hentry
    obtain ⟨result, f', hpoll⟩ := pollWithin_ends ho (g.size + 1) hk.orderly hg₁ hc hclear hsuffices
    have hpoll : (o.poll n).run f₁ = some (.ready result, f') :=
      Job.bind_eq_some.mpr ⟨f₁, f₁, rfl, hg₁ ▸ hpoll⟩
    obtain ⟨_, hresult, heval, -⟩ :=
      (runs_of_poll _ _ _ _ hpoll).evaluates ho.pauseless hk.orderly ⟨c, hc⟩ hclear
    cases hresult
    refine ⟨result, f'.receive none n result, ?_, .built hentry hended' heval⟩
    have hawait : (await o.poll none n).run f₁ = some (.ready result, f'.receive none n result) :=
      Job.bind_eq_some.mpr ⟨_, f', hpoll, rfl⟩
    have hserve : (o.pollFor n).run f₁ = some ((.settled result, true), f'.receive none n result) :=
      Job.bind_eq_some.mpr ⟨_, _, hawait, rfl⟩
    exact Job.bind_eq_some.mpr ⟨_, _, hrun, hserve⟩

/-- **The join of a single config ends with an answer.** -/
theorem join_resolves (ho : o.Settles g) (settings : Settings) (config : NodeId)
    (hord : f.registry.Orderly) (hg : f.graph = g) (hended : ∀ m, ¬ f.registry.IsOpen m) :
    ∃ result f', (o.join settings [config]).run f = some (.answers [result], f') ∧
      Resolves o settings config f result f' := by
  obtain ⟨result, f', hserve, hresolves⟩ := pollRequest_resolves ho settings config hord hg hended
  refine ⟨result, f', ?_, hresolves⟩
  have hround : (o.round settings [.new config]).run f = some (([.settled result], true), f') :=
    Job.bind_eq_some.mpr ⟨_, _, hserve, rfl⟩
  have hlimit : roundLimit f.graph 1 ≠ 0 := by simp [roundLimit]
  obtain ⟨limit, hlimit⟩ := Nat.exists_eq_succ_of_ne_zero hlimit
  refine Job.bind_eq_some.mpr ⟨f, f, rfl, ?_⟩
  show (o.rounds settings (roundLimit f.graph 1) [.new config]).run f = _
  rw [hlimit]
  exact Job.bind_eq_some.mpr ⟨_, _, hround, rfl⟩

end Factory

end Wiring

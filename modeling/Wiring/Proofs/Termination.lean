import Mathlib.Data.List.Perm.Subperm
import Mathlib.Data.List.Nodup
import Wiring.Proofs.Funds

/-!
# Polls end

Polls of pools with numbered instances end: the limit of nested polls is never reached
(`poll_total`). The constructions on a chain of polls have different configs, and there are no more
configs than nodes (`length_le_of_running`). A build that is carried on ends or waits, since it
stops a limited number of times (`drive_total`).
-/

namespace Wiring

namespace Factory

open Registry

variable {o : Factory} {size degree : Nat} {C : NodeId → Prop} {credit : Nat → Nat}
  {settings : Settings} {f f₁ f' : Floor}

/-- Constructions that are being polled have different configs. -/
theorem length_le_of_running {limit : Nat} (hord : f.registry.Orderly)
    (hf : f.Funded size degree (· < limit) credit) {path : List Nat} (hnodup : path.Nodup)
    (hrun : ∀ m ∈ path, f.registry.Running m) : path.length ≤ limit := by
  let config (m : Nat) : NodeId := ((f.registry.construction? m).map (·.config)).getD 0
  have hconfig : ∀ {m c}, f.registry.construction? m = some c → config m = c.config := by
    intro m c hc
    simp [config, hc]
  have hcurrent : ∀ m ∈ path, ∃ c, f.registry.construction? m = some c ∧
      f.registry.current? c.key = some m := by
    intro m hm
    obtain ⟨c, hc, hs⟩ := hrun m hm
    refine ⟨c, hc, (hord.current_iff c.key m).mpr ⟨c, hc, rfl, ?_⟩⟩
    exact Construction.not_failed_of_open (hs ▸ Stage.open_running)
  have hmap : (path.map config).Nodup := by
    refine hnodup.map_on ?_
    intro a ha b hb hab
    obtain ⟨c, hc, hcur⟩ := hcurrent a ha
    obtain ⟨d, hd, hcur'⟩ := hcurrent b hb
    rw [hconfig hc, hconfig hd] at hab
    have hkey : c.key = d.key := by
      have hvalue := (hf.config a c hc).2
      rw [hab, (hf.config b d hd).2] at hvalue
      exact (Option.some.inj hvalue).symm
    rw [hkey, hcur'] at hcur
    exact (Option.some.inj hcur).symm
  -- they are open, so their keys and their configs are different
  have hsub : path.map config ⊆ List.range limit := by
    intro x hx
    obtain ⟨m, hm, rfl⟩ := List.mem_map.mp hx
    obtain ⟨c, hc, -⟩ := hcurrent m hm
    rw [hconfig hc, List.mem_range]
    exact (hf.config m c hc).1
  have := (hmap.subperm hsub).length_le
  rwa [List.length_map, List.length_range] at this

/-- Polls with this function end, as long as certain constructions are being polled. -/
def Total (size degree limit : Nat) (poll : Nat → Job Progress) (path : List Nat) : Prop :=
  ∀ n f credit, f.registry.Orderly → f.Funded size degree (· < limit) credit →
    (∃ c, f.registry.construction? n = some c) → (∀ m ∈ path, f.registry.Running m) →
    ∃ p f', (poll n).run f = some (p, f')

/-- A poll ends with a result or without one, in either case with a floor that is still funded. -/
theorem Total.await {limit : Nat} {poll : Nat → Job Progress} {path : List Nat} {suspends : Bool}
    (hs : o.strategy = .counting suspends) (hsize : size ≤ limit)
    (htotal : Total size degree limit poll path) (hsound : Sound o poll)
    (hord : f.registry.Orderly) (hf : f.Funded size degree (· < limit) credit)
    {n : Nat} (hn : ∃ c, f.registry.construction? n = some c)
    (hpath : ∀ m ∈ path, f.registry.Running m) (waiter : Option Nat) :
    ∃ p f' credit', (Factory.await poll waiter n).run f = some (p, f') ∧
      f.registry.Keeps f'.registry ∧ f'.Funded size degree (· < limit) credit' ∧
      ∀ m, f.registry.Running m → credit' m = credit m := by
  obtain ⟨p, f₁, hp⟩ := htotal n f credit hord hf hn hpath
  have hruns := hsound n f p f₁ hp
  obtain ⟨credit₁, h⟩ :=
    hruns.spend hs (fun d hd => Nat.lt_of_lt_of_le hd hsize) hord hn hf trivial
  cases p with
  | ready result =>
    refine ⟨.ready result, f₁.receive waiter n result, credit₁, ?_,
      hruns.keeps_receive hord hn waiter, h.funded.receive waiter n result,
      fun m hm => h.spares m hm trivial⟩
    exact Job.bind_eq_some.mpr ⟨_, f₁, hp, rfl⟩
  | pending moved =>
    obtain ⟨hk, -⟩ := hruns.upkeep hord hn
    refine ⟨.pending moved, f₁, credit₁, ?_, hk, h.funded, fun m hm => h.spares m hm trivial⟩
    exact Job.bind_eq_some.mpr ⟨_, f₁, hp, rfl⟩

/-- A construction that is polled joins those that are polled already. -/
theorem running_cons {n : Nat} {c : Construction} {path : List Nat}
    (hc : f.registry.construction? n = some c) (hrun : c.stage ≠ .running)
    (hpath : ∀ m ∈ path, f.registry.Running m) :
    n ∉ path ∧ ∀ m ∈ n :: path, (f.registry.setStage n .running).Running m := by
  refine ⟨fun hn => (hpath n hn).ne hc hrun rfl, ?_⟩
  intro m hm
  rcases List.mem_cons.mp hm with rfl | hm
  · exact ⟨_, construction?_setStage_self hc .running, rfl⟩
  · exact (hpath m hm).setStage hc

variable {limit : Nat} {poll : Nat → Job Progress} {path : List Nat} {suspends : Bool} {n : Nat}

/-- A construction that waits ends or goes on, if builds that go on with less credit are carried on
to an end. -/
theorem waitFor_total (hs : o.strategy = .counting suspends) (hsize : size ≤ limit)
    (htotal : Total size degree limit poll path) (hsound : Sound o poll)
    (hord : f.registry.Orderly) (hf : f.Funded size degree (· < limit) credit)
    (hp : f.registry.Polled n settings) (hpath : ∀ m ∈ path, f.registry.Running m) {other : Nat}
    (hother : ∃ d, f.registry.construction? other = some d) {next : Json → Build Json} {j : Nat}
    (hj : j < credit n)
    (hnext : ∀ v, ∀ w : Workbench, w.store.graph.Bounded size degree →
      (next v).Stops size degree j w)
    (hdrive : ∀ {v f₁ credit₁}, f₁.registry.Orderly → f₁.Funded size degree (· < limit) credit₁ →
      f₁.registry.Polled n settings → (∀ m ∈ path, f₁.registry.Running m) →
      (next v).Stops size degree (credit₁ n) f₁.bench →
      ∃ p f', (drive o poll n settings (next v)).run f₁ = some (p, f')) (moved : Bool) :
    ∃ p f', (waitFor o poll n settings other next moved).run f = some (p, f') := by
  obtain ⟨p, f₁, credit₁, hawait, hk, hf₁, hspare⟩ :=
    htotal.await hs hsize hsound hord hf hother hpath (some n)
  match p, hawait with
  | .ready (.ok v), hawait =>
    have hj₁ : j ≤ credit₁ n := Nat.le_of_lt (by rwa [hspare n hp.running])
    have hstops : (next v).Stops size degree (Function.update credit₁ n j n) f₁.bench := by
      rw [Function.update_self]
      exact hnext v _ hf₁.graph
    obtain ⟨p, f', h⟩ := hdrive hk.orderly (hf₁.spend (hp.keeps hk) hj₁) (hp.keeps hk)
      (fun m hm => (hk.running m).mpr (hpath m hm)) hstops
    exact ⟨p, f', Job.bind_eq_some.mpr ⟨_, _, hawait, h⟩⟩
  | .ready (.error e), hawait => exact ⟨_, _, Job.bind_eq_some.mpr ⟨_, _, hawait, rfl⟩⟩
  | .pending further, hawait => exact ⟨_, _, Job.bind_eq_some.mpr ⟨_, _, hawait, rfl⟩⟩

/-- Builds that stop a limited number of times are carried on to an end. -/
theorem drive_total (hs : o.strategy = .counting suspends) (hsize : size ≤ limit)
    (htotal : Total size degree limit poll path) (hsound : Sound o poll)
    {rest : Build Json} (hord : f.registry.Orderly)
    (hf : f.Funded size degree (· < limit) credit) (hp : f.registry.Polled n settings)
    (hpath : ∀ m ∈ path, f.registry.Running m)
    (hstops : rest.Stops size degree (credit n) f.bench) :
    ∃ p f', (drive o poll n settings rest).run f = some (p, f') := by
  induction rest generalizing f credit with
  | done v => exact ⟨_, _, rfl⟩
  | fail e => exact ⟨_, _, rfl⟩
  | endless => exact hstops.elim
  | suspend next => exact ⟨_, _, rfl⟩
  | read next ih => exact ih _ hord hf hp hpath hstops
  | write bench next ih =>
    obtain ⟨hgraph, hrest⟩ := hstops
    have hb : bench.store.graph.Bounded size degree := hgraph ▸ hf.graph
    have hg : f.graph.Extends bench.store.graph := hgraph ▸ Graph.Extends.refl _
    exact ih hord (hf.bench hb hg) hp hpath hrest
  | request d next ih =>
    obtain ⟨hd, j, hj, hnext⟩ := hstops
    rcases hentry : o.enter d settings f with ⟨entry, f₁⟩
    rw [drive_request_run hentry]
    cases entry with
    | answered result =>
      obtain ⟨rfl, -⟩ := enter_answered hentry
      cases result with
      | error e => exact ⟨_, _, rfl⟩
      | ok v =>
        refine ih v hord (hf.spend hp (Nat.le_of_lt hj)) hp hpath ?_
        rw [Function.update_self]
        exact hnext v _ hf.graph
    | waiting other =>
      obtain ⟨hk, -, hother⟩ := keeps_of_enter hord hentry
      obtain ⟨credit₁, hf₁, -, hsame⟩ := enter_funded hf (Nat.lt_of_lt_of_le hd hsize) hentry
      obtain ⟨c, hc, -⟩ := id hp
      rw [← hsame n c hc] at hj
      exact waitFor_total hs hsize htotal hsound hk.orderly hf₁ (hp.keeps hk)
        (fun m hm => (hk.running m).mpr (hpath m hm)) hother hj hnext (ih _) true

/-- The limit of nested polls is never reached. -/
theorem pollWithin_total (hs : o.strategy = .counting suspends) (hsize : size ≤ limit)
    {depth : Nat} (hnodup : path.Nodup) (hdepth : limit + 1 ≤ path.length + depth) :
    Total size degree limit (pollWithin o depth) path := by
  induction depth generalizing path with
  | zero =>
    intro n f credit hord hf hn hpath
    -- there is no chain of polls as long as that
    have := length_le_of_running hord hf hnodup hpath
    omega
  | succ depth ih =>
    rintro n f credit hord hf ⟨c, hc⟩ hpath
    have hsound : Sound o (pollWithin o depth) := runs_of_pollWithin depth
    rw [pollWithin_run hc]
    -- nested polls are nested in the poll of this construction too
    have hnested : c.stage ≠ .running → Total size degree limit (pollWithin o depth) (n :: path) ∧
        ∀ m ∈ n :: path, (f.registry.setStage n .running).Running m := by
      intro hrun
      obtain ⟨hn, hpath'⟩ := running_cons hc hrun hpath
      exact ⟨ih (List.nodup_cons.mpr ⟨hn, hnodup⟩) (by rw [List.length_cons]; omega), hpath'⟩
    cases hstage : c.stage with
    | finished result => exact ⟨_, _, rfl⟩
    | running => exact ⟨_, _, rfl⟩
    | fresh =>
      obtain ⟨htotal, hpath'⟩ := hnested (hstage ▸ fun h => nomatch h)
      rcases hform : rawConfig o.preprocessors f.graph c.config with ⟨result, graph⟩
      cases result with
      | error e => exact ⟨_, _, rfl⟩
      | ok raw =>
        obtain ⟨hord', hp⟩ := hord.pollFresh hc hstage raw
        obtain ⟨-, hf₁⟩ := hf.begin hc hstage hform
        refine drive_total hs hsize htotal hsound hord' hf₁ hp
          (fun m hm => (running_setRaw n m raw).mpr (hpath' m hm)) ?_
        rw [Function.update_self, hs]
        exact Counting.stops_build suspends raw hf₁.graph
    | suspended rest =>
      obtain ⟨htotal, hpath'⟩ := hnested (hstage ▸ fun h => nomatch h)
      obtain ⟨j, hj, hrest⟩ : (Stage.suspended rest).Funded size degree (credit n) :=
        hstage ▸ hf.stage n c hc
      obtain ⟨hord', hp⟩ := hord.poll hc (hstage ▸ Stage.open_suspended rest)
      have hf₁ := hf.setStage hc (Nat.le_of_lt hj) .running trivial
      refine drive_total hs hsize htotal hsound hord' hf₁ hp hpath' ?_
      rw [Function.update_self]
      exact hrest _ hf.graph
    | awaiting other next =>
      obtain ⟨htotal, hpath'⟩ := hnested (hstage ▸ fun h => nomatch h)
      obtain ⟨j, hj, hnext⟩ : (Stage.awaiting other next).Funded size degree (credit n) :=
        hstage ▸ hf.stage n c hc
      obtain ⟨hord', hp, hother⟩ := hord.pollAwaiting hc hstage
      have hf₁ := hf.setStage hc (Nat.le_refl _) .running trivial
      rw [Function.update_eq_self] at hf₁
      exact waitFor_total hs hsize htotal hsound hord' hf₁ hp hpath' hother hj hnext
        (drive_total hs hsize htotal hsound) false

/-- **Every poll ends.** -/
theorem poll_total (hs : o.strategy = .counting suspends) (hord : f.registry.Orderly)
    (hf : f.Funded size degree C credit) (hsize : size ≤ f.graph.size)
    (hn : ∃ c, f.registry.construction? n = some c) : ∃ p f', (o.poll n).run f = some (p, f') := by
  have hf' : f.Funded size degree (· < f.graph.size) credit :=
    ⟨hf.graph, hf.limit, hf.unused, fun m c hc =>
      ⟨Graph.lt_size_of_value (hf.config m c hc).2, (hf.config m c hc).2⟩, hf.stage⟩
  obtain ⟨p, f', h⟩ := pollWithin_total hs hsize List.nodup_nil (Nat.le_of_eq (Nat.zero_add _).symm)
    n f credit hord hf' hn fun m hm => nomatch hm
  exact ⟨p, f', Job.bind_eq_some.mpr ⟨f, f, rfl, h⟩⟩

end Factory

end Wiring

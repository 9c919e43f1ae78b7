import Wiring.Proofs.Registry
import Wiring.Proofs.Runs

/-!
# Work keeps the registry in order

Whatever a factory builds, its work keeps the invariant of its registry, changes constructions only
from earlier to later forms, and leaves those that are polled further out alone (`Runs.upkeep`). A
construction that has been polled is finished with the result that the poll reports, or is in
flight if the poll reports none.
-/

namespace Wiring

namespace Registry

/-- Work during which no construction begins or ceases to be polled. -/
structure Keeps (r r' : Registry) : Prop where
  orderly : r'.Orderly
  leads : r.Leads r'
  running : ∀ m, r'.Running m ↔ r.Running m

/-- Work at the end of which a construction is no longer polled. -/
structure Releases (n : Nat) (r r' : Registry) : Prop where
  orderly : r'.Orderly
  leads : r.Leads r'
  running : ∀ m, r'.Running m ↔ r.Running m ∧ n ≠ m

variable {r r₁ r' : Registry}

namespace Keeps

theorem refl (h : r.Orderly) : r.Keeps r := ⟨h, .refl r, fun _ => Iff.rfl⟩

theorem trans (h₁ : r.Keeps r₁) (h₂ : r₁.Keeps r') : r.Keeps r' :=
  ⟨h₂.orderly, h₁.leads.trans h₂.leads, fun m => (h₂.running m).trans (h₁.running m)⟩

theorem releases {n : Nat} (h₁ : r.Keeps r₁) (h₂ : r₁.Releases n r') : r.Releases n r' :=
  ⟨h₂.orderly, h₁.leads.trans h₂.leads, fun m => by rw [h₂.running, h₁.running]⟩

theorem receive (h : r.Orderly) {n : Nat} {c : Construction} {result : Except BuildError Json}
    (hc : r.construction? n = some c) (hs : c.stage = .finished result) (waiter : Option Nat) :
    r.Keeps (r.record (.received waiter n result)) :=
  ⟨h.receive hc hs waiter, leads_record .., fun _ => Iff.rfl⟩

theorem setRaw (h : r.Orderly) (n : Nat) (raw : NodeId) : r.Keeps (r.setRaw n raw) :=
  ⟨h.setRaw n raw, leads_setRaw .., fun m => running_setRaw n m raw⟩

theorem start (h : r.Orderly) {key : String} (hfree : r.current? key = none) (config : NodeId)
    (settings : Settings) : r.Keeps (r.start config key settings).2 :=
  ⟨h.start hfree config settings, leads_start .., running_start config key settings⟩

end Keeps

/-- A construction that is polled, with the settings of its build. -/
def Polled (r : Registry) (n : Nat) (settings : Settings) : Prop :=
  ∃ c, r.construction? n = some c ∧ c.stage = .running ∧ c.settings = settings

theorem Polled.keeps {n : Nat} {settings : Settings} (hp : r.Polled n settings)
    (h : r.Keeps r') : r'.Polled n settings := by
  obtain ⟨c, hc, hs, hset⟩ := hp
  obtain ⟨d, hd, hstage⟩ := (h.running n).mpr ⟨c, hc, hs⟩
  obtain ⟨d', hd', hcd⟩ := h.leads.becomes hc
  obtain rfl : d = d' := Option.some.inj (hd.symm.trans hd')
  exact ⟨d, hd, hstage, hcd.settings.trans hset⟩

theorem Polled.running {n : Nat} {settings : Settings} (hp : r.Polled n settings) :
    r.Running n := by
  obtain ⟨c, hc, hs, -⟩ := hp
  exact ⟨c, hc, hs⟩

theorem Polled.open {n : Nat} {settings : Settings} {c : Construction} (hp : r.Polled n settings)
    (hc : r.construction? n = some c) : c.stage.Open := by
  obtain ⟨d, hd, hs, -⟩ := hp
  obtain rfl : c = d := Option.some.inj (hc.symm.trans hd)
  exact hs ▸ Stage.open_running

theorem Polled.settings {n : Nat} {settings : Settings} {c : Construction}
    (hp : r.Polled n settings) (hc : r.construction? n = some c) : c.settings = settings := by
  obtain ⟨d, hd, -, hset⟩ := hp
  obtain rfl : c = d := Option.some.inj (hc.symm.trans hd)
  exact hset

theorem Polled.finish {n : Nat} {settings : Settings} (hp : r.Polled n settings)
    (result : Except BuildError Json) :
    ∃ c, (r.finish n result).construction? n = some c ∧ c.stage = .finished result := by
  obtain ⟨c, hc, -⟩ := hp
  exact ⟨_, construction?_finish_self hc result, rfl⟩

theorem Polled.setStage {n : Nat} {settings : Settings} {stage : Stage}
    (hp : r.Polled n settings) (hopen : stage.Open) :
    ∃ c, (r.setStage n stage).construction? n = some c ∧ c.stage.Open := by
  obtain ⟨c, hc, -⟩ := hp
  exact ⟨_, construction?_setStage_self hc stage, hopen⟩

namespace Releases

theorem finish (h : r.Orderly) {n : Nat} {settings : Settings} (hp : r.Polled n settings)
    (result : Except BuildError Json) : r.Releases n (r.finish n result) := by
  obtain ⟨c, hc, hs, -⟩ := hp
  have hopen : c.stage.Open := hs ▸ Stage.open_running
  refine ⟨h.finish hc hopen result, leads_finish hc hopen result, ?_⟩
  intro m
  rw [running_finish]
  exact And.comm

theorem setStage (h : r.Orderly) {n : Nat} {settings : Settings} (hp : r.Polled n settings)
    {stage : Stage} (hopen : stage.Open) (hrun : stage ≠ .running)
    (hawaits : ∀ other next, stage = .awaiting other next → ∃ d, r.construction? other = some d) :
    r.Releases n (r.setStage n stage) := by
  obtain ⟨c, hc, hs, -⟩ := hp
  have hopen' : c.stage.Open := hs ▸ Stage.open_running
  refine ⟨h.setStage hc hopen' hopen hawaits, leads_setStage hc hopen' stage, ?_⟩
  intro m
  rw [running_setStage hc]
  by_cases hm : n = m
  · simp [hm, hrun]
  · simp [hm]

/-- A construction that was not polled before is polled for the time of some work. -/
theorem keeps {n : Nat} {c : Construction} (h : (r.setStage n .running).Releases n r')
    (hc : r.construction? n = some c) (hopen : c.stage.Open) (hrun : c.stage ≠ .running) :
    r.Keeps r' := by
  refine ⟨h.orderly, (leads_setStage hc hopen .running).trans h.leads, ?_⟩
  intro m
  rw [h.running, running_setStage hc]
  by_cases hm : n = m
  · subst hm
    simp [Running, hc, hrun]
  · simp [hm]

end Releases

/-- A construction in flight may be polled. -/
theorem Orderly.poll (h : r.Orderly) {n : Nat} {c : Construction} (hc : r.construction? n = some c)
    (hopen : c.stage.Open) :
    (r.setStage n .running).Orderly ∧ (r.setStage n .running).Polled n c.settings := by
  refine ⟨h.setStage hc hopen Stage.open_running fun _ _ hs => (nomatch hs), ?_⟩
  exact ⟨_, construction?_setStage_self hc .running, rfl, rfl⟩

/-- A construction may be polled for the first time, and its raw config be noted. -/
theorem Orderly.pollFresh (h : r.Orderly) {n : Nat} {c : Construction}
    (hc : r.construction? n = some c) (hs : c.stage = .fresh) (raw : NodeId) :
    ((r.setStage n .running).setRaw n raw).Orderly ∧
      ((r.setStage n .running).setRaw n raw).Polled n c.settings := by
  obtain ⟨hord, hp⟩ := h.poll hc (hs ▸ Stage.open_fresh)
  have hk := Keeps.setRaw hord n raw
  exact ⟨hk.orderly, hp.keeps hk⟩

/-- What a construction waits for is still there when it is polled again. -/
theorem Orderly.pollAwaiting (h : r.Orderly) {n other : Nat} {c : Construction}
    {next : Json → Build Json} (hc : r.construction? n = some c)
    (hs : c.stage = .awaiting other next) :
    (r.setStage n .running).Orderly ∧ (r.setStage n .running).Polled n c.settings ∧
      ∃ d, (r.setStage n .running).construction? other = some d := by
  have hopen : c.stage.Open := hs ▸ Stage.open_awaiting other next
  obtain ⟨hord, hp⟩ := h.poll hc hopen
  obtain ⟨d, hd⟩ := h.awaited hc hs
  obtain ⟨d', hd', -⟩ := (leads_setStage hc hopen .running).becomes hd
  exact ⟨hord, hp, d', hd'⟩

end Registry

/-- What a poll reports fits what becomes of a construction. -/
def Progress.Shows : Progress → Stage → Prop
  | .ready result, stage => stage = .finished result
  | .pending _, stage => stage.Open

/-- What a task takes for granted: the construction that it works on is there, and is polled unless
the task is to poll it. -/
def Task.Attends : Task → Registry → Prop
  | .poll n, r => ∃ c, r.construction? n = some c
  | .drive n settings _, r => r.Polled n settings
  | .wait n settings other _ _, r =>
    r.Polled n settings ∧ ∃ d, r.construction? other = some d

/-- What a task does to the registry on the whole. -/
def Task.Upkeep : Task → Registry → Registry → Prop
  | .poll _, r, r' => r.Keeps r'
  | .drive n _ _, r, r' => r.Releases n r'
  | .wait n _ _ _ _, r, r' => r.Releases n r'

namespace Factory

open Registry

variable {o : Factory} {f f₁ f' : Floor} {n : Nat}

/-- Entering a request starts a construction or changes nothing. -/
theorem keeps_of_enter {config : NodeId} {settings : Settings} (h : f.registry.Orderly)
    (he : o.enter config settings f = (.waiting n, f₁)) :
    f.registry.Keeps f₁.registry ∧ f₁.bench = f.bench ∧
      ∃ c, f₁.registry.construction? n = some c := by
  obtain ⟨key, -, ⟨hcur, rfl⟩ | ⟨hfree, hstart⟩⟩ := enter_waiting he
  · obtain ⟨c, hc, -⟩ := (h.current_iff key n).mp hcur
    exact ⟨.refl h, rfl, c, hc⟩
  · cases hstart
    refine ⟨.start h hfree _ _, rfl, ⟨⟨config, key, settings.descend key⟩, none, .fresh⟩, ?_⟩
    exact construction?_start_self ..

/-- **Work keeps the registry in order**, and reports what becomes of its construction. -/
theorem Runs.upkeep {t : Task} {p : Progress} (h : Runs o t f p f') (hord : f.registry.Orderly)
    (hatt : t.Attends f.registry) :
    t.Upkeep f.registry f'.registry ∧
      ∃ c, f'.registry.construction? t.subject = some c ∧ p.Shows c.stage := by
  -- by induction on the work: a construction that a rule begins to poll is released by its end
  induction h with
  | done v => exact ⟨Releases.finish hord hatt (.ok v), hatt.finish _⟩
  | fail e => exact ⟨Releases.finish hord hatt (.error e), hatt.finish _⟩
  | suspend next =>
    refine ⟨Releases.setStage hord hatt (Stage.open_suspended next) (fun h => nomatch h)
      fun _ _ h => (nomatch h), hatt.setStage (Stage.open_suspended next)⟩
  | read _ ih => exact ih hord hatt
  | write _ ih => exact ih hord hatt
  | answered entry _ ih =>
    obtain ⟨rfl, -⟩ := enter_answered entry
    exact ih hord hatt
  | refused entry =>
    obtain ⟨rfl, -⟩ := enter_answered entry
    exact ⟨Releases.finish hord hatt (.error _), hatt.finish _⟩
  | request entry _ ih =>
    obtain ⟨hk, -, hd⟩ := keeps_of_enter hord entry
    obtain ⟨hr, hshow⟩ := ih hk.orderly ⟨hatt.keeps hk, hd⟩
    exact ⟨hk.releases hr, hshow⟩
  | @received n settings other next moved v f f₁ p f' _ _ ihp ihr =>
    obtain ⟨hk, c, hc, hs⟩ := ihp hord hatt.2
    have hk' := Keeps.receive hk.orderly hc hs (some n)
    obtain ⟨hr, hshow⟩ := ihr hk'.orderly (hatt.1.keeps (Keeps.trans hk hk'))
    exact ⟨(Keeps.trans hk hk').releases hr, hshow⟩
  | @passedOn n settings other next moved e f f₁ _ ihp =>
    obtain ⟨hk, c, hc, hs⟩ := ihp hord hatt.2
    have hk' := Keeps.trans hk (.receive hk.orderly hc hs (some n))
    have hp := hatt.1.keeps hk'
    exact ⟨hk'.releases (.finish hk'.orderly hp _), hp.finish _⟩
  | blocked _ ihp =>
    -- what is waited for is still there after its poll
    obtain ⟨hk, c, hc, hs⟩ := ihp hord hatt.2
    have hp := hatt.1.keeps hk
    refine ⟨hk.releases (.setStage hk.orderly hp (Stage.open_awaiting _ _)
      (fun h => nomatch h) ?_),
      hp.setStage (Stage.open_awaiting _ _)⟩
    rintro other next ⟨⟩
    exact ⟨c, hc⟩
  | missing lookup =>
    obtain ⟨c, hc⟩ := hatt
    rw [lookup] at hc
    cases hc
  | finished lookup stage => exact ⟨Keeps.refl hord, _, lookup, stage⟩
  | running lookup stage => exact ⟨Keeps.refl hord, _, lookup, stage ▸ Stage.open_running⟩
  | @unprepared n c e graph f lookup stage form =>
    have hopen : c.stage.Open := stage ▸ Stage.open_fresh
    obtain ⟨hord', hp⟩ := hord.poll lookup hopen
    refine ⟨(Releases.finish hord' hp (.error e)).keeps lookup hopen ?_, hp.finish _⟩
    rw [stage]
    exact fun h => nomatch h
  | @prepared n c raw graph f p f' lookup stage form _ ih =>
    have hopen : c.stage.Open := stage ▸ Stage.open_fresh
    obtain ⟨hord', -⟩ := hord.poll lookup hopen
    have hk : (f.registry.setStage n .running).Keeps _ := .setRaw hord' n raw
    obtain ⟨hord₁, hp⟩ := hord.pollFresh lookup stage raw
    obtain ⟨hr, hshow⟩ := ih hord₁ hp
    refine ⟨(hk.releases hr).keeps lookup hopen ?_, hshow⟩
    rw [stage]
    exact fun h => nomatch h
  | @resumed n c next f p f' lookup stage _ ih =>
    have hopen : c.stage.Open := stage ▸ Stage.open_suspended next
    obtain ⟨hord', hp⟩ := hord.poll lookup hopen
    obtain ⟨hr, hshow⟩ := ih hord' hp
    refine ⟨Releases.keeps hr lookup hopen ?_, hshow⟩
    rw [stage]
    exact fun h => nomatch h
  | @awaited n c other next f p f' lookup stage _ ih =>
    have hopen : c.stage.Open := stage ▸ Stage.open_awaiting other next
    obtain ⟨hord', hatt'⟩ := hord.pollAwaiting lookup stage
    obtain ⟨hr, hshow⟩ := ih hord' hatt'
    refine ⟨Releases.keeps hr lookup hopen ?_, hshow⟩
    rw [stage]
    exact fun h => nomatch h

/-- After a poll with a result the result may be handed over. -/
theorem Runs.keeps_receive {other : Nat} {result : Except BuildError Json}
    (poll : Runs o (.poll other) f (.ready result) f₁) (hord : f.registry.Orderly)
    (hother : ∃ d, f.registry.construction? other = some d) (waiter : Option Nat) :
    f.registry.Keeps (f₁.receive waiter other result).registry := by
  obtain ⟨hk, c, hc, hs⟩ := poll.upkeep hord hother
  exact Keeps.trans hk (.receive hk.orderly hc hs waiter)

/-- A construction whose poll reports no result is open. -/
theorem Runs.open_of_pending {t : Task} {moved : Bool} (h : Runs o t f (.pending moved) f')
    (hord : f.registry.Orderly) (hatt : t.Attends f.registry) :
    ∃ c, f'.registry.construction? t.subject = some c ∧ c.stage.Open :=
  (h.upkeep hord hatt).2

end Factory

end Wiring

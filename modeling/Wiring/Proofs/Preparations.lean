import Mathlib.Data.List.Nodup
import Wiring.Proofs.Checks
import Wiring.Proofs.RawConfigs

/-!
# Preparations

What work does to a floor is a trace of small steps (`Factory.Step`, `Factory.Traces`). Some of them are
preparations, in which the raw form of a construction's config is found. No other step changes the graph,
and a construction that has been prepared is never fresh again. So a trace tells the history of the graph
(`Prepares`), and each construction that has begun meanwhile occurs in it once (`Registry.Begins`). What is
left of builds is sound all the time: it comes to what the strategy makes of the raw config
(`Registry.Sound`).
-/

namespace Wiring

open Relation

/-- The raw form of a construction's config has been found, or it has turned out that there is none. -/
structure Preparation where
  number : Nat
  config : NodeId
  raw : Except BuildError NodeId

/-- Preparations make a graph of another one, one after the other. -/
inductive Prepares (ps : List Preprocessor) : Graph → List Preparation → Graph → Prop
  | nil {g} : Prepares ps g [] g
  | cons {g g₁ g' p log} (form : rawConfig ps g p.config = (p.raw, g₁))
      (rest : Prepares ps g₁ log g') : Prepares ps g (p :: log) g'

namespace Prepares

variable {ps : List Preprocessor} {g g₁ g' : Graph} {log log' : List Preparation}

theorem append (h : Prepares ps g log g₁) (h' : Prepares ps g₁ log' g') :
    Prepares ps g (log ++ log') g' := by
  induction h with
  | nil => exact h'
  | cons form _ ih => exact .cons form (ih h')

theorem grows (h : Prepares ps g log g') : g.Grows g' := by
  induction h with
  | nil => exact .refl _
  | @cons g g₁ g' p log form _ ih =>
    have hgrow := Graph.grows_rawConfig ps g p.config
    rw [form] at hgrow
    exact hgrow.trans ih

theorem precedes (h : Prepares ps g log g') : g.Precedes g' := by
  have hlater : ∀ {g₀ : Graph}, g₀.Precedes g → g₀.Precedes g' := by
    induction h with
    | nil => exact id
    | @cons g g₁ g' p log form _ ih =>
      intro g₀ hg
      have hg₁ := hg.rawConfig ps p.config
      rw [form] at hg₁
      exact ih hg₁
  exact hlater (.refl g)

end Prepares

/-! ## What the registry knows of preparations -/

namespace Registry

/-- A construction is no longer fresh. -/
def HasBegun (r : Registry) (n : Nat) : Prop := ∃ c, r.construction? n = some c ∧ c.stage ≠ .fresh

/-- A construction has been prepared: it has begun, and it knows its raw form if there is one. -/
def Prepared (r : Registry) (p : Preparation) : Prop :=
  ∃ c, r.construction? p.number = some c ∧ c.stage ≠ .fresh ∧ c.config = p.config ∧
    ∀ raw, p.raw = .ok raw → c.raw = some raw

/-- The constructions that have begun between two states of a registry are those of a log, each once. -/
structure Begins (r : Registry) (log : List Preparation) (r' : Registry) : Prop where
  begun : ∀ n, r'.HasBegun n ↔ r.HasBegun n ∨ n ∈ log.map (·.number)
  fresh : ∀ p ∈ log, ¬ r.HasBegun p.number
  once : (log.map (·.number)).Nodup
  stays : ∀ p, r.Prepared p → r'.Prepared p
  prepared : ∀ p ∈ log, r'.Prepared p

variable {r r₁ r' : Registry} {log log' : List Preparation}

theorem Prepared.begun {p : Preparation} (h : r.Prepared p) : r.HasBegun p.number := by
  obtain ⟨c, hc, hs, -⟩ := h
  exact ⟨c, hc, hs⟩

namespace Begins

theorem refl (r : Registry) : r.Begins [] r where
  begun n := by simp
  fresh := by simp
  once := .nil
  stays _ := id
  prepared := by simp

/-- What begins later has not begun before. -/
theorem trans (h : r.Begins log r₁) (h' : r₁.Begins log' r') : r.Begins (log ++ log') r' where
  begun n := by rw [h'.begun, h.begun, List.map_append, List.mem_append, or_assoc]
  fresh p hp := by
    rcases List.mem_append.mp hp with hp | hp
    · exact h.fresh p hp
    · exact fun hbegun => h'.fresh p hp ((h.begun _).mpr (.inl hbegun))
  once := by
    rw [List.map_append]
    refine h.once.append h'.once fun n hn hn' => ?_
    obtain ⟨p, hp, rfl⟩ := List.mem_map.mp hn'
    exact h'.fresh p hp ((h.begun _).mpr (.inr hn))
  stays p hp := h'.stays p (h.stays p hp)
  prepared p hp := by
    rcases List.mem_append.mp hp with hp | hp
    · exact h'.stays p (h.prepared p hp)
    · exact h'.prepared p hp

/-- Only the constructions count. -/
theorem congr (h : r.Begins log r₁) (hr : ∀ n, r'.construction? n = r₁.construction? n) :
    r.Begins log r' := by
  have hbegun : ∀ n, r'.HasBegun n ↔ r₁.HasBegun n := fun n => by rw [HasBegun, HasBegun, hr]
  have hprepared : ∀ p, r'.Prepared p ↔ r₁.Prepared p := fun p => by rw [Prepared, Prepared, hr]
  exact ⟨fun n => (hbegun n).trans (h.begun n), h.fresh, h.once,
    fun p hp => (hprepared p).mpr (h.stays p hp), fun p hp => (hprepared p).mpr (h.prepared p hp)⟩

/-- A construction that has begun moves on. -/
theorem move {n : Nat} (hn : r.HasBegun n) {stage : Stage} (hstage : stage ≠ .fresh) :
    r.Begins [] (r.setStage n stage) where
  begun m := by
    obtain ⟨c, hc, hs⟩ := hn
    constructor
    · rintro ⟨d, hd, hfresh⟩
      rcases setStage_cases hc hd with ⟨rfl, rfl⟩ | ⟨-, hd⟩
      · exact .inl ⟨c, hc, hs⟩
      · exact .inl ⟨d, hd, hfresh⟩
    · rintro (⟨d, hd, hfresh⟩ | hm)
      · by_cases hm : n = m
        · subst hm
          exact ⟨_, construction?_setStage_self hc stage, hstage⟩
        · refine ⟨d, ?_, hfresh⟩
          rw [construction?_setStage, if_neg hm, hd]
      · cases hm
  fresh := by simp
  once := .nil
  stays p := by
    rintro ⟨d, hd, hfresh, hconfig, hraw⟩
    by_cases hm : n = p.number
    · subst hm
      exact ⟨_, construction?_setStage_self hd stage, hstage, hconfig, hraw⟩
    · refine ⟨d, ?_, hfresh, hconfig, hraw⟩
      rw [construction?_setStage, if_neg hm, hd]
  prepared := by simp

/-- A construction is started, and is fresh. -/
theorem start (config : NodeId) (key : String) (settings : Settings) :
    r.Begins [] (r.start config key settings).2 where
  begun m := by
    constructor
    · rintro ⟨d, hd, hfresh⟩
      rcases start_cases hd with ⟨-, rfl⟩ | ⟨-, hd⟩
      · exact absurd rfl hfresh
      · exact .inl ⟨d, hd, hfresh⟩
    · rintro (⟨d, hd, hfresh⟩ | hm)
      · exact ⟨d, construction?_start_of_some hd config key settings, hfresh⟩
      · cases hm
  fresh := by simp
  once := .nil
  stays p := by
    rintro ⟨d, hd, hrest⟩
    exact ⟨d, construction?_start_of_some hd config key settings, hrest⟩
  prepared := by simp

/-- A fresh construction is prepared. -/
theorem prepare {n : Nat} {c d : Construction} (hc : r.construction? n = some c)
    (hfresh : c.stage = .fresh) (hd : r'.construction? n = some d) (hstage : d.stage ≠ .fresh)
    (hconfig : d.config = c.config) {raw : Except BuildError NodeId}
    (hraw : ∀ x, raw = .ok x → d.raw = some x)
    (hothers : ∀ m, m ≠ n → r'.construction? m = r.construction? m) :
    r.Begins [⟨n, c.config, raw⟩] r' := by
  have hnot : ¬ r.HasBegun n := by
    rintro ⟨c', hc', hs⟩
    obtain rfl : c = c' := Option.some.inj (hc.symm.trans hc')
    exact hs hfresh
  have hprepared : r'.Prepared ⟨n, c.config, raw⟩ := ⟨d, hd, hstage, hconfig, hraw⟩
  refine ⟨fun m => ?_, ?_, List.nodup_singleton n, fun p hp => ?_, ?_⟩
  · by_cases hm : m = n
    · subst hm
      simpa using hprepared.begun
    · simp [HasBegun, hothers m hm, hm]
  · simpa using hnot
  · have hne : p.number ≠ n := fun hn => hnot (hn ▸ hp.begun)
    rwa [Prepared, hothers _ hne]
  · simpa using hprepared

end Begins

end Registry

/-! ## Sound constructions -/

/-- What is left of a build comes to what the strategy makes of the raw config, and so does a result. -/
def Stage.Sound (s : Strategy) (g : Graph) (raw? : Option NodeId) : Stage → Prop
  | .fresh => True
  | .running => True
  | .suspended rest => ∃ raw, raw? = some raw ∧ ∀ w, rest.Makes s g raw w
  | .awaiting _ next => ∃ raw, raw? = some raw ∧ ∀ v w, (next v).Makes s g raw w
  | .finished (.ok v) => ∃ raw, raw? = some raw ∧ s.Makes g raw v
  | .finished (.error _) => True

theorem Stage.Sound.later {s : Strategy} {g g' : Graph} {raw? : Option NodeId} {stage : Stage}
    (h : stage.Sound s g raw?) (hg : g.Precedes g') : stage.Sound s g' raw? := by
  cases stage with
  | fresh => trivial
  | running => trivial
  | suspended rest =>
    obtain ⟨raw, hraw, hrest⟩ := h
    exact ⟨raw, hraw, fun w => (hrest w).later hg⟩
  | awaiting other next =>
    obtain ⟨raw, hraw, hnext⟩ := h
    exact ⟨raw, hraw, fun v w => (hnext v w).later hg⟩
  | finished result =>
    cases result with
    | ok v =>
      obtain ⟨raw, hraw, hv⟩ := h
      exact ⟨raw, hraw, hv.later hg⟩
    | error e => trivial

namespace Registry

/-- All constructions are sound. -/
def Sound (s : Strategy) (g : Graph) (r : Registry) : Prop :=
  ∀ n c, r.construction? n = some c → c.stage.Sound s g c.raw

variable {s : Strategy} {g g' : Graph} {r : Registry}

namespace Sound

theorem empty : Sound s g {} := fun n c hc => by cases hc

theorem later (h : r.Sound s g) (hg : g.Precedes g') : r.Sound s g' :=
  fun n c hc => (h n c hc).later hg

theorem setStage (h : r.Sound s g) {n : Nat} {stage : Stage}
    (hstage : ∀ c, r.construction? n = some c → stage.Sound s g c.raw) :
    (r.setStage n stage).Sound s g := by
  intro m d hd
  rcases modify_cases hd with ⟨rfl, c, hc, rfl⟩ | ⟨-, hd⟩
  · exact hstage c hc
  · exact h m d hd

/-- A construction may be polled. -/
theorem run (h : r.Sound s g) (n : Nat) : (r.setStage n .running).Sound s g :=
  h.setStage fun _ _ => trivial

theorem finish (h : r.Sound s g) {n : Nat} {result : Except BuildError Json}
    (hresult : ∀ c, r.construction? n = some c → (Stage.finished result).Sound s g c.raw) :
    (r.finish n result).Sound s g := by
  intro m d hd
  rw [construction?_finish, ← construction?_setStage] at hd
  exact h.setStage hresult m d hd

theorem start (h : r.Sound s g) (config : NodeId) (key : String) (settings : Settings) :
    (r.start config key settings).2.Sound s g := by
  intro m d hd
  rcases start_cases hd with ⟨-, rfl⟩ | ⟨-, hd⟩
  · trivial
  · exact h m d hd

/-- A construction that is being polled may learn its raw form. -/
theorem setRaw (h : r.Sound s g) {n : Nat} {c : Construction} (hc : r.construction? n = some c)
    (hrunning : c.stage = .running) (raw : NodeId) : (r.setRaw n raw).Sound s g := by
  intro m d hd
  rcases modify_cases hd with ⟨rfl, c', hc', rfl⟩ | ⟨-, hd⟩
  · obtain rfl : c = c' := Option.some.inj (hc.symm.trans hc')
    show c.stage.Sound s g (some raw)
    rw [hrunning]
    trivial
  · exact h m d hd

end Sound

end Registry

/-! ## Traces -/

namespace Factory

/-- A small step of work, and the preparation that it is, if it is one. -/
inductive Step (o : Factory) : Floor → List Preparation → Floor → Prop
  | move {n stage f} (begun : f.registry.HasBegun n) (stays : stage ≠ .fresh)
      (sound : ∀ c, f.registry.construction? n = some c → stage.Sound o.strategy f.graph c.raw) :
      Step o f [] (f.setStage n stage)
  | finish {n result f} (begun : f.registry.HasBegun n)
      (sound : ∀ c, f.registry.construction? n = some c →
        (Stage.finished result).Sound o.strategy f.graph c.raw) : Step o f [] (f.finish n result)
  | write {bench f} (graph : bench.store.graph = f.graph) : Step o f [] { f with bench }
  | start {config key settings f} : Step o f [] (f.start config key settings).2
  | receive {waiter n result f} : Step o f [] (f.receive waiter n result)
  | refuse {n c e graph f} (lookup : f.registry.construction? n = some c)
      (fresh : c.stage = .fresh)
      (form : rawConfig o.preprocessors f.graph c.config = (.error e, graph)) :
      Step o f [⟨n, c.config, .error e⟩] ((f.setStage n .running).setGraph graph)
  | prepare {n c raw graph f} (lookup : f.registry.construction? n = some c)
      (fresh : c.stage = .fresh)
      (form : rawConfig o.preprocessors f.graph c.config = (.ok raw, graph)) :
      Step o f [⟨n, c.config, .ok raw⟩] (((f.setStage n .running).setGraph graph).setRaw n raw)

/-- Small steps one after the other, with all the preparations among them. -/
inductive Traces (o : Factory) : Floor → List Preparation → Floor → Prop
  | refl {f} : Traces o f [] f
  | step {f f₁ f' log log'} (head : Step o f log f₁) (tail : Traces o f₁ log' f') :
      Traces o f (log ++ log') f'

variable {o : Factory} {f f₁ f' : Floor} {log log' : List Preparation}

/-- A step makes the preparation that it is. -/
theorem Step.prepares (h : Step o f log f') : Prepares o.preprocessors f.graph log f'.graph := by
  cases h with
  | write graph =>
    rw [← graph]
    exact .nil
  | refuse lookup fresh form => exact .cons form .nil
  | prepare lookup fresh form => exact .cons form .nil
  | _ => exact .nil

/-- A step begins the construction that it prepares. -/
theorem Step.begins (h : Step o f log f') : f.registry.Begins log f'.registry := by
  cases h with
  | move begun stays _ => exact .move begun stays
  | @finish n result f begun _ =>
    have hmove : f.registry.Begins [] (f.registry.setStage n (.finished result)) := .move begun nofun
    refine hmove.congr fun m => ?_
    show (f.registry.finish n result).construction? m = _
    rw [Registry.construction?_finish, Registry.construction?_setStage]
  | write => exact .refl _
  | start => exact .start ..
  | receive => exact (Registry.Begins.refl _).congr fun m => rfl
  | @refuse n c e graph f lookup fresh form =>
    have hrunning := Registry.construction?_setStage_self lookup .running
    refine .prepare lookup fresh hrunning nofun rfl (fun _ hx => by cases hx) fun m hm => ?_
    show (f.registry.setStage n .running).construction? m = _
    rw [Registry.construction?_setStage, if_neg (Ne.symm hm)]
  | @prepare n c raw graph f lookup fresh form =>
    have hrunning := Registry.construction?_setStage_self lookup .running
    refine .prepare lookup fresh (d := { c with raw := some raw, stage := .running }) ?_ nofun rfl ?_
      fun m hm => ?_
    · show ((f.registry.setStage n .running).setRaw n raw).construction? n = _
      rw [Registry.construction?_setRaw, if_pos rfl, hrunning]
      rfl
    · rintro x hx
      exact congrArg some (Except.ok.inj hx)
    · show ((f.registry.setStage n .running).setRaw n raw).construction? m = _
      rw [Registry.construction?_setRaw, if_neg (Ne.symm hm), Registry.construction?_setStage,
        if_neg (Ne.symm hm)]

/-- A step keeps constructions sound. -/
theorem Step.sound (h : Step o f log f') (hf : f.registry.Sound o.strategy f.graph) :
    f'.registry.Sound o.strategy f'.graph := by
  have hlater := h.prepares.precedes
  cases h with
  | move begun stays sound => exact hf.setStage sound
  | finish begun sound => exact hf.finish sound
  | write graph => exact hf.later hlater
  | start => exact hf.start _ _ _
  | receive => exact hf
  | refuse lookup fresh form =>
    exact (hf.run _).later hlater
  | prepare lookup fresh form =>
    have hrunning := Registry.construction?_setStage_self lookup .running
    exact ((hf.run _).setRaw hrunning rfl _).later hlater

namespace Traces

theorem single (h : Step o f log f') : Traces o f log f' := by
  have htrace := step h .refl
  rwa [List.append_nil] at htrace

theorem trans (h : Traces o f log f₁) (h' : Traces o f₁ log' f') : Traces o f (log ++ log') f' := by
  induction h with
  | refl => exact h'
  | step head _ ih =>
    rw [List.append_assoc]
    exact .step head (ih h')

/-- One more step. -/
theorem concat (h : Traces o f log f₁) (h' : Step o f₁ log' f') : Traces o f (log ++ log') f' :=
  h.trans (single h')

/-- A result is handed over at the end. -/
theorem receive (h : Traces o f log f₁) (waiter : Option Nat) (n : Nat)
    (result : Except BuildError Json) : Traces o f log (f₁.receive waiter n result) := by
  have hstep : Step o f₁ [] (f₁.receive waiter n result) := .receive
  have htrace := h.concat hstep
  rwa [List.append_nil] at htrace

/-- **The preparations of a trace make the graph of the floor.** -/
theorem prepares (h : Traces o f log f') : Prepares o.preprocessors f.graph log f'.graph := by
  induction h with
  | refl => exact .nil
  | step head _ ih => exact head.prepares.append ih

/-- **Each construction that begins is prepared once.** -/
theorem begins (h : Traces o f log f') : f.registry.Begins log f'.registry := by
  induction h with
  | refl => exact .refl _
  | step head _ ih => exact head.begins.trans ih

theorem sound (h : Traces o f log f') (hf : f.registry.Sound o.strategy f.graph) :
    f'.registry.Sound o.strategy f'.graph := by
  induction h with
  | refl => exact hf
  | step head _ ih => exact ih (head.sound hf)

end Traces

end Factory

end Wiring

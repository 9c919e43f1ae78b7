import Wiring.Proofs.Journal

/-!
# Orderly registries

The invariant of a registry (`Registry.Orderly`): the current construction of a key is the one that
has not failed, and the journal tells the truth. It holds of a registry without constructions and
is kept by each of the operations, provided that

- a construction is started for a key that has no current one,
- only a construction without a result moves on or ends,
- a result is handed over when it is there.

`Registry.Leads` relates a registry to a later one: constructions stay what they are, results stay,
and the journal goes on.
-/

namespace Wiring

namespace Stage

/-- There is no result yet. -/
def Open (s : Stage) : Prop := ∀ result, s ≠ .finished result

theorem open_fresh : Open .fresh := fun _ h => nomatch h

theorem open_running : Open .running := fun _ h => nomatch h

theorem open_suspended (rest : Build Json) : Open (.suspended rest) := fun _ h => nomatch h

theorem open_awaiting (other : Nat) (next : Json → Build Json) : Open (.awaiting other next) :=
  fun _ h => nomatch h

end Stage

/-- The construction has ended with an error. -/
def Construction.Failed (c : Construction) : Prop := ∃ e, c.stage = .finished (.error e)

theorem Construction.not_failed_of_open {c : Construction} (h : c.stage.Open) : ¬ c.Failed :=
  fun ⟨_, he⟩ => h _ he

namespace Registry

/-- The invariant of a registry. -/
structure Orderly (r : Registry) : Prop where
  /-- The current constructions are those that have not failed. -/
  current_iff : ∀ key n, r.current? key = some n ↔
    ∃ c, r.construction? n = some c ∧ c.key = key ∧ ¬ c.Failed
  /-- What is waited for exists. -/
  awaited : ∀ {n c other next}, r.construction? n = some c → c.stage = .awaiting other next →
    ∃ d, r.construction? other = some d
  /-- The journal names the constructions with their keys. -/
  started_iff : ∀ n key, .started n key ∈ r.journal.toList ↔
    ∃ c, r.construction? n = some c ∧ c.key = key
  /-- The journal has the results. -/
  ended_iff : ∀ n result, .ended n result ∈ r.journal.toList ↔
    ∃ c, r.construction? n = some c ∧ c.stage = .finished result
  lawful : Journal.Lawful r.journal.toList

variable {r : Registry}

/-- Numbers are given in order. -/
theorem lt_size {n : Nat} {c : Construction} (h : r.construction? n = some c) :
    n < r.history.size :=
  (Array.getElem?_eq_some_iff.mp h).1

theorem construction?_size : r.construction? r.history.size = none := by
  simp [construction?]

theorem construction?_setStage_self {n : Nat} {c : Construction}
    (h : r.construction? n = some c) (stage : Stage) :
    (r.setStage n stage).construction? n = some { c with stage } := by
  rw [construction?_setStage, if_pos rfl, h]
  rfl

theorem construction?_finish_self {n : Nat} {c : Construction} (h : r.construction? n = some c)
    (result : Except BuildError Json) :
    (r.finish n result).construction? n = some { c with stage := .finished result } := by
  rw [construction?_finish, if_pos rfl, h]
  rfl

theorem construction?_start_self (r : Registry) (config : NodeId) (key : String)
    (settings : Settings) : (r.start config key settings).2.construction? r.history.size =
      some ⟨⟨config, key, settings⟩, none, .fresh⟩ := by
  rw [construction?_start, if_pos rfl]

/-- Constructions that were there before are still there. -/
theorem construction?_start_of_some {n : Nat} {c : Construction} (h : r.construction? n = some c)
    (config : NodeId) (key : String) (settings : Settings) :
    (r.start config key settings).2.construction? n = some c := by
  rw [construction?_start, if_neg (Nat.ne_of_lt (lt_size h)), h]

/-! ### What a construction was before an operation -/

theorem modify_cases {n m : Nat} {f : Construction → Construction} {d : Construction}
    (hd : (r.modify n f).construction? m = some d) :
    (m = n ∧ ∃ c, r.construction? n = some c ∧ d = f c) ∨
      (m ≠ n ∧ r.construction? m = some d) := by
  rw [construction?_modify] at hd
  by_cases hm : n = m
  · rw [if_pos hm, Option.map_eq_some_iff] at hd
    obtain ⟨c, hc, rfl⟩ := hd
    exact .inl ⟨hm.symm, c, hm ▸ hc, rfl⟩
  · rw [if_neg hm] at hd
    exact .inr ⟨Ne.symm hm, hd⟩

theorem setStage_cases {n m : Nat} {c d : Construction} {stage : Stage}
    (hc : r.construction? n = some c) (hd : (r.setStage n stage).construction? m = some d) :
    (m = n ∧ d = { c with stage }) ∨ (m ≠ n ∧ r.construction? m = some d) := by
  rcases modify_cases hd with ⟨hm, c', hc', hd⟩ | hother
  · obtain rfl : c = c' := Option.some.inj (hc.symm.trans hc')
    exact .inl ⟨hm, hd⟩
  · exact .inr hother

theorem finish_cases {n m : Nat} {c d : Construction} {result : Except BuildError Json}
    (hc : r.construction? n = some c) (hd : (r.finish n result).construction? m = some d) :
    (m = n ∧ d = { c with stage := .finished result }) ∨
      (m ≠ n ∧ r.construction? m = some d) := by
  rw [construction?_finish, ← construction?_setStage] at hd
  exact setStage_cases hc hd

theorem start_cases {m : Nat} {config : NodeId} {key : String} {settings : Settings}
    {d : Construction} (hd : (r.start config key settings).2.construction? m = some d) :
    (m = r.history.size ∧ d = ⟨⟨config, key, settings⟩, none, .fresh⟩) ∨
      (m ≠ r.history.size ∧ r.construction? m = some d) := by
  rw [construction?_start] at hd
  split at hd
  · rename_i hm
    exact .inl ⟨hm, (Option.some.inj hd).symm⟩
  · rename_i hm
    exact .inr ⟨hm, hd⟩

/-! ### Stages of a kind -/

/-- All constructions are in stages of a certain kind. -/
def Stages (P : Stage → Prop) (r : Registry) : Prop := ∀ n c, r.construction? n = some c → P c.stage

namespace Stages

variable {P : Stage → Prop}

theorem setStage (h : r.Stages P) (n : Nat) {stage : Stage} (hs : P stage) :
    (r.setStage n stage).Stages P := by
  intro m d hd
  rcases modify_cases hd with ⟨-, c, -, rfl⟩ | ⟨-, hd⟩
  · exact hs
  · exact h m d hd

theorem setRaw (h : r.Stages P) (n : Nat) (raw : NodeId) : (r.setRaw n raw).Stages P := by
  intro m d hd
  rcases modify_cases hd with ⟨-, c, hc, rfl⟩ | ⟨-, hd⟩
  · exact h n c hc
  · exact h m d hd

theorem finish (h : r.Stages P) (n : Nat) {result : Except BuildError Json}
    (hs : P (.finished result)) : (r.finish n result).Stages P := by
  intro m d hd
  rw [construction?_finish, ← construction?_setStage] at hd
  exact h.setStage n hs m d hd

theorem start (h : r.Stages P) (hs : P .fresh) (config : NodeId) (key : String)
    (settings : Settings) : (r.start config key settings).2.Stages P := by
  intro m d hd
  rcases start_cases hd with ⟨-, rfl⟩ | ⟨-, hd⟩
  · exact hs
  · exact h m d hd

end Stages

theorem orderly_empty : Orderly {} where
  current_iff key n := by
    have : ({} : Registry).construction? n = none := rfl
    simp [current?, this]
  awaited h := nomatch h
  started_iff n key := by
    have : ({} : Registry).construction? n = none := rfl
    simp [this]
  ended_iff n result := by
    have : ({} : Registry).construction? n = none := rfl
    simp [this]
  lawful := Journal.lawful_nil

namespace Orderly

/-- What is handed over stays the same. -/
theorem receive (h : r.Orderly) {n : Nat} {c : Construction} {result : Except BuildError Json}
    (hc : r.construction? n = some c) (hs : c.stage = .finished result) (waiter : Option Nat) :
    (r.record (.received waiter n result)).Orderly where
  current_iff key m := by simpa using h.current_iff key m
  awaited hd hstage := h.awaited hd hstage
  started_iff m key := by simpa using h.started_iff m key
  ended_iff m s := by simpa using h.ended_iff m s
  lawful := by
    rw [journal_record]
    exact h.lawful.concat ((h.ended_iff n result).mpr ⟨c, hc, hs⟩)

/-- Changing a construction keeps the invariant if its key and its result, if any, stay. -/
theorem modify (h : r.Orderly) (n : Nat) (f : Construction → Construction)
    (hkey : ∀ c, (f c).key = c.key)
    (hresult : ∀ c, r.construction? n = some c →
      ∀ result, (f c).stage = .finished result ↔ c.stage = .finished result)
    (hawaits : ∀ c other next, r.construction? n = some c → (f c).stage = .awaiting other next →
      ∃ d, r.construction? other = some d) :
    (r.modify n f).Orderly where
  current_iff key m := by
    have hcur : (r.modify n f).current? key = r.current? key := rfl
    rw [hcur, h.current_iff, construction?_modify]
    by_cases hm : n = m
    · subst hm
      cases hc : r.construction? n with
      | none => simp
      | some c =>
        have hfail : (f c).Failed ↔ c.Failed := by
          simp only [Construction.Failed, hresult c hc]
        simp [hkey, hfail]
    · rw [if_neg hm]
  awaited {m c other next} hc hs := by
    have hother : ∃ d, r.construction? other = some d := by
      rcases modify_cases hc with ⟨rfl, c₀, hc₀, rfl⟩ | ⟨-, hc⟩
      · exact hawaits c₀ other next hc₀ hs
      · exact h.awaited hc hs
    obtain ⟨d, hd⟩ := hother
    rw [construction?_modify, hd]
    by_cases hm : n = other
    · exact ⟨f d, by rw [if_pos hm]; rfl⟩
    · exact ⟨d, by rw [if_neg hm]⟩
  started_iff m key := by
    rw [show (r.modify n f).journal = r.journal from rfl, h.started_iff, construction?_modify]
    by_cases hm : n = m
    · subst hm
      cases hc : r.construction? n <;> simp [hkey]
    · rw [if_neg hm]
  ended_iff m result := by
    rw [show (r.modify n f).journal = r.journal from rfl, h.ended_iff, construction?_modify]
    by_cases hm : n = m
    · subst hm
      cases hc : r.construction? n with
      | none => simp
      | some c => simp [hresult c hc]
    · rw [if_neg hm]
  lawful := h.lawful

/-- A construction in flight may move to any stage without a result. -/
theorem setStage (h : r.Orderly) {n : Nat} {c : Construction} {stage : Stage}
    (hc : r.construction? n = some c) (hopen : c.stage.Open) (hstage : stage.Open)
    (hawaits : ∀ other next, stage = .awaiting other next → ∃ d, r.construction? other = some d) :
    (r.setStage n stage).Orderly := by
  refine h.modify n _ (fun _ => rfl) (fun d hd result => ?_) (fun d other next _ hs => hawaits _ _ hs)
  obtain rfl : c = d := Option.some.inj (hc.symm.trans hd)
  exact ⟨fun hs => absurd hs (hstage result), fun hs => absurd hs (hopen result)⟩

theorem setRaw (h : r.Orderly) (n : Nat) (raw : NodeId) : (r.setRaw n raw).Orderly :=
  h.modify n _ (fun _ => rfl) (fun _ _ _ => Iff.rfl) fun _ _ _ hc hs => h.awaited hc hs

/-- A construction may be started for a key that has no current one. -/
theorem start (h : r.Orderly) {key : String} (hfree : r.current? key = none) (config : NodeId)
    (settings : Settings) : (r.start config key settings).2.Orderly where
  current_iff other m := by
    rw [current?_start, construction?_start]
    by_cases hm : m = r.history.size
    · subst hm
      have hfresh : ¬ (Construction.mk ⟨config, key, settings⟩ none .fresh).Failed :=
        Construction.not_failed_of_open Stage.open_fresh
      by_cases hk : key = other
      · subst hk
        simp [hfresh]
      · rw [if_neg hk, h.current_iff, construction?_size]
        simp [hk]
    · rw [if_neg hm]
      by_cases hk : key = other
      · subst hk
        have hnone := h.current_iff key m
        rw [hfree] at hnone
        rw [if_pos rfl, ← hnone]
        simp [Ne.symm hm]
      · rw [if_neg hk]
        exact h.current_iff other m
  awaited {m c other next} hc hs := by
    rcases start_cases hc with ⟨-, rfl⟩ | ⟨-, hc⟩
    · cases hs
    · obtain ⟨d, hd⟩ := h.awaited hc hs
      exact ⟨d, construction?_start_of_some hd ..⟩
  started_iff m other := by
    rw [journal_start, List.mem_append, h.started_iff, construction?_start]
    by_cases hm : m = r.history.size
    · subst hm
      simp [construction?_size, eq_comm]
    · simp [hm]
  ended_iff m result := by
    rw [journal_start, List.mem_append, h.ended_iff, construction?_start]
    by_cases hm : m = r.history.size
    · subst hm
      simp [construction?_size]
    · simp [hm]
  lawful := by
    rw [journal_start]
    refine h.lawful.concat ?_
    constructor
    · intro k hk
      obtain ⟨c, hc, -⟩ := (h.started_iff _ k).mp hk
      exact absurd (lt_size hc) (Nat.lt_irrefl _)
    · intro m hm
      -- an earlier construction of the key would be current if it had not failed
      obtain ⟨c, hc, hkey⟩ := (h.started_iff m key).mp hm
      have hfailed : c.Failed := by
        by_contra hnot
        have := (h.current_iff key m).mpr ⟨c, hc, hkey, hnot⟩
        rw [hfree] at this
        cases this
      obtain ⟨e, he⟩ := hfailed
      exact ⟨e, (h.ended_iff m _).mpr ⟨c, hc, he⟩⟩

/-- A construction in flight may end. -/
theorem finish (h : r.Orderly) {n : Nat} {c : Construction} (hc : r.construction? n = some c)
    (hopen : c.stage.Open) (result : Except BuildError Json) : (r.finish n result).Orderly where
  current_iff key m := by
    rw [construction?_finish]
    by_cases hm : n = m
    · subst hm
      have hcur := h.current_iff key n
      simp only [hc, Option.some.injEq, exists_eq_left'] at hcur
      have hlive : ∀ e, ¬ c.stage = .finished (.error e) := fun e => hopen _
      cases result with
      | ok v =>
        rw [current?_finish_ok, hcur]
        simp [hc, hlive, Construction.Failed]
      | error e =>
        rw [current?_finish_error hc]
        by_cases hk : c.key = key
        · simp [hc, hk, Construction.Failed]
        · simp [hc, hk, hcur]
    · rw [if_neg hm]
      cases result with
      | ok v => exact h.current_iff key m
      | error e =>
        rw [current?_finish_error hc]
        by_cases hk : c.key = key
        · rw [if_pos hk]
          refine ⟨fun hnone => absurd hnone (by simp), ?_⟩
          intro hm'
          -- the key of the ending construction has no other current one
          have hcn := (h.current_iff key n).mpr
            ⟨c, hc, hk, Construction.not_failed_of_open hopen⟩
          have hcm := (h.current_iff key m).mpr hm'
          exact absurd (Option.some.inj (hcn.symm.trans hcm)) hm
        · rw [if_neg hk]
          exact h.current_iff key m
  awaited {m d other next} hd hs := by
    have hother : ∃ d, r.construction? other = some d := by
      rcases finish_cases hc hd with ⟨-, rfl⟩ | ⟨-, hd⟩
      · cases hs
      · exact h.awaited hd hs
    obtain ⟨d, hd⟩ := hother
    rw [construction?_finish, hd]
    by_cases hm : n = other
    · exact ⟨_, by rw [if_pos hm]; rfl⟩
    · exact ⟨d, by rw [if_neg hm]⟩
  started_iff m key := by
    rw [journal_finish, List.mem_append, h.started_iff, construction?_finish]
    by_cases hm : n = m
    · subst hm
      simp [hc]
    · simp [hm]
  ended_iff m s := by
    rw [journal_finish, List.mem_append, h.ended_iff, construction?_finish]
    by_cases hm : n = m
    · subst hm
      have : ¬ c.stage = .finished s := hopen s
      simp [hc, this, eq_comm]
    · simp [hm, Ne.symm hm]
  lawful := by
    rw [journal_finish]
    refine h.lawful.concat ⟨⟨c.key, (h.started_iff n c.key).mpr ⟨c, hc, rfl⟩⟩, ?_⟩
    intro s hs
    obtain ⟨d, hd, hstage⟩ := (h.ended_iff n s).mp hs
    rw [hc] at hd
    cases hd
    exact hopen s hstage

end Orderly

end Registry

/-! ## Later registries -/

/-- A construction later on. Its result stays if it has one. -/
structure Construction.Becomes (c d : Construction) : Prop where
  errand : d.toErrand = c.toErrand
  result : ∀ result, c.stage = .finished result → d.stage = .finished result

namespace Construction.Becomes

variable {c d e : Construction}

theorem refl (c : Construction) : c.Becomes c := ⟨rfl, fun _ => id⟩

theorem trans (h₁ : c.Becomes d) (h₂ : d.Becomes e) : c.Becomes e :=
  ⟨h₂.errand.trans h₁.errand, fun s hs => h₂.result s (h₁.result s hs)⟩

theorem key (h : c.Becomes d) : d.key = c.key := congrArg Errand.key h.errand

theorem settings (h : c.Becomes d) : d.settings = c.settings := congrArg Errand.settings h.errand

end Construction.Becomes

namespace Registry

/-- The second registry is the first one at a later time. -/
structure Leads (r r' : Registry) : Prop where
  becomes : ∀ {n c}, r.construction? n = some c → ∃ d, r'.construction? n = some d ∧ c.Becomes d
  journal : r.journal.toList <+: r'.journal.toList

/-- The construction is being polled. -/
def Running (r : Registry) (n : Nat) : Prop := ∃ c, r.construction? n = some c ∧ c.stage = .running

variable {r : Registry}

namespace Leads

theorem refl (r : Registry) : r.Leads r :=
  ⟨fun {_ c} hc => ⟨c, hc, .refl c⟩, List.prefix_refl _⟩

theorem trans {r₁ r₂ r₃ : Registry} (h₁ : r₁.Leads r₂) (h₂ : r₂.Leads r₃) : r₁.Leads r₃ where
  becomes hc := by
    obtain ⟨d, hd, hcd⟩ := h₁.becomes hc
    obtain ⟨e, he, hde⟩ := h₂.becomes hd
    exact ⟨e, he, hcd.trans hde⟩
  journal := h₁.journal.trans h₂.journal

end Leads

theorem leads_record (r : Registry) (e : Event) : r.Leads (r.record e) :=
  ⟨fun {_ c} hc => ⟨c, hc, .refl c⟩, by simp⟩

theorem leads_start (r : Registry) (config : NodeId) (key : String) (settings : Settings) :
    r.Leads (r.start config key settings).2 where
  becomes {n c} hc :=
    ⟨c, construction?_start_of_some hc .., .refl c⟩
  journal := by simp

theorem leads_modify (n : Nat) (f : Construction → Construction)
    (hf : ∀ c, r.construction? n = some c → c.Becomes (f c)) : r.Leads (r.modify n f) where
  becomes {m c} hc := by
    rw [construction?_modify, hc]
    by_cases hm : n = m
    · subst hm
      exact ⟨f c, by simp, hf c hc⟩
    · exact ⟨c, by simp [hm], .refl c⟩
  journal := List.prefix_refl _

theorem leads_setStage {n : Nat} {c : Construction} (hc : r.construction? n = some c)
    (hopen : c.stage.Open) (stage : Stage) : r.Leads (r.setStage n stage) := by
  refine leads_modify n _ ?_
  intro d hd
  obtain rfl : c = d := Option.some.inj (hc.symm.trans hd)
  exact ⟨rfl, fun s hs => absurd hs (hopen s)⟩

theorem leads_setRaw (r : Registry) (n : Nat) (raw : NodeId) : r.Leads (r.setRaw n raw) :=
  leads_modify n _ fun _ _ => ⟨rfl, fun _ => id⟩

theorem leads_finish {n : Nat} {c : Construction} (hc : r.construction? n = some c)
    (hopen : c.stage.Open) (result : Except BuildError Json) : r.Leads (r.finish n result) where
  becomes {m d} hd := by
    obtain ⟨e, he, hde⟩ := (leads_setStage hc hopen (.finished result)).becomes hd
    rw [construction?_setStage] at he
    exact ⟨e, by rw [construction?_finish, he], hde⟩
  journal := by simp

/-! ## Who is being polled -/

theorem running_setStage {n : Nat} {c : Construction} (hc : r.construction? n = some c)
    (stage : Stage) (m : Nat) :
    (r.setStage n stage).Running m ↔ if n = m then stage = .running else r.Running m := by
  unfold Running
  rw [construction?_setStage]
  by_cases hm : n = m
  · subst hm
    simp [hc]
  · simp [hm]

/-- Beginning to poll a construction leaves those that are polled already. -/
theorem Running.setStage {n m : Nat} {c : Construction} (h : r.Running m)
    (hc : r.construction? n = some c) : (r.setStage n .running).Running m := by
  rw [running_setStage hc]
  split
  · rfl
  · exact h

theorem Running.ne {n m : Nat} {c : Construction} (h : r.Running m)
    (hc : r.construction? n = some c) (hs : c.stage ≠ .running) : m ≠ n := by
  rintro rfl
  obtain ⟨d, hd, hrun⟩ := h
  obtain rfl : c = d := Option.some.inj (hc.symm.trans hd)
  exact hs hrun

theorem running_setRaw (n m : Nat) (raw : NodeId) : (r.setRaw n raw).Running m ↔ r.Running m := by
  unfold Running
  rw [construction?_setRaw]
  by_cases hm : n = m
  · subst hm
    simp
  · simp [hm]

theorem running_start (config : NodeId) (key : String) (settings : Settings) (m : Nat) :
    (r.start config key settings).2.Running m ↔ r.Running m := by
  unfold Running
  rw [construction?_start]
  by_cases hm : m = r.history.size
  · subst hm
    simp [construction?_size]
  · simp [hm]

theorem running_finish (n m : Nat) (result : Except BuildError Json) :
    (r.finish n result).Running m ↔ n ≠ m ∧ r.Running m := by
  unfold Running
  rw [construction?_finish]
  by_cases hm : n = m
  · subst hm
    simp
  · simp [hm]

end Registry

end Wiring

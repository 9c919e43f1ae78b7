import Mathlib.Logic.Function.Basic
import Wiring.Proofs.Bounds
import Wiring.Proofs.Ownership

/-!
# Moves are paid for

Each construction is given a credit for the moves that it may still make: its first poll, its
stops, and the results that it is handed (`Stage.Funded`, `Floor.Funded`). Polls never raise the
credit of a construction, and one that reports a move has lowered the credit of an open
construction (`Runs.spend`). This is for pools with numbered instances, whose builds stop a limited
number of times.
-/

namespace Wiring

/-- A credit is enough for a construction at a stage. -/
def Stage.Funded (size degree k : Nat) : Stage → Prop
  | .fresh => degree + 2 ≤ k
  | .running => True
  | .suspended rest =>
    ∃ j < k, ∀ w : Workbench, w.store.graph.Bounded size degree → rest.Stops size degree j w
  | .awaiting _ next => ∃ j < k, ∀ v, ∀ w : Workbench, w.store.graph.Bounded size degree →
      (next v).Stops size degree j w
  | .finished _ => True

/-- All constructions have credit enough, and configs of a certain kind. Numbers that are not in
use have more credit than any construction. -/
structure Floor.Funded (size degree : Nat) (C : NodeId → Prop) (credit : Nat → Nat) (f : Floor) :
    Prop where
  graph : f.graph.Bounded size degree
  limit : ∀ n, credit n ≤ degree + 3
  unused : ∀ n, f.registry.construction? n = none → credit n = degree + 3
  config : ∀ n c, f.registry.construction? n = some c →
    C c.config ∧ f.graph.value? c.config = some c.key
  stage : ∀ n c, f.registry.construction? n = some c → c.stage.Funded size degree (credit n)

/-- A credit is enough for what a task has to do. -/
def Task.Funded (size degree : Nat) (credit : Nat → Nat) : Task → Workbench → Prop
  | .poll _, _ => True
  | .drive n _ rest, w => rest.Stops size degree (credit n) w
  | .wait n _ _ next _, _ => ∃ j < credit n, ∀ v, ∀ w : Workbench,
      w.store.graph.Bounded size degree → (next v).Stops size degree j w

/-- An open construction has lost credit. -/
def Registry.Paid (r : Registry) (credit credit' : Nat → Nat) : Prop :=
  ∃ m, r.IsOpen m ∧ credit' m < credit m

/-- A move that a task reports and that was not reported before has been paid for. -/
def Task.Pays (credit credit' : Nat → Nat) (r : Registry) : Task → Prop
  | .poll _ => r.Paid credit credit'
  | .drive _ _ _ => True
  | .wait _ _ _ _ moved => moved = true ∨ r.Paid credit credit'

/-- A task may change the credit of the construction that it works on, and of those that are not
being polled. -/
def Task.Spares (m : Nat) : Task → Prop
  | .poll _ => True
  | .drive n _ _ => m ≠ n
  | .wait n _ _ _ _ => m ≠ n

namespace Floor.Funded

open Registry Function

variable {size degree : Nat} {C : NodeId → Prop} {credit : Nat → Nat} {f : Floor} {n : Nat}
  {c : Construction}

/-- Changing one construction. -/
theorem change (h : f.Funded size degree C credit) (hc : f.registry.construction? n = some c)
    {k : Nat} (hk : k ≤ credit n) {d : Construction} (hd : d.toErrand = c.toErrand)
    (hs : d.stage.Funded size degree k) {r : Registry}
    (hr : ∀ m, r.construction? m = if n = m then some d else f.registry.construction? m) :
    ({ f with registry := r } : Floor).Funded size degree C (update credit n k) where
  graph := h.graph
  limit m := by
    by_cases hm : m = n
    · subst hm
      rw [update_self]
      exact Nat.le_trans hk (h.limit m)
    · rw [update_of_ne hm]
      exact h.limit m
  unused m hm := by
    have hm : r.construction? m = none := hm
    rw [hr m] at hm
    by_cases hnm : n = m
    · rw [if_pos hnm] at hm
      cases hm
    · rw [if_neg hnm] at hm
      rw [update_of_ne (Ne.symm hnm)]
      exact h.unused m hm
  config m e he := by
    have he : r.construction? m = some e := he
    rw [hr m] at he
    by_cases hnm : n = m
    · rw [if_pos hnm] at he
      cases he
      rw [hd]
      exact h.config n c hc
    · rw [if_neg hnm] at he
      exact h.config m e he
  stage m e he := by
    have he : r.construction? m = some e := he
    rw [hr m] at he
    by_cases hnm : n = m
    · subst hnm
      rw [if_pos rfl] at he
      cases he
      rw [update_self]
      exact hs
    · rw [if_neg hnm] at he
      rw [update_of_ne (Ne.symm hnm)]
      exact h.stage m e he

theorem setStage (h : f.Funded size degree C credit) (hc : f.registry.construction? n = some c)
    {k : Nat} (hk : k ≤ credit n) (stage : Stage) (hs : stage.Funded size degree k) :
    (f.setStage n stage).Funded size degree C (update credit n k) := by
  refine h.change hc hk (d := { c with stage }) rfl hs ?_
  intro m
  rw [construction?_setStage]
  by_cases hm : n = m
  · subst hm
    rw [if_pos rfl, if_pos rfl, hc]
    rfl
  · rw [if_neg hm, if_neg hm]

theorem finish (h : f.Funded size degree C credit) (hc : f.registry.construction? n = some c)
    (result : Except BuildError Json) : (f.finish n result).Funded size degree C credit := by
  have hch := h.change (r := f.registry.finish n result) hc (Nat.le_refl (credit n))
    (d := { c with stage := .finished result }) rfl trivial fun m => by
      rw [construction?_finish]
      by_cases hm : n = m
      · subst hm
        rw [if_pos rfl, if_pos rfl, hc]
        rfl
      · rw [if_neg hm, if_neg hm]
  rwa [update_eq_self] at hch

theorem setRaw (h : f.Funded size degree C credit) (hc : f.registry.construction? n = some c)
    (raw : NodeId) : (f.setRaw n raw).Funded size degree C credit := by
  have hch := h.change (r := f.registry.setRaw n raw) hc (Nat.le_refl (credit n))
    (d := { c with raw := some raw }) rfl (h.stage n c hc) fun m => by
      rw [construction?_setRaw]
      by_cases hm : n = m
      · subst hm
        rw [if_pos rfl, if_pos rfl, hc]
        rfl
      · rw [if_neg hm, if_neg hm]
  rwa [update_eq_self] at hch

/-- A construction that is polled may give credit away. -/
theorem spend (h : f.Funded size degree C credit) {settings : Settings}
    (hp : f.registry.Polled n settings) {k : Nat} (hk : k ≤ credit n) :
    f.Funded size degree C (update credit n k) := by
  obtain ⟨c, hc, hs, -⟩ := hp
  refine h.change hc hk (d := c) rfl (hs ▸ trivial) ?_
  intro m
  by_cases hm : n = m
  · rw [if_pos hm, ← hm, hc]
  · rw [if_neg hm]

theorem receive (h : f.Funded size degree C credit) (waiter : Option Nat) (n : Nat)
    (result : Except BuildError Json) : (f.receive waiter n result).Funded size degree C credit :=
  ⟨h.graph, h.limit, h.unused, h.config, h.stage⟩

theorem bench (h : f.Funded size degree C credit) {bench : Workbench}
    (hb : bench.store.graph.Bounded size degree) (hg : f.graph.Extends bench.store.graph) :
    ({ f with bench } : Floor).Funded size degree C credit :=
  ⟨hb, h.limit, h.unused, fun n c hc => (h.config n c hc).imp_right hg.value, h.stage⟩

/-- The raw form of a config may be found. -/
theorem prepare (h : f.Funded size degree C credit) {ps : List Preprocessor} {config : NodeId}
    {raw : Except BuildError NodeId} {graph : Graph}
    (form : rawConfig ps f.graph config = (raw, graph)) :
    (f.setGraph graph).Funded size degree C credit := by
  have hbound := h.graph.rawConfig ps config
  have hgrow := Graph.grows_rawConfig ps f.graph config
  rw [form] at hbound hgrow
  exact ⟨hbound, h.limit, h.unused, fun n c hc => (h.config n c hc).imp_right hgrow.term.value,
    h.stage⟩

/-- The first poll of a construction is paid for. -/
theorem begin (h : f.Funded size degree C credit) (hc : f.registry.construction? n = some c)
    (hs : c.stage = .fresh) {ps : List Preprocessor} {raw : NodeId} {graph : Graph}
    (form : rawConfig ps f.graph c.config = (.ok raw, graph)) :
    degree + 2 ≤ credit n ∧
      (((f.setStage n .running).setGraph graph).setRaw n raw).Funded size degree C
        (update credit n (degree + 1)) := by
  have hcredit : degree + 2 ≤ credit n := by
    have hfund := h.stage n c hc
    rwa [hs] at hfund
  refine ⟨hcredit, ?_⟩
  have hpolled := h.setStage hc (Nat.le_of_lt hcredit) .running trivial
  have hprepared := hpolled.prepare (f := f.setStage n .running) form
  exact hprepared.setRaw (f := (f.setStage n .running).setGraph graph)
    (construction?_setStage_self hc .running) raw

/-- A construction may be started for a config of the right kind. -/
theorem start (h : f.Funded size degree C credit) {config : NodeId} {key : String}
    (settings : Settings) (hconfig : C config) (hkey : f.graph.value? config = some key) :
    (f.start config key settings).2.Funded size degree C
      (update credit f.registry.history.size (degree + 2)) where
  graph := h.graph
  limit m := by
    by_cases hm : m = f.registry.history.size
    · subst hm
      rw [update_self]
      omega
    · rw [update_of_ne hm]
      exact h.limit m
  unused m hm := by
    have hm : (f.registry.start config key settings).2.construction? m = none := hm
    rw [construction?_start] at hm
    split at hm
    · cases hm
    · rename_i hne
      rw [update_of_ne hne]
      exact h.unused m hm
  config m e he := by
    rcases start_cases he with ⟨-, rfl⟩ | ⟨-, he⟩
    · exact ⟨hconfig, hkey⟩
    · exact h.config m e he
  stage m e he := by
    rcases start_cases he with ⟨rfl, rfl⟩ | ⟨hne, he⟩
    · rw [update_self]
      exact Nat.le_refl _
    · rw [update_of_ne hne]
      exact h.stage m e he

end Floor.Funded

namespace Factory

open Registry Function

variable {o : Factory} {size degree : Nat} {C : NodeId → Prop} {credit : Nat → Nat}
  {f f₁ f' : Floor}

theorem update_le {n k : Nat} (hk : k ≤ credit n) (m : Nat) : update credit n k m ≤ credit m := by
  by_cases hm : m = n
  · subst hm
    rwa [update_self]
  · exact Nat.le_of_eq (update_of_ne hm k credit)

/-- Entering a request keeps the floor funded, if the config is of the right kind. -/
theorem enter_funded {settings : Settings} {d : NodeId} {n : Nat}
    (hf : f.Funded size degree C credit) (hd : C d)
    (he : o.enter d settings f = (.waiting n, f₁)) :
    ∃ credit', f₁.Funded size degree C credit' ∧ (∀ m, credit' m ≤ credit m) ∧
      ∀ m c, f.registry.construction? m = some c → credit' m = credit m := by
  obtain ⟨key, hkey, ⟨-, rfl⟩ | ⟨-, hstart⟩⟩ := enter_waiting he
  · exact ⟨credit, hf, fun _ => Nat.le_refl _, fun _ _ _ => rfl⟩
  · cases hstart
    refine ⟨_, hf.start _ hd hkey.value, update_le ?_, fun m c hc => ?_⟩
    · rw [hf.unused _ construction?_size]
      omega
    · rw [update_of_ne (Nat.ne_of_lt (lt_size hc))]

/-- What a task does to credits: it keeps the floor funded, raises no credit, spares those of other
constructions that are being polled, and pays for a move that it reports. -/
structure Spends (size degree : Nat) (C : NodeId → Prop) (credit credit' : Nat → Nat) (t : Task)
    (f : Floor) (p : Progress) (f' : Floor) : Prop where
  funded : f'.Funded size degree C credit'
  le : ∀ m, credit' m ≤ credit m
  spares : ∀ m, f.registry.Running m → t.Spares m → credit' m = credit m
  pays : p = .pending true → t.Pays credit credit' f'.registry

namespace Spends

variable {credit' : Nat → Nat} {t : Task} {p : Progress}

/-- A task without a move may leave the credits as they are. -/
theorem still (hf : f'.Funded size degree C credit) (hp : p ≠ .pending true) :
    Spends size degree C credit credit t f p f' :=
  ⟨hf, fun _ => Nat.le_refl _, fun _ _ _ => rfl, fun h => absurd h hp⟩

/-- A build may give credit away, and go on with what it keeps. -/
theorem of_update {n k : Nat} {settings : Settings} {b rest : Build Json} (hk : k ≤ credit n)
    (h : Spends size degree C (update credit n k) credit' (.drive n settings b) f p f') :
    Spends size degree C credit credit' (.drive n settings rest) f p f' where
  funded := h.funded
  le m := Nat.le_trans (h.le m) (update_le hk m)
  spares m hm hne := by
    rw [h.spares m hm hne]
    exact update_of_ne hne k credit
  pays _ := trivial

/-- A poll that carries on a build pays for it in advance. -/
theorem of_drive {n k : Nat} {c : Construction} {b : Build Json}
    (h : Spends size degree C (update credit n k) credit' (.drive n c.settings b) f₁ p f')
    (lookup : f.registry.construction? n = some c) (hs : c.stage ≠ .running)
    (hk : k < credit n) (hrunning : ∀ m, f.registry.Running m → f₁.registry.Running m)
    (hopen : ∀ moved, p = .pending moved → f'.registry.IsOpen n) :
    Spends size degree C credit credit' (.poll n) f p f' where
  funded := h.funded
  le m := Nat.le_trans (h.le m) (update_le (Nat.le_of_lt hk) m)
  spares m hm _ := by
    have hne : m ≠ n := hm.ne lookup hs
    rw [h.spares m (hrunning m hm) hne]
    exact update_of_ne hne k credit
  pays hp := by
    refine ⟨n, hopen true hp, Nat.lt_of_le_of_lt (h.le n) ?_⟩
    rw [update_self]
    exact hk

end Spends

/-- **Moves are paid for.** -/
theorem Runs.spend {suspends : Bool} (hs : o.strategy = .counting suspends)
    (hC : ∀ d < size, C d) {t : Task} {p : Progress} (h : Runs o t f p f')
    (hord : f.registry.Orderly) (hatt : t.Attends f.registry)
    (hf : f.Funded size degree C credit) (ht : t.Funded size degree credit f.bench) :
    ∃ credit', Spends size degree C credit credit' t f p f' := by
  -- by induction on the work, for all credits: a build goes on with what a stop has left of its credit
  induction h generalizing credit with
  | done v =>
    obtain ⟨c, hc, -⟩ := id hatt
    exact ⟨credit, .still (hf.finish hc _) fun h => nomatch h⟩
  | fail e =>
    obtain ⟨c, hc, -⟩ := id hatt
    exact ⟨credit, .still (hf.finish hc _) fun h => nomatch h⟩
  | @suspend n settings f next =>
    obtain ⟨c, hc, -⟩ := id hatt
    have hf' := hf.setStage hc (Nat.le_refl _) (.suspended next) ht
    rw [update_eq_self] at hf'
    exact ⟨credit, hf', fun _ => Nat.le_refl _, fun _ _ _ => rfl, fun _ => trivial⟩
  | read _ ih =>
    obtain ⟨credit', h⟩ := ih hord hatt hf ht
    exact ⟨credit', h.funded, h.le, h.spares, fun _ => trivial⟩
  | @write n settings bench next f p f' _ ih =>
    obtain ⟨hgraph, hrest⟩ := ht
    have hb : bench.store.graph.Bounded size degree := hgraph ▸ hf.graph
    have hg : f.graph.Extends bench.store.graph := hgraph ▸ Graph.Extends.refl _
    obtain ⟨credit', h⟩ := ih hord hatt (hf.bench hb hg) hrest
    exact ⟨credit', h.funded, h.le, h.spares, fun _ => trivial⟩
  | @answered n settings config next v f f₁ p f' entry _ ih =>
    obtain ⟨rfl, -⟩ := enter_answered entry
    obtain ⟨-, j, hj, hnext⟩ := ht
    have hstops : (next v).Stops size degree (update credit n j n) f₁.bench := by
      rw [update_self]
      exact hnext v _ hf.graph
    obtain ⟨credit', h⟩ := ih hord hatt (hf.spend hatt (Nat.le_of_lt hj)) hstops
    exact ⟨credit', h.of_update (Nat.le_of_lt hj)⟩
  | refused entry =>
    obtain ⟨rfl, -⟩ := enter_answered entry
    obtain ⟨c, hc, -⟩ := id hatt
    exact ⟨credit, .still (hf.finish hc _) fun h => nomatch h⟩
  | @request n settings config next other f f₁ p f' entry _ ih =>
    obtain ⟨hk, -, hd⟩ := keeps_of_enter hord entry
    obtain ⟨hconfig, hrest⟩ := ht
    obtain ⟨credit₁, hf₁, hle₁, hsame⟩ := enter_funded hf (hC config hconfig) entry
    obtain ⟨c, hc, -⟩ := id hatt
    rw [← hsame n c hc] at hrest
    obtain ⟨credit', h⟩ := ih hk.orderly ⟨hatt.keeps hk, hd⟩ hf₁ hrest
    refine ⟨credit', h.funded, fun m => Nat.le_trans (h.le m) (hle₁ m), fun m hm hne => ?_,
      fun _ => trivial⟩
    obtain ⟨d, hd, -⟩ := id hm
    rw [h.spares m ((hk.running m).mpr hm) hne, hsame m d hd]
  | @received n settings other next moved v f f₁ p f' poll rest ihp ihr =>
    have hk' := poll.keeps_receive hord hatt.2 (some n)
    have hp := hatt.1.keeps hk'
    obtain ⟨j, hj, hnext⟩ := ht
    obtain ⟨credit₁, h₁⟩ := ihp hord hatt.2 hf trivial
    -- the poll has spared the construction that waits, which goes on with less
    have hj₁ : j < credit₁ n := by rwa [h₁.spares n hatt.1.running trivial]
    have hf₂ := (h₁.funded.receive (some n) other (.ok v)).spend hp (Nat.le_of_lt hj₁)
    have hstops : (next v).Stops size degree (update credit₁ n j n) f₁.bench := by
      rw [update_self]
      exact hnext v _ h₁.funded.graph
    obtain ⟨credit', h⟩ := ihr hk'.orderly hp hf₂ hstops
    have hle₁ := fun m => Nat.le_trans (update_le (Nat.le_of_lt hj₁) m) (h₁.le m)
    refine ⟨credit', h.funded, fun m => Nat.le_trans (h.le m) (hle₁ m), fun m hm hne => ?_,
      fun hpending => .inr ⟨n, ?_, ?_⟩⟩
    · rw [h.spares m ((hk'.running m).mpr hm) hne, update_of_ne hne, h₁.spares m hm trivial]
    · subst hpending
      exact rest.open_of_pending hk'.orderly hp
    · have hle := h.le n
      rw [update_self] at hle
      exact Nat.lt_of_le_of_lt hle (Nat.lt_of_lt_of_le hj₁ (h₁.le n))
  | @passedOn n settings other next moved e f f₁ poll ihp =>
    obtain ⟨hk, -⟩ := poll.upkeep hord hatt.2
    obtain ⟨credit₁, h₁⟩ := ihp hord hatt.2 hf trivial
    obtain ⟨d, hd, -⟩ := hatt.1.keeps hk
    exact ⟨credit₁, (h₁.funded.receive (some n) other (.error e)).finish hd _, h₁.le,
      fun m hm _ => h₁.spares m hm trivial, fun hp => nomatch hp⟩
  | @blocked n settings other next moved further f f₁ poll ihp =>
    obtain ⟨hk, -⟩ := poll.upkeep hord hatt.2
    have hp := hatt.1.keeps hk
    obtain ⟨c, hc, -⟩ := id hp
    obtain ⟨credit₁, h₁⟩ := ihp hord hatt.2 hf trivial
    have ht₁ : (Stage.awaiting other next).Funded size degree (credit₁ n) := by
      rw [h₁.spares n hatt.1.running trivial]
      exact ht
    have hf' := h₁.funded.setStage hc (Nat.le_refl _) (.awaiting other next) ht₁
    rw [update_eq_self] at hf'
    refine ⟨credit₁, hf', h₁.le, fun m hm _ => h₁.spares m hm trivial, ?_⟩
    intro hpending
    cases moved with
    | true => exact .inl rfl
    | false =>
      -- the move was made further in, and what has paid for it is still open
      obtain rfl : further = true := by simpa using hpending
      obtain ⟨m, hm, hlt⟩ := h₁.pays rfl
      exact .inr ⟨m, hm.setStage hc (Stage.open_awaiting other next), hlt⟩
  | missing lookup => exact ⟨credit, .still hf fun h => nomatch h⟩
  | finished lookup stage => exact ⟨credit, .still hf fun h => nomatch h⟩
  | running lookup stage => exact ⟨credit, .still hf fun h => nomatch h⟩
  | @unprepared n c e graph f lookup stage form =>
    have hf₁ := hf.setStage lookup (Nat.le_refl _) .running trivial
    rw [update_eq_self] at hf₁
    have hf₂ := hf₁.prepare (f := f.setStage n .running) form
    exact ⟨credit, .still (hf₂.finish (construction?_setStage_self lookup .running) _)
      fun h => nomatch h⟩
  | @prepared n c raw graph f p f' lookup stage form rest ih =>
    obtain ⟨hord', hp⟩ := hord.pollFresh lookup stage raw
    obtain ⟨hcredit, hf₁⟩ := hf.begin lookup stage form
    have hbuild : (o.strategy.build raw).Stops size degree (update credit n (degree + 1) n)
        (((f.setStage n .running).setGraph graph).setRaw n raw).bench := by
      rw [update_self, hs]
      exact Counting.stops_build suspends raw hf₁.graph
    obtain ⟨credit', h⟩ := ih hord' hp hf₁ hbuild
    refine ⟨credit', h.of_drive lookup (stage ▸ fun h => nomatch h) hcredit (fun m hm => ?_) ?_⟩
    · exact (running_setRaw n m raw).mpr (hm.setStage lookup)
    · rintro moved rfl
      exact rest.open_of_pending hord' hp
  | @resumed n c next f p f' lookup stage rest ih =>
    obtain ⟨hord', hp⟩ := hord.poll lookup (stage ▸ Stage.open_suspended next)
    obtain ⟨j, hj, hnext⟩ : (Stage.suspended next).Funded size degree (credit n) :=
      stage ▸ hf.stage n c lookup
    have hf₁ := hf.setStage lookup (Nat.le_of_lt hj) .running trivial
    have hstops : next.Stops size degree (update credit n j n) (f.setStage n .running).bench := by
      rw [update_self]
      exact hnext _ hf.graph
    obtain ⟨credit', h⟩ := ih hord' hp hf₁ hstops
    refine ⟨credit', h.of_drive lookup (stage ▸ fun h => nomatch h) hj
      (fun m hm => hm.setStage lookup) ?_⟩
    rintro moved rfl
    exact rest.open_of_pending hord' hp
  | @awaited n c other next f p f' lookup stage _ ih =>
    obtain ⟨hord', hatt'⟩ := hord.pollAwaiting lookup stage
    have hnext : (Stage.awaiting other next).Funded size degree (credit n) :=
      stage ▸ hf.stage n c lookup
    have hf₁ := hf.setStage lookup (Nat.le_refl _) .running trivial
    rw [update_eq_self] at hf₁
    obtain ⟨credit', h⟩ := ih hord' hatt' hf₁ hnext
    refine ⟨credit', h.funded, h.le, fun m hm _ => ?_, fun hpending => ?_⟩
    · exact h.spares m (hm.setStage lookup) (hm.ne lookup (stage ▸ fun h => nomatch h))
    · exact (h.pays hpending).resolve_left fun h => nomatch h

end Factory

end Wiring

import Wiring.Proofs.Requests
import Wiring.Session

/-!
# What sessions keep

A command of a session does one of three things to its pools (`Session.Moves`): it leaves them as
they are while the graph may grow, it opens a pool, or it lets one pool join requests. An invariant
of pools (`Session.Invariant`) has one case for each, and holds of every pool of every session that
can be reached (`Session.Invariant.run`).

Between commands all pools are at rest (`Pool.AtRest`): their registries are in order and no
construction is being polled. Over time registries lead to later ones (`Session.Leads`).
-/

namespace Wiring

/-- How a join ended, if it is what an answer tells. -/
def Answer.joined? : Answer → Option Joined
  | .joined outcome => some outcome
  | .updated _ | .verdict _ | .captured _ | .opened _ | .prepared _ | .noPool => none

theorem Answer.joined?_eq_some {answer : Answer} {joined : Joined} :
    answer.joined? = some joined ↔ answer = .joined joined := by
  cases answer <;> simp [joined?]

/-- The results of a join that has not ended in a deadlock. -/
def Joined.results? : Joined → Option (List (Except BuildError Json))
  | .answers results => some results
  | .deadlock => none

theorem Joined.results?_eq_some {joined : Joined} {results : List (Except BuildError Json)} :
    joined.results? = some results ↔ joined = .answers results := by
  cases joined <;> simp [results?]

/-- A pool between commands, in a session with a certain graph. -/
structure Pool.AtRest (g : Graph) (p : Pool) : Prop where
  on : (p.floor { graph := g }).On .standing
  still : ∀ n, ¬ p.registry.Running n

/-- The standing terms depend on the graph only, and last while it is extended. -/
theorem Floor.On.extend {f f' : Floor} (h : f.On .standing) (hr : f'.registry = f.registry)
    (hg : f.graph.Extends f'.graph) (hc : f'.graph.Closed) : f'.On .standing where
  orderly := hr ▸ h.orderly
  inv := hc
  registry n c hn := by
    obtain ⟨⟨hvalue, hown⟩, hstage⟩ := h.registry n c (hr ▸ hn)
    rw [hr]
    exact ⟨⟨hg.value hvalue, hown⟩, hstage⟩

/-- A pool that has built nothing is at rest. -/
theorem Pool.atRest_new {g : Graph} (hg : g.Closed) (factory : Factory) (failures : Nat) :
    (Pool.new factory failures).AtRest g where
  on := ⟨Registry.orderly_empty, hg, fun _ _ h => nomatch h⟩
  still _ h := by
    obtain ⟨c, hc, -⟩ := h
    cases hc

namespace Pool.AtRest

variable {g g' : Graph} {p : Pool}

theorem extend (h : p.AtRest g) (hg : g.Extends g') (hc : g'.Closed) : p.AtRest g' :=
  ⟨h.on.extend rfl hg hc, h.still⟩

theorem orderly (h : p.AtRest g) : p.registry.Orderly := h.on.orderly

/-- A pool at rest may go to work on any store with the graph. -/
theorem floor {store : Store} (h : p.AtRest store.graph) : (p.floor store).On .standing :=
  h.on.extend rfl (.refl _) h.on.inv

/-- After a join a pool is at rest again. -/
theorem join {store : Store} {settings : Settings} {configs : List NodeId} {joined : Joined}
    {floor : Floor} (h : p.AtRest store.graph)
    (hj : (p.factory.join settings configs).run (p.floor store) = some (joined, floor)) :
    (p.keep floor).AtRest floor.graph ∧ p.registry.Keeps floor.registry ∧
      store.graph.Grows floor.graph := by
  obtain ⟨hon, hk, hgrow⟩ := (Factory.concludes_of_join hj).upkeep h.floor
  refine ⟨⟨hon.extend rfl (.refl _) hon.inv, fun n hn => ?_⟩, hk, hgrow⟩
  exact h.still n ((hk.running n).mp hn)

end Pool.AtRest

namespace Session

/-- What a command does to the pools. -/
inductive Moves (s : Session) : Answer → Session → Prop
  | grows {answer s'} (pools : s'.pools = s.pools)
      (graph : s.store.graph.Extends s'.store.graph)
      (closed : s.store.graph.Closed → s'.store.graph.Closed) : Moves s answer s'
  | opens (factory : Factory) (failures : Nat) :
      Moves s (.opened s.pools.size) { s with pools := s.pools.push (.new factory failures) }
  | joins {i : Nat} {p settings configs joined floor} (pool : s.pools[i]? = some p)
      (job : (p.factory.join settings configs).run (p.floor s.store) = some (joined, floor)) :
      Moves s (.joined joined)
        { store := floor.bench.store, pools := s.pools.setIfInBounds i (p.keep floor) }

variable {s s' : Session} {answer : Answer}

/-- A job is done by a pool that is there. -/
theorem work_eq_some {α : Type} {i : Nat} {job : Factory → Job α} {tell : α → Answer}
    (h : s.work i job tell = some (answer, s')) :
    (s.pools[i]? = none ∧ answer = .noPool ∧ s' = s) ∨
      ∃ p a floor, s.pools[i]? = some p ∧
        (job p.factory).run (p.floor s.store) = some (a, floor) ∧ answer = tell a ∧
        s' = { store := floor.bench.store, pools := s.pools.setIfInBounds i (p.keep floor) } := by
  unfold work at h
  cases hp : s.pools[i]? with
  | none =>
    rw [hp] at h
    cases h
    exact .inl ⟨rfl, rfl, rfl⟩
  | some p =>
    rw [hp] at h
    obtain ⟨⟨a, floor⟩, hjob, h⟩ := Option.bind_eq_some_iff.mp h
    cases h
    exact .inr ⟨p, a, floor, rfl, hjob, rfl, rfl⟩

theorem getElem?_pools_set {i : Nat} {p : Pool} (hp : s.pools[i]? = some p) (q : Pool) :
    (s.pools.setIfInBounds i q)[i]? = some q :=
  Array.getElem?_setIfInBounds_self_of_lt (Array.getElem?_eq_some_iff.mp hp).1

/-- A join lets one pool work, which keeps what has been built. -/
theorem step_join {i : Nat} {settings : Settings} {configs : List NodeId}
    {joined : Joined} (h : s.step (.join i settings configs) = some (.joined joined, s')) :
    ∃ p floor, s.pools[i]? = some p ∧
      (p.factory.join settings configs).run (p.floor s.store) = some (joined, floor) ∧
      s'.store = floor.bench.store ∧ s'.pools[i]? = some (p.keep floor) := by
  have h : s.work i (·.join settings configs) .joined = some (.joined joined, s') := h
  rcases work_eq_some h with ⟨-, hcon, -⟩ | ⟨p, a, floor, hp, hjob, ha, hs'⟩
  · cases hcon
  · cases ha
    subst hs'
    exact ⟨p, floor, hp, hjob, rfl, getElem?_pools_set hp _⟩

/-- If the pool's join ends, so does the step. -/
theorem step_of_join {i : Nat} {p : Pool} {settings : Settings} {configs : List NodeId}
    {joined : Joined} {floor : Floor} (hp : s.pools[i]? = some p)
    (hj : (p.factory.join settings configs).run (p.floor s.store) = some (joined, floor)) :
    ∃ s', s.step (.join i settings configs) = some (.joined joined, s') ∧
      s'.store = floor.bench.store ∧ s'.pools[i]? = some (p.keep floor) := by
  refine ⟨{ store := floor.bench.store, pools := s.pools.setIfInBounds i (p.keep floor) }, ?_, rfl,
    getElem?_pools_set hp _⟩
  show s.work i (·.join settings configs) .joined = _
  rw [work, hp]
  exact Option.bind_eq_some_iff.mpr ⟨(joined, floor), hj, rfl⟩

theorem moves_of_eq {s₁ s₂ : Session} (hp : s₂.pools = s₁.pools)
    (hg : s₂.store.graph = s₁.store.graph) : s₁.Moves answer s₂ :=
  .grows hp (hg ▸ .refl _) (hg ▸ id)

theorem moves_of_step {c : Command} (h : s.step c = some (answer, s')) :
    s.Moves answer s' := by
  cases c with
  | update u =>
    cases h
    obtain ⟨hext, hclosed⟩ := Graph.extends_apply s.store.graph u
    exact .grows rfl hext hclosed
  | check value source =>
    obtain ⟨r, -, h⟩ := Option.bind_eq_some_iff.mp h
    cases r <;> (cases h; exact moves_of_eq rfl rfl)
  | capture value source =>
    obtain ⟨r, -, h⟩ := Option.bind_eq_some_iff.mp h
    cases r <;> (cases h; exact moves_of_eq rfl rfl)
  | openPool factory failures =>
    cases h
    exact .opens factory failures
  | join i settings configs =>
    have h : s.work i (·.join settings configs) .joined = some (answer, s') := h
    rcases work_eq_some h with ⟨-, rfl, rfl⟩ | ⟨p, joined, floor, hp, hjob, rfl, rfl⟩
    · exact moves_of_eq rfl rfl
    · exact .joins hp hjob
  | prepare i config =>
    have h : s.work i (·.prepare config) .prepared = some (answer, s') := h
    rcases work_eq_some h with ⟨-, rfl, rfl⟩ | ⟨p, raw, floor, hp, hjob, rfl, rfl⟩
    · exact moves_of_eq rfl rfl
    · rw [Factory.prepare_run] at hjob
      have hgrow := Graph.grows_rawConfig p.factory.preprocessors s.store.graph config
      cases hjob
      refine .grows ?_ hgrow.term hgrow.closed
      -- only the graph has changed, so the pool that is put back is the pool itself
      obtain ⟨hi, hpi⟩ := Array.getElem?_eq_some_iff.mp hp
      subst hpi
      exact (Array.setIfInBounds_def ..).trans ((dif_pos hi).trans (Array.set_getElem_self hi))

/-! ## Runs -/

/-- A run of commands and further ones is a run of the former followed by one of the latter. -/
theorem run_append {s s' : Session} {cs ds : List Command} {answers : List Answer}
    (h : s.run (cs ++ ds) = some (answers, s')) :
    ∃ as s₁ bs, s.run cs = some (as, s₁) ∧ s₁.run ds = some (bs, s') ∧ answers = as ++ bs := by
  induction cs generalizing s answers with
  | nil => exact ⟨[], s, answers, rfl, h, rfl⟩
  | cons c cs ih =>
    obtain ⟨⟨a, s₁⟩, hstep, h⟩ := Option.bind_eq_some_iff.mp h
    obtain ⟨⟨as, s₂⟩, hrun, h⟩ := Option.bind_eq_some_iff.mp h
    cases h
    obtain ⟨as₁, s₃, bs, has₁, hbs, rfl⟩ := ih hrun
    refine ⟨a :: as₁, s₃, bs, ?_, hbs, rfl⟩
    exact Option.bind_eq_some_iff.mpr ⟨(a, s₁), hstep, Option.bind_eq_some_iff.mpr ⟨_, has₁, rfl⟩⟩

/-- What a property of steps in certain sessions gives for runs. -/
theorem run_induction {P : Session → Prop} {A : Answer → Prop}
    (step : ∀ {s s' answer}, P s → A answer → s.Moves answer s' → P s')
    {cs : List Command} {answers : List Answer} (h : s.run cs = some (answers, s'))
    (hA : ∀ a ∈ answers, A a) (hs : P s) : P s' := by
  induction cs generalizing s answers with
  | nil =>
    cases h
    exact hs
  | cons c cs ih =>
    obtain ⟨⟨a, s₁⟩, hstep, h⟩ := Option.bind_eq_some_iff.mp h
    obtain ⟨⟨as, s₂⟩, hrun, h⟩ := Option.bind_eq_some_iff.mp h
    cases h
    exact ih hrun (fun a ha => hA a (List.mem_cons_of_mem _ ha))
      (step hs (hA a List.mem_cons_self) (moves_of_step hstep))

/-- A session between commands. -/
structure AtRest (s : Session) : Prop where
  closed : s.store.graph.Closed
  pools : ∀ {i : Nat} {p : Pool}, s.pools[i]? = some p → p.AtRest s.store.graph

/-- An invariant of pools, on the condition that the joins so far had certain outcomes. -/
structure Invariant (A : Joined → Prop) (P : Graph → Pool → Prop) : Prop where
  new : ∀ {g : Graph} (factory : Factory) (failures : Nat), g.Closed → P g (.new factory failures)
  extend : ∀ {g g' : Graph} {p : Pool}, P g p → g.Extends g' → P g' p
  join : ∀ {p : Pool} {store : Store} {settings configs joined floor}, p.AtRest store.graph →
    P store.graph p → A joined →
    (p.factory.join settings configs).run (p.floor store) = some (joined, floor) →
    P floor.graph (p.keep floor)

theorem atRest_empty : Session.AtRest {} where
  closed l hl := by simp at hl
  pools h := by simp at h

theorem getElem?_pools_joins {i j : Nat} {p q r : Pool} (hp : s.pools[i]? = some p)
    (h : (s.pools.setIfInBounds i q)[j]? = some r) :
    (i = j ∧ r = q) ∨ (i ≠ j ∧ s.pools[j]? = some r) := by
  rw [Array.getElem?_setIfInBounds] at h
  by_cases hij : i = j
  · subst hij
    rw [if_pos rfl, if_pos (Array.getElem?_eq_some_iff.mp hp).1] at h
    cases h
    exact .inl ⟨rfl, rfl⟩
  · rw [if_neg hij] at h
    exact .inr ⟨hij, h⟩

/-- Commands keep the invariants of pools. -/
theorem Invariant.moves {A : Joined → Prop} {P : Graph → Pool → Prop} (hP : Invariant A P)
    (h : s.Moves answer s') (hA : ∀ joined, answer = .joined joined → A joined)
    (hrest : s.AtRest) (hs : ∀ {i : Nat} {p : Pool}, s.pools[i]? = some p → P s.store.graph p) :
    s'.AtRest ∧ ∀ {i : Nat} {p : Pool}, s'.pools[i]? = some p → P s'.store.graph p := by
  cases h with
  | grows pools graph closed =>
    refine ⟨⟨closed hrest.closed, ?_⟩, ?_⟩
    · intro i p hp
      exact (hrest.pools (pools ▸ hp)).extend graph (closed hrest.closed)
    · intro i p hp
      exact hP.extend (hs (pools ▸ hp)) graph
  | opens factory failures =>
    refine ⟨⟨hrest.closed, ?_⟩, ?_⟩
    · intro i p hp
      rw [Array.getElem?_push] at hp
      split at hp
      · cases hp
        exact Pool.atRest_new hrest.closed factory failures
      · exact hrest.pools hp
    · intro i p hp
      rw [Array.getElem?_push] at hp
      split at hp
      · cases hp
        exact hP.new factory failures hrest.closed
      · exact hs hp
  | joins pool job =>
    obtain ⟨hkept, -, hgrow⟩ := (hrest.pools pool).join job
    have hclosed := hgrow.closed hrest.closed
    refine ⟨⟨hclosed, ?_⟩, ?_⟩
    · intro i p hp
      rcases getElem?_pools_joins pool hp with ⟨-, rfl⟩ | ⟨-, hp⟩
      · exact hkept
      · exact (hrest.pools hp).extend hgrow.term hclosed
    · intro i p hp
      rcases getElem?_pools_joins pool hp with ⟨-, rfl⟩ | ⟨-, hp⟩
      · exact hP.join (hrest.pools pool) (hs pool) (hA _ rfl) job
      · exact hP.extend (hs hp) hgrow.term

/-- **Invariants of pools hold in all sessions that can be reached.** -/
theorem Invariant.run {A : Joined → Prop} {P : Graph → Pool → Prop} (hP : Invariant A P)
    {cs : List Command} {answers : List Answer} (h : Session.run {} cs = some (answers, s))
    (hA : ∀ joined, .joined joined ∈ answers → A joined) :
    s.AtRest ∧ ∀ {i : Nat} {p : Pool}, s.pools[i]? = some p → P s.store.graph p := by
  refine run_induction (A := fun a => ∀ joined, a = .joined joined → A joined) ?_ h
    (P := fun s => s.AtRest ∧ ∀ {i : Nat} {p : Pool}, s.pools[i]? = some p → P s.store.graph p) ?_
    ⟨atRest_empty, fun hp => by simp at hp⟩
  · exact fun ⟨hrest, hs⟩ hA hm => hP.moves hm hA hrest hs
  · rintro a ha joined rfl
    exact hA joined ha

/-- All sessions are at rest between commands. -/
theorem atRest_of_run {cs : List Command} {answers : List Answer}
    (h : Session.run {} cs = some (answers, s)) : s.AtRest :=
  have hP : Invariant (fun _ => True) fun _ _ => True :=
    ⟨fun _ _ _ => trivial, fun _ _ => trivial, fun _ _ _ _ => trivial⟩
  (hP.run h fun _ _ => trivial).1

/-! ## Later sessions -/

/-- The second session is the first one at a later time. -/
structure Leads (s s' : Session) : Prop where
  graph : s.store.graph.Extends s'.store.graph
  pools : ∀ {i : Nat} {p : Pool}, s.pools[i]? = some p →
    ∃ p', s'.pools[i]? = some p' ∧ p'.factory = p.factory ∧ p.registry.Leads p'.registry

namespace Leads

theorem refl (s : Session) : s.Leads s := ⟨.refl _, fun hp => ⟨_, hp, rfl, .refl _⟩⟩

theorem trans {s₁ s₂ s₃ : Session} (h₁ : s₁.Leads s₂) (h₂ : s₂.Leads s₃) : s₁.Leads s₃ where
  graph := h₁.graph.trans h₂.graph
  pools hp := by
    obtain ⟨p₂, hp₂, hf₂, hl₂⟩ := h₁.pools hp
    obtain ⟨p₃, hp₃, hf₃, hl₃⟩ := h₂.pools hp₂
    exact ⟨p₃, hp₃, hf₃.trans hf₂, hl₂.trans hl₃⟩

end Leads

theorem Moves.leads (h : s.Moves answer s') (hrest : s.AtRest) : s'.AtRest ∧ s.Leads s' := by
  have hP : Invariant (fun _ => True) fun _ _ => True :=
    ⟨fun _ _ _ => trivial, fun _ _ => trivial, fun _ _ _ _ => trivial⟩
  refine ⟨(hP.moves h (fun _ _ => trivial) hrest fun _ => trivial).1, ?_⟩
  cases h with
  | grows pools graph _ => exact ⟨graph, fun hp => ⟨_, pools ▸ hp, rfl, .refl _⟩⟩
  | opens factory failures =>
    refine ⟨.refl _, fun {i p} hp => ⟨p, ?_, rfl, .refl _⟩⟩
    rw [Array.getElem?_push, if_neg (Nat.ne_of_lt (Array.getElem?_eq_some_iff.mp hp).1), hp]
  | @joins i p settings configs joined floor pool job =>
    obtain ⟨-, hk, hgrow⟩ := (hrest.pools pool).join job
    refine ⟨hgrow.term, fun {j q} hq => ?_⟩
    by_cases hij : i = j
    · subst hij
      obtain rfl : p = q := Option.some.inj (pool.symm.trans hq)
      exact ⟨_, getElem?_pools_set pool _, rfl, hk.leads⟩
    · refine ⟨q, ?_, rfl, .refl _⟩
      show (s.pools.setIfInBounds i (p.keep floor))[j]? = some q
      rw [Array.getElem?_setIfInBounds, if_neg hij, hq]

theorem run_leads {cs : List Command} {answers : List Answer}
    (h : s.run cs = some (answers, s')) (hrest : s.AtRest) : s'.AtRest ∧ s.Leads s' :=
  run_induction (A := fun _ => True) (P := fun s' => s'.AtRest ∧ s.Leads s')
    (fun ⟨hrest, hl⟩ _ hm => ⟨(hm.leads hrest).1, hl.trans (hm.leads hrest).2⟩) h
    (fun _ _ => trivial) ⟨hrest, .refl s⟩

end Session

end Wiring

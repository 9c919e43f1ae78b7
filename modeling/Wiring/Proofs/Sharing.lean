import Wiring.Proofs.Sessions

/-!
# Constructions are shared

In the journal of a pool a key never has two constructions in flight, and one that succeeds is the
last one of its key; all who wait for it receive the same instance, and all who wait for one that
fails receive its error (`Journal.OncePerKey`). This holds of every pool in every session, in
whatever order requests are polled and however they end (`Session.once_per_key`).

The journal has all answers: what a join answers to a request was either given at once, without any
construction, or received from a construction of the key that the config had by then
(`Pool.Obtains`).
-/

namespace Wiring

namespace Journal

/-- What a journal says of the constructions of a key. -/
structure OncePerKey (j : Journal) (key : String) : Prop where
  /-- A construction starts when every earlier one has failed. -/
  restarts : ∀ before n after, j = before ++ .started n key :: after →
    ∀ m, .started m key ∈ before → ∃ e, .ended m (.error e) ∈ before
  /-- At no time two constructions are in flight. -/
  apart : ∀ before, before <+: j → ∀ m n, .started m key ∈ before → .started n key ∈ before →
    InFlight before m → InFlight before n → m = n
  /-- At most one construction succeeds. -/
  success : ∀ m n v w, .started m key ∈ j → .started n key ∈ j →
    .ended m (.ok v) ∈ j → .ended n (.ok w) ∈ j → m = n ∧ v = w
  /-- All who receive an instance receive the one that was built. -/
  shared : ∀ m n v w waiter other, .started m key ∈ j → .started n key ∈ j →
    .received waiter m (.ok v) ∈ j → .received other n (.ok w) ∈ j →
    m = n ∧ v = w ∧ .ended m (.ok v) ∈ j
  /-- All who receive something from a construction that fails receive its error. -/
  failure : ∀ n e waiter result, .started n key ∈ j → .ended n (.error e) ∈ j →
    .received waiter n result ∈ j → result = .error e
  /-- A construction that receives an error ends with it. -/
  passedOn : ∀ n e waiter, .started n key ∈ j → .received (some waiter) n (.error e) ∈ j →
    .ended waiter (.error e) ∈ j

/-- Constructions that receive an error end with it. -/
def PassesOn (j : Journal) : Prop :=
  ∀ n e waiter, .received (some waiter) n (.error e) ∈ j → .ended waiter (.error e) ∈ j

theorem Lawful.oncePerKey {j : Journal} (h : Lawful j) (hpass : PassesOn j) (key : String) :
    OncePerKey j key where
  restarts before n after hj := (h before _ after hj).2
  apart before hb m n hm hn hfm hfn := by
    obtain ⟨rest, rfl⟩ := hb
    exact h.left.apart hm hn hfm hfn
  success m n v w hm hn hv hw := h.success hm hn hv hw
  shared m n v w waiter other hm hn hv hw := by
    obtain ⟨hmn, hvw⟩ := h.shared hm hn hv hw
    exact ⟨hmn, hvw, h.ended_of_received hv⟩
  failure n e waiter result _ he hr := h.received_error he hr
  passedOn n e waiter _ hr := hpass n e waiter hr

theorem PassesOn.concat {j : Journal} {e : Event} (h : PassesOn j)
    (he : ∀ n x waiter, e ≠ .received (some waiter) n (.error x)) : PassesOn (j ++ [e]) := by
  intro n x waiter hr
  rcases List.mem_append.mp hr with hr | hr
  · exact List.mem_append_left _ (h n x waiter hr)
  · exact absurd (List.mem_singleton.mp hr).symm (he n x waiter)

/-- A construction ends as soon as it has received an error. -/
theorem PassesOn.pass {j : Journal} (h : PassesOn j) (waiter n : Nat) (x : BuildError) :
    PassesOn (j ++ [.received (some waiter) n (.error x)] ++ [.ended waiter (.error x)]) := by
  intro m y other hr
  have hr : .received (some other) m (.error y) ∈ j ∨ other = waiter ∧ m = n ∧ y = x := by
    simpa using hr
  rcases hr with hr | ⟨rfl, -, rfl⟩
  · simp [h m y other hr]
  · simp

end Journal

namespace Factory

open Journal

variable {o : Factory} {settings : Settings} {f f₁ f' : Floor}

theorem passesOn_finish (h : PassesOn f.registry.journal.toList) (n : Nat)
    (result : Except BuildError Json) : PassesOn (f.finish n result).registry.journal.toList := by
  rw [Floor.finish, Registry.journal_finish]
  exact h.concat fun _ _ _ hcon => nomatch hcon

theorem passesOn_enter {entry : Entry} {config : NodeId}
    (h : PassesOn f.registry.journal.toList) (he : o.enter config settings f = (entry, f₁)) :
    PassesOn f₁.registry.journal.toList := by
  cases entry with
  | answered result =>
    obtain ⟨rfl, -⟩ := enter_answered he
    exact h
  | waiting n =>
    obtain ⟨key, -, ⟨-, rfl⟩ | ⟨-, hstart⟩⟩ := enter_waiting he
    · exact h
    · cases hstart
      show PassesOn (f.registry.start config key (settings.descend key)).2.journal.toList
      rw [Registry.journal_start]
      exact h.concat fun _ _ _ hcon => nomatch hcon

theorem passesOn_receive (h : PassesOn f.registry.journal.toList) (n : Nat) {waiter : Option Nat}
    {result : Except BuildError Json} (hr : ∀ m x, waiter = some m → result ≠ .error x) :
    PassesOn (f.receive waiter n result).registry.journal.toList := by
  rw [Floor.receive, Registry.journal_record]
  refine h.concat ?_
  intro m x k hcon
  cases hcon
  exact hr k x rfl rfl

/-- No work drops an error. -/
theorem Runs.passesOn {t : Task} {p : Progress} (h : Runs o t f p f')
    (hp : PassesOn f.registry.journal.toList) : PassesOn f'.registry.journal.toList := by
  induction h with
  | done v => exact passesOn_finish hp _ _
  | fail e => exact passesOn_finish hp _ _
  | suspend next => exact hp
  | read _ ih => exact ih hp
  | write _ ih => exact ih hp
  | answered entry _ ih => exact ih (passesOn_enter hp entry)
  | refused entry => exact passesOn_finish (passesOn_enter hp entry) _ _
  | request entry _ ih => exact ih (passesOn_enter hp entry)
  | received _ _ ihp ihr => exact ihr (passesOn_receive (ihp hp) _ fun _ _ _ h => nomatch h)
  | @passedOn n settings other next moved e f f₁ _ ihp =>
    rw [Floor.finish, Registry.journal_finish, Floor.receive, Registry.journal_record]
    exact (ihp hp).pass n other e
  | blocked _ ihp => exact ihp hp
  | missing lookup => exact hp
  | finished lookup stage => exact hp
  | running lookup stage => exact hp
  | @unprepared n c e graph f _ _ _ =>
    exact passesOn_finish (f := (f.setStage n .running).setGraph graph) hp n _
  | prepared lookup stage form _ ih => exact ih hp
  | resumed lookup stage _ ih => exact ih hp
  | awaited lookup stage _ ih => exact ih hp

theorem Serves.passesOn {r r' : Request} {moved : Bool} (h : Serves o settings r f r' moved f')
    (hp : PassesOn f.registry.journal.toList) : PassesOn f'.registry.journal.toList := by
  induction h with
  | settled => exact hp
  | answered entry => exact passesOn_enter hp entry
  | entered entry _ ih => exact ih (passesOn_enter hp entry)
  | received poll => exact passesOn_receive (poll.passesOn hp) _ fun _ _ h => nomatch h
  | pending poll => exact poll.passesOn hp

end Factory

/-! ## What callers obtain -/

namespace Factory

/-- How a request for a config was answered while the journal and the graph went on from one form
to another: at once, or by a construction of the key that the config had then. That construction
had not failed before. -/
def Obtains (o : Factory) (j j' : Journal) (g g' : Graph) (settings : Settings) (config : NodeId)
    (result : Except BuildError Json) : Prop :=
  ∃ h, g.Grows h ∧ h.Grows g' ∧ (Direct o h settings config result ∨
    ∃ key n, Constructs h settings config key ∧ (∀ e, .ended n (.error e) ∉ j) ∧
      .started n key ∈ j' ∧ .received none n result ∈ j')

/-- How a request comes to what it obtains. -/
def Traced (o : Factory) (j : Journal) (g : Graph) (settings : Settings) (config : NodeId) :
    Request → Floor → Prop
  | .new d, _ => d = config
  | .waiting n, f => ∃ h key c, g.Grows h ∧ h.Grows f.graph ∧ Constructs h settings config key ∧
      (∀ e, .ended n (.error e) ∉ j) ∧ f.registry.construction? n = some c ∧ c.key = key
  | .settled result, f => o.Obtains j f.registry.journal.toList g f.graph settings config result

variable {o : Factory} {j : Journal} {g : Graph} {settings : Settings} {config : NodeId}
  {f f' : Floor}

theorem Obtains.later {j₁ j₂ : Journal} {g₁ g₂ : Graph} {result : Except BuildError Json}
    (h : o.Obtains j j₁ g g₁ settings config result) (hj : j₁ <+: j₂) (hg : g₁.Grows g₂) :
    o.Obtains j j₂ g g₂ settings config result := by
  obtain ⟨h, hgh, hhg, hcase⟩ := h
  refine ⟨h, hgh, hhg.trans hg, hcase.imp_right ?_⟩
  rintro ⟨key, n, hkey, hlive, hstart, hrec⟩
  exact ⟨key, n, hkey, hlive, hj.subset hstart, hj.subset hrec⟩

theorem Traced.later {r : Request} (h : o.Traced j g settings config r f)
    (hl : f.registry.Leads f'.registry) (hg : f.graph.Grows f'.graph) :
    o.Traced j g settings config r f' := by
  cases r with
  | new d => exact h
  | waiting n =>
    obtain ⟨h, key, c, hgh, hhf, hkey, hlive, hc, hckey⟩ := h
    obtain ⟨d, hd, hbec⟩ := hl.becomes hc
    exact ⟨h, key, d, hgh, hhf.trans hg, hkey, hlive, hd, hbec.key.trans hckey⟩
  | settled result => exact Obtains.later h hl.journal hg

/-- A current construction has not failed. -/
theorem not_failed_of_current (hf : f.On .standing) {key : String} {n : Nat}
    (h : f.registry.current? key = some n) (e : BuildError) :
    .ended n (.error e) ∉ f.registry.journal.toList := by
  obtain ⟨c, hc, -, hlive⟩ := (hf.orderly.current_iff key n).mp h
  intro hended
  obtain ⟨d, hd, hs⟩ := (hf.orderly.ended_iff n _).mp hended
  obtain rfl : c = d := Option.some.inj (hc.symm.trans hd)
  exact hlive ⟨e, hs⟩

/-- One poll of a request brings it closer to what it obtains. -/
theorem Serves.traced {r r' : Request} {moved : Bool} (h : Serves o settings r f r' moved f')
    (hf : f.On .standing) (hj : j <+: f.registry.journal.toList) (hg : g.Grows f.graph)
    (hr : o.Traced j g settings config r f) : o.Traced j g settings config r' f' := by
  induction h with
  | settled => exact hr
  | @answered d result f f₁ entry =>
    obtain rfl : d = config := hr
    obtain ⟨rfl, hdirect⟩ := enter_answered entry
    exact ⟨f₁.graph, hg, .refl _, .inl hdirect⟩
  | @entered d n r moved f f₁ f' entry _ ih =>
    obtain rfl : d = config := hr
    obtain ⟨hf₁, hk, -, -⟩ := enter_on (grants_standing d) hf entry
    obtain ⟨key, hkey, ⟨hcur, rfl⟩ | ⟨-, hstart⟩⟩ := enter_waiting entry
    · obtain ⟨c, hc, hckey, -⟩ := (hf.orderly.current_iff key n).mp hcur
      have hlive : ∀ e, .ended n (.error e) ∉ j :=
        fun e he => not_failed_of_current hf hcur e (hj.subset he)
      exact ih hf hj hg ⟨f₁.graph, key, c, hg, .refl _, hkey, hlive, hc, hckey⟩
    · cases hstart
      -- the construction is new, so nothing is said of it in the journal
      have hlive : ∀ e, .ended f.registry.history.size (.error e) ∉ j := by
        intro e he
        obtain ⟨c, hc, -⟩ := (hf.orderly.ended_iff _ _).mp (hj.subset he)
        exact absurd (Registry.lt_size hc) (Nat.lt_irrefl _)
      refine ih hf₁ (hj.trans hk.leads.journal) hg ⟨f.graph, key,
        ⟨⟨d, key, settings.descend key⟩, none, .fresh⟩, hg, .refl _, hkey, hlive, ?_, rfl⟩
      exact Registry.construction?_start_self ..
  | @received n result f f₁ poll =>
    obtain ⟨h, key, c, hgh, hhf, hkey, hlive, hc, hckey⟩ := hr
    obtain ⟨hf₁, hk, hgrow⟩ := poll.on (suit_standing o) hf ⟨c, hc⟩
    obtain ⟨d, hd, hbec⟩ := hk.leads.becomes hc
    refine ⟨h, hgh, hhf.trans hgrow, .inr ⟨key, n, hkey, hlive, ?_, ?_⟩⟩
    · have hstart := (hf₁.orderly.started_iff n key).mpr ⟨d, hd, hbec.key.trans hckey⟩
      rw [Floor.receive, Registry.journal_record]
      exact List.mem_append_left _ hstart
    · rw [Floor.receive, Registry.journal_record]
      exact List.mem_append_right _ List.mem_cons_self
  | @pending n moved f f₁ poll =>
    obtain ⟨h, key, c, hgh, hhf, hkey, hlive, hc, hckey⟩ := hr
    obtain ⟨-, hk, hgrow⟩ := poll.on (suit_standing o) hf ⟨c, hc⟩
    obtain ⟨d, hd, hbec⟩ := hk.leads.becomes hc
    exact ⟨h, key, d, hgh, hhf.trans hgrow, hkey, hlive, hd, hbec.key.trans hckey⟩

/-- All answers of a join are obtained in one of the two ways. -/
theorem Concludes.obtains {configs : List NodeId} {results : List (Except BuildError Json)}
    (h : Concludes o settings (configs.map .new) f (.answers results) f') (hf : f.On .standing) :
    List.Forall₂ (o.Obtains f.registry.journal.toList f'.registry.journal.toList f.graph f'.graph
      settings) configs results := by
  let J (f' : Floor) : Prop :=
    f'.On .standing ∧ f.registry.Leads f'.registry ∧ f.graph.Grows f'.graph
  let P (config : NodeId) (r : Request) (f' : Floor) : Prop :=
    r.Placed f' ∧ o.Traced f.registry.journal.toList f.graph settings config r f'
  have step : ∀ {r f r' moved f'}, J f → (∃ config, P config r f) →
      Serves o settings r f r' moved f' →
      J f' ∧ (∀ config, P config r f → P config r' f') ∧ ∀ config q, P config q f → P config q f' := by
    rintro r f₁ r' moved f₂ ⟨hf₁, hl, hg⟩ ⟨-, hr, -⟩ hserve
    obtain ⟨hf₂, hk, hgrow, hr'⟩ := hserve.upkeep hf₁ hr
    refine ⟨⟨hf₂, hl.trans hk.leads, hg.trans hgrow⟩, ?_, ?_⟩
    · rintro config ⟨-, ht⟩
      exact ⟨hr', hserve.traced hf₁ hl.journal hg ht⟩
    · rintro config q ⟨hq, ht⟩
      exact ⟨hq.leads hk.leads, ht.later hk.leads hgrow⟩
  have hnew : List.Forall₂ (P · · f) configs (configs.map .new) :=
    List.forall₂_map_right_iff.mpr
      (List.forall₂_same.mpr fun d _ => ⟨(fun _ hn => nomatch hn), rfl⟩)
  obtain ⟨-, rs, hP, rfl⟩ := h.each step ⟨hf, .refl _, .refl _⟩ hnew
  exact (List.forall₂_map_right_iff.mp hP).imp fun d r h => h.2

end Factory

/-! ## Sessions -/

namespace Session

/-- No pool ever drops an error. -/
theorem invariant_passesOn :
    Invariant (fun _ => True) fun _ p => Journal.PassesOn p.registry.journal.toList where
  new _ _ _ := by
    intro n e waiter h
    cases h
  extend h _ := h
  join _ h _ hj := by
    obtain ⟨-, hp, -⟩ := (Factory.concludes_of_join hj).invariant
      (I := fun _ f => Journal.PassesOn f.registry.journal.toList)
      (fun hp hserve => hserve.passesOn hp) h
    exact hp

/-- **A key has at most one construction at a time and at most one instance.** All that callers are
answered is given at once or received from a construction of the key of their config. -/
theorem once_per_key {cs : List Command} {answers : List Answer} {s : Session}
    (h : Session.run {} cs = some (answers, s)) {i : Nat} {p : Pool}
    (hp : s.pools[i]? = some p) :
    (∀ key, Journal.OncePerKey p.registry.journal.toList key) ∧
      ∀ before settings configs after, cs = before ++ .join i settings configs :: after →
        ∃ as s₁ answer s₂ bs, Session.run {} before = some (as, s₁) ∧
          s₁.step (.join i settings configs) = some (answer, s₂) ∧
          s₂.run after = some (bs, s) ∧ answers = as ++ answer :: bs ∧
          ∀ p₁ results, s₁.pools[i]? = some p₁ → answer = .joined (.answers results) →
            List.Forall₂ (p.factory.Obtains p₁.registry.journal.toList p.registry.journal.toList
              s₁.store.graph s₂.store.graph settings) configs results := by
  obtain ⟨hrest, hpass⟩ := invariant_passesOn.run h fun _ _ => trivial
  refine ⟨fun key => (hrest.pools hp).orderly.lawful.oncePerKey (hpass hp) key, ?_⟩
  rintro before settings configs after rfl
  -- the session is cut before and after the join
  obtain ⟨as, s₁, bs', has, hrun, rfl⟩ := run_append h
  obtain ⟨⟨answer, s₂⟩, hstep, hrun⟩ := Option.bind_eq_some_iff.mp hrun
  obtain ⟨⟨bs, s₃⟩, hbs, hrun⟩ := Option.bind_eq_some_iff.mp hrun
  cases hrun
  refine ⟨as, s₁, answer, s₂, bs, has, hstep, hbs, rfl, ?_⟩
  rintro p₁ results hp₁ rfl
  have hrest₁ := atRest_of_run has
  obtain ⟨hrest₂, -⟩ := (moves_of_step hstep).leads hrest₁
  obtain ⟨-, hlater⟩ := run_leads hbs hrest₂
  obtain ⟨p₂, floor, hp₂, hj, hstore, hkept⟩ := step_join hstep
  obtain rfl : p₁ = p₂ := Option.some.inj (hp₁.symm.trans hp₂)
  -- the pool in the end is the pool that joined, at a later time
  obtain ⟨p', hp', hfactory, hl⟩ := hlater.pools hkept
  obtain rfl : p = p' := Option.some.inj (hp.symm.trans hp')
  have hobt := (Factory.concludes_of_join hj).obtains (hrest₁.pools hp₁).floor
  rw [hfactory, hstore]
  exact hobt.imp fun config result hr => hr.later hl.journal (.refl _)

/-- A config whose first build fails is requested twice at once, and twice again. -/
def retried : List Command :=
  [.update (.named "ex:a"), .update (.literal "App"),
    .update (.addProperty 0 Components.requireName 1),
    .update (.addProperty 0 Dependency.flaky 1),
    .openPool { strategy := .counting true } 1, .join 0 {} [0, 0], .join 0 {} [0, 0]]

/-- The four requests share two constructions, a failed one and its successor. -/
theorem once_per_key_retried : ∃ answers s p,
    Session.run {} retried = some (answers, s) ∧ s.pools[0]? = some p ∧
      p.registry.history.size = 2 ∧ Journal.OncePerKey p.registry.journal.toList "ex:a" := by
  have hrun : (Session.run {} retried).any fun out =>
      out.2.pools[0]?.any fun p => p.registry.history.size == 2 := by decide +kernel
  obtain ⟨⟨answers, s⟩, h, hpool⟩ := (Option.any_eq_true _ _).mp hrun
  obtain ⟨p, hp, hsize⟩ := (Option.any_eq_true _ _).mp hpool
  exact ⟨answers, s, p, h, hp, beq_iff_eq.mp hsize, (once_per_key h hp).1 "ex:a"⟩

end Session

end Wiring

import Wiring.Proofs.Deadlock
import Wiring.Proofs.Sessions

/-!
# Where constructions come from

A construction is started for a caller's request, or for a request of another construction, whose
settings it extends by its own key. The other one is then in flight for as long as it is: it waits
until the one that it has started ends (`Registry.Raised`). So the keys in progress for a construction
are those of the constructions on its path, all of which are under construction, and those that its
caller had in progress (`Registry.Path`).

In contrast to an owner, the construction that has started another one stays the same when that one is
shared, and it is known after the end of both. This holds in every session (`Session.raised_of_run`).
-/

namespace Wiring

namespace Journal

/-- The first construction is in flight whenever the second one is. -/
def Encloses (j : Journal) (m n : Nat) : Prop :=
  ∀ before, before <+: j → InFlight before n → InFlight before m

theorem Encloses.refl (j : Journal) (n : Nat) : j.Encloses n n := fun _ _ => id

theorem Encloses.trans {j : Journal} {k m n : Nat} (h₁ : j.Encloses k m) (h₂ : j.Encloses m n) :
    j.Encloses k n :=
  fun before hb hn => h₁ before hb (h₂ before hb hn)

/-- With one more event there is one more moment to look at. -/
theorem Encloses.concat {j : Journal} {m n : Nat} (h : j.Encloses m n) {e : Event}
    (hlast : InFlight (j ++ [e]) n → InFlight (j ++ [e]) m) : Encloses (j ++ [e]) m n := by
  intro before hb hn
  rcases List.prefix_concat_iff.mp hb with rfl | hb
  · exact hlast hn
  · exact h before hb hn

end Journal

open Journal

namespace Registry

variable {r r' : Registry} {base : Settings → Prop} {W W' : Nat → Nat → Prop} {m n k other : Nat}

/-- The constructions in flight are the open ones. -/
theorem Orderly.inFlight_iff (h : r.Orderly) : InFlight r.journal.toList n ↔ r.IsOpen n := by
  constructor
  · rintro ⟨⟨key, hstart⟩, hlive⟩
    obtain ⟨c, hc, -⟩ := (h.started_iff n key).mp hstart
    exact ⟨c, hc, fun result hs => hlive result ((h.ended_iff n result).mpr ⟨c, hc, hs⟩)⟩
  · rintro ⟨c, hc, hopen⟩
    refine ⟨⟨c.key, (h.started_iff n c.key).mpr ⟨c, hc, rfl⟩⟩, fun result hended => ?_⟩
    obtain ⟨d, hd, hs⟩ := (h.ended_iff n result).mp hended
    obtain rfl : c = d := Option.some.inj (hc.symm.trans hd)
    exact hopen result hs

theorem Running.isOpen (h : r.Running n) : r.IsOpen n := by
  obtain ⟨c, hc, hs⟩ := h
  exact ⟨c, hc, hs ▸ Stage.open_running⟩

/-- Construction `m` has started construction `n`, is in flight whenever that one is, and waits for
it. While `m` is being polled, an excuse takes the place of its wait. -/
structure Starts (r : Registry) (W : Nat → Nat → Prop) (m n : Nat) : Prop where
  lt : m < n
  settings : ∃ c d, r.construction? m = some c ∧ r.construction? n = some d ∧
    d.settings = c.settings.descend d.key
  encloses : Encloses r.journal.toList m n
  waits : r.IsOpen n → W m n ∨ r.Awaits m n

/-- Each construction has been started for a caller with certain settings, or by another one. -/
def Raised (base : Settings → Prop) (W : Nat → Nat → Prop) (r : Registry) : Prop :=
  ∀ n c, r.construction? n = some c →
    (∃ s, base s ∧ c.settings = s.descend c.key) ∨ ∃ m, r.Starts W m n

theorem raised_empty : Raised base W {} := fun _ _ h => nomatch h

/-! ## What the operations of a registry keep -/

/-- What is open later on was open before, if it was there. -/
theorem isOpen_of_leads (hl : r.Leads r') {c : Construction} (hc : r.construction? n = some c)
    (h : r'.IsOpen n) : r.IsOpen n := by
  by_contra hended
  obtain ⟨result, hs⟩ := result_of_not_open hended hc
  obtain ⟨d, hd, hbec⟩ := hl.becomes hc
  obtain ⟨d', hd', hopen⟩ := h
  obtain rfl : d = d' := Option.some.inj (hd.symm.trans hd')
  exact hopen result (hbec.result result hs)

/-- One event later, a construction still waits for those that it has started. -/
theorem Starts.later (h : r.Starts W m n) (hl : r.Leads r') (hord : r'.Orderly)
    (hjournal : r'.journal = r.journal ∨ ∃ e, r'.journal.toList = r.journal.toList ++ [e])
    (hwaits : W m n ∨ r.Awaits m n → r'.IsOpen n → (W' m n ∨ r'.Awaits m n) ∧ r'.IsOpen m) :
    r'.Starts W' m n := by
  obtain ⟨c, d, hc, hd, hset⟩ := h.settings
  obtain ⟨c', hc', hcbec⟩ := hl.becomes hc
  obtain ⟨d', hd', hdbec⟩ := hl.becomes hd
  have hnow : r'.IsOpen n → (W' m n ∨ r'.Awaits m n) ∧ r'.IsOpen m :=
    fun hn => hwaits (h.waits (isOpen_of_leads hl hd hn)) hn
  refine ⟨h.lt, ⟨c', d', hc', hd', ?_⟩, ?_, fun hn => (hnow hn).1⟩
  · rw [hdbec.settings, hcbec.settings, hdbec.key, hset]
  · rcases hjournal with hsame | ⟨e, he⟩
    · rw [hsame]
      exact h.encloses
    · rw [he]
      refine h.encloses.concat ?_
      rw [← he, hord.inFlight_iff, hord.inFlight_iff]
      exact fun hn => (hnow hn).2

/-- Without new constructions, those that are there stay raised. -/
theorem Raised.later (h : r.Raised base W) (hl : r.Leads r') (hord : r'.Orderly)
    (hback : ∀ {n d}, r'.construction? n = some d → ∃ c, r.construction? n = some c)
    (hjournal : r'.journal = r.journal ∨ ∃ e, r'.journal.toList = r.journal.toList ++ [e])
    (hwaits : ∀ m n, W m n ∨ r.Awaits m n → r'.IsOpen n →
      (W' m n ∨ r'.Awaits m n) ∧ r'.IsOpen m) : r'.Raised base W' := by
  intro n d hd
  obtain ⟨c, hc⟩ := hback hd
  obtain ⟨d', hd', hbec⟩ := hl.becomes hc
  obtain rfl : d = d' := Option.some.inj (hd.symm.trans hd')
  rcases h n c hc with ⟨s, hs, hset⟩ | ⟨m, hm⟩
  · exact .inl ⟨s, hs, by rw [hbec.settings, hbec.key, hset]⟩
  · exact .inr ⟨m, hm.later hl hord hjournal (hwaits m n)⟩

/-- Excuses may become more. -/
theorem Raised.excuse (h : r.Raised base W) (hW : ∀ m n, W m n → W' m n) : r.Raised base W' := by
  intro n c hc
  refine (h n c hc).imp_right ?_
  rintro ⟨m, hm⟩
  exact ⟨m, hm.lt, hm.settings, hm.encloses, fun hn => (hm.waits hn).imp_left (hW m n)⟩

/-- A construction may change if it still waits for those that it has started. -/
theorem Raised.change (h : r.Raised base W) (hl : r.Leads r') (hord : r'.Orderly)
    (hother : ∀ {m}, m ≠ n → r'.construction? m = r.construction? m)
    (hself : ∃ c, r.construction? n = some c)
    (hjournal : r'.journal = r.journal ∨ ∃ e, r'.journal.toList = r.journal.toList ++ [e])
    (hW : ∀ {m k}, m ≠ n → W m k → W' m k ∧ r.IsOpen m)
    (hwaits : ∀ k, W n k ∨ r.Awaits n k → (W' n k ∨ r'.Awaits n k) ∧ r'.IsOpen n) :
    r'.Raised base W' := by
  have hback : ∀ {m d}, r'.construction? m = some d → ∃ c, r.construction? m = some c := by
    intro m d hd
    by_cases hm : m = n
    · exact hm ▸ hself
    · exact ⟨d, hother hm ▸ hd⟩
  refine h.later hl hord hback hjournal fun m k hmk _ => ?_
  by_cases hm : m = n
  · subst hm
    exact hwaits k hmk
  · have hstays : ∀ {P : Construction → Prop}, (∃ c, r.construction? m = some c ∧ P c) →
        ∃ c, r'.construction? m = some c ∧ P c := by
      rintro P ⟨c, hc, hP⟩
      exact ⟨c, (hother hm).trans hc, hP⟩
    rcases hmk with hmk | ⟨c, next, hc, hs⟩
    · obtain ⟨hmk', hopen⟩ := hW hm hmk
      exact ⟨.inl hmk', hstays hopen⟩
    · have hawaits : r'.Awaits m k := ⟨c, next, (hother hm).trans hc, hs⟩
      exact ⟨.inr hawaits, hawaits.isOpen⟩

/-- Excuses are for constructions that are being polled, and not for a certain one. -/
structure Excuses (W : Nat → Nat → Prop) (n : Nat) (r : Registry) : Prop where
  running : ∀ {m k}, W m k → r.Running m
  free : ∀ k, ¬ W n k

/-- A construction that is not being polled is not excused. -/
theorem excuses_of_not_running (hW : ∀ {m k}, W m k → r.Running m) (hn : ¬ r.Running n) :
    Excuses W n r :=
  ⟨hW, fun _ hnk => hn (hW hnk)⟩

/-- A construction that is not waiting, and that no excuse is for, may change in any way. -/
theorem Raised.move (h : r.Raised base W) (hW : Excuses W n r) (hl : r.Leads r')
    (hord : r'.Orderly) (hother : ∀ {m}, m ≠ n → r'.construction? m = r.construction? m)
    (hself : ∃ c, r.construction? n = some c) (hidle : ∀ k, ¬ r.Awaits n k)
    (hjournal : r'.journal = r.journal ∨ ∃ e, r'.journal.toList = r.journal.toList ++ [e]) :
    r'.Raised base W :=
  h.change hl hord hother hself hjournal (fun _ hmk => ⟨hmk, (hW.running hmk).isOpen⟩)
    fun k hnk => hnk.elim (fun hcon => absurd hcon (hW.free k)) fun hcon => absurd hcon (hidle k)

theorem Raised.finish (h : r.Raised base W) (hord : r.Orderly) {settings : Settings}
    (hp : r.Polled n settings) (hW : Excuses W n r) (result : Except BuildError Json) :
    (r.finish n result).Raised base W := by
  have hrel := Releases.finish hord hp result
  obtain ⟨c, hc, -⟩ := id hp
  refine h.move hW hrel.leads hrel.orderly (fun hm => ?_) ⟨c, hc⟩ (fun k => hp.not_awaits)
    (.inr ⟨_, journal_finish ..⟩)
  rw [construction?_finish, if_neg (Ne.symm hm)]

theorem Raised.setStage (h : r.Raised base W) {c : Construction} (hc : r.construction? n = some c)
    (hopen : c.stage.Open) (hidle : ∀ k, ¬ r.Awaits n k) (hW : Excuses W n r) {stage : Stage}
    (hord : (r.setStage n stage).Orderly) : (r.setStage n stage).Raised base W := by
  refine h.move hW (leads_setStage hc hopen stage) hord (fun hm => ?_) ⟨c, hc⟩ hidle (.inl rfl)
  rw [construction?_setStage, if_neg (Ne.symm hm)]

theorem Raised.setRaw (h : r.Raised base W) (hord : r.Orderly) {settings : Settings}
    (hp : r.Polled n settings) (hW : Excuses W n r) (raw : NodeId) :
    (r.setRaw n raw).Raised base W := by
  obtain ⟨c, hc, -⟩ := id hp
  refine h.move hW (leads_setRaw r n raw) (hord.setRaw n raw) (fun hm => ?_) ⟨c, hc⟩
    (fun k => hp.not_awaits) (.inl rfl)
  rw [construction?_setRaw, if_neg (Ne.symm hm)]

/-- A result is handed over, after which the receiver waits no more. -/
theorem Raised.receive (h : r.Raised base fun m k => W m k ∨ (m = n ∧ k = other))
    (hord : r.Orderly) {c : Construction} {result : Except BuildError Json}
    (hc : r.construction? other = some c) (hs : c.stage = .finished result)
    (hW : ∀ {m k}, W m k → r.Running m) (waiter : Option Nat) :
    (r.record (.received waiter other result)).Raised base W := by
  refine h.later (leads_record ..) (hord.receive hc hs waiter) (fun hd => ⟨_, hd⟩)
    (.inr ⟨_, journal_record ..⟩) ?_
  rintro m k ((hmk | ⟨-, rfl⟩) | hawaits) hk
  · exact ⟨.inl hmk, (hW hmk).isOpen⟩
  · -- what has ended is not open
    obtain ⟨d, hd, hopen⟩ := hk
    obtain rfl : c = d := Option.some.inj (hc.symm.trans hd)
    exact absurd hs (hopen result)
  · exact ⟨.inr hawaits, hawaits.isOpen⟩

/-- A construction may be started if it is known for whom. -/
theorem Raised.start (h : r.Raised base W) (hord : r.Orderly) {key : String}
    (hfree : r.current? key = none) (config : NodeId) (settings : Settings)
    (hW : ∀ {m k}, W m k → W' m k ∧ r.IsOpen m)
    (hnew : (∃ s, base s ∧ settings = s.descend key) ∨
      (r.start config key settings).2.Starts W' n r.history.size) :
    (r.start config key settings).2.Raised base W' := by
  intro m d hd
  rcases start_cases hd with ⟨rfl, rfl⟩ | ⟨-, hd⟩
  · exact hnew.imp_right fun hstarts => ⟨n, hstarts⟩
  · refine (h m d hd).imp_right ?_
    rintro ⟨k, hk⟩
    refine ⟨k, hk.later (leads_start ..) (hord.start hfree config settings)
      (.inr ⟨_, journal_start ..⟩) fun hkm _ => ?_⟩
    have hstays : r.IsOpen k → (r.start config key settings).2.IsOpen k := by
      rintro ⟨c, hc, hopen⟩
      exact ⟨c, construction?_start_of_some hc .., hopen⟩
    rcases hkm with hkm | ⟨c, next, hc, hs⟩
    · exact ⟨.inl (hW hkm).1, hstays (hW hkm).2⟩
    · have hawaits : (r.start config key settings).2.Awaits k m :=
        ⟨c, next, construction?_start_of_some hc .., hs⟩
      exact ⟨.inr hawaits, hawaits.isOpen⟩

/-- What a construction starts under its settings is its own. -/
theorem starts_start (hord : r.Orderly) {settings : Settings} (hp : r.Polled n settings)
    {key : String} (hfree : r.current? key = none) (config : NodeId)
    (hW : W' n r.history.size) :
    (r.start config key (settings.descend key)).2.Starts W' n r.history.size := by
  obtain ⟨c, hc, hs, rfl⟩ := hp
  have hord' := hord.start hfree config (c.settings.descend key)
  have hopen : (r.start config key (c.settings.descend key)).2.IsOpen n :=
    ⟨c, construction?_start_of_some hc .., hs ▸ Stage.open_running⟩
  refine ⟨lt_size hc, ⟨c, _, construction?_start_of_some hc .., construction?_start_self .., rfl⟩,
    ?_, fun _ => .inl hW⟩
  -- before its start the new construction was not in flight
  have hunborn : Encloses r.journal.toList n r.history.size := by
    rintro before hb ⟨⟨key', hstart⟩, -⟩
    obtain ⟨d, hd, -⟩ := (hord.started_iff _ _).mp (hb.subset hstart)
    exact absurd (lt_size hd) (Nat.lt_irrefl _)
  rw [journal_start]
  refine hunborn.concat fun _ => ?_
  rw [← journal_start]
  exact hord'.inFlight_iff.mpr hopen

/-! ## Paths -/

/-- The way from a construction back to a caller: each construction on it has been started for a
request of the next one, and the last one for a request of the caller. -/
inductive Path (r : Registry) (caller : Settings) : List Nat → Prop
  | root {n c} (here : r.construction? n = some c) (settings : c.settings = caller.descend c.key) :
      Path r caller [n]
  | step {n m rest} (nested : r.Starts (fun _ _ => False) m n)
      (further : Path r caller (m :: rest)) : Path r caller (n :: m :: rest)

namespace Path

variable {caller : Settings} {rest : List Nat} {c : Construction}

/-- A construction has the keys in progress that are on its path, and those of its caller. -/
theorem isInProgress_iff (h : r.Path caller (n :: rest)) (hc : r.construction? n = some c)
    (key : String) : c.settings.isInProgress key = true ↔ caller.isInProgress key = true ∨
      ∃ m ∈ n :: rest, ∃ d, r.construction? m = some d ∧ d.key = key := by
  generalize hpath : n :: rest = path at h
  induction h generalizing n rest c with
  | root here settings =>
    cases hpath
    obtain rfl := Option.some.inj (here.symm.trans hc)
    rw [settings, Settings.isInProgress_descend, or_comm]
    simp [here]
  | @step n m rest nested further ih =>
    cases hpath
    obtain ⟨d, e, hd, he, hset⟩ := nested.settings
    obtain rfl := Option.some.inj (he.symm.trans hc)
    have hself : (∃ d, r.construction? n = some d ∧ d.key = key) ↔ e.key = key := by simp [he]
    rw [hset, Settings.isInProgress_descend, ih hd rfl, or_left_comm]
    refine or_congr_right ?_
    rw [← hself]
    exact (List.exists_mem_cons_iff (fun m => ∃ d, r.construction? m = some d ∧ d.key = key) n _).symm

/-- All constructions on the path of one that is in flight are in flight. -/
theorem encloses (h : r.Path caller (n :: rest)) {m : Nat} (hm : m ∈ n :: rest) :
    Encloses r.journal.toList m n := by
  generalize hpath : n :: rest = path at h
  induction h generalizing n rest with
  | root here settings =>
    cases hpath
    exact List.mem_singleton.mp hm ▸ .refl _ _
  | step nested further ih =>
    cases hpath
    rcases List.mem_cons.mp hm with rfl | hm
    · exact .refl _ _
    · exact (ih hm rfl).trans nested.encloses

end Path

/-- Every construction has a path. -/
theorem Raised.exists_path (h : r.Raised base fun _ _ => False) {c : Construction}
    (hc : r.construction? n = some c) : ∃ caller rest, base caller ∧ r.Path caller (n :: rest) := by
  induction n using Nat.strongRecOn generalizing c with
  | ind n ih =>
    rcases h n c hc with ⟨s, hs, hset⟩ | ⟨m, hm⟩
    · exact ⟨s, [], hs, .root hc hset⟩
    · obtain ⟨d, -, hd, -⟩ := hm.settings
      obtain ⟨caller, rest, hcaller, hpath⟩ := ih m hm.lt hd
      exact ⟨caller, m :: rest, hcaller, .step hm hpath⟩

end Registry

open Registry

/-- While a task waits, its construction is excused for the one that it waits for. -/
def Task.Excused (W : Nat → Nat → Prop) : Task → Nat → Nat → Prop
  | .wait n _ other _ _, m, k => W m k ∨ (m = n ∧ k = other)
  | _, m, k => W m k

/-- A task that carries on a build is not excused further out. -/
def Task.Free (W : Nat → Nat → Prop) : Task → Prop
  | .poll _ => True
  | .drive n _ _ => ∀ k, ¬ W n k
  | .wait n _ _ _ _ => ∀ k, ¬ W n k

namespace Factory

variable {o : Factory} {settings : Settings} {f f₁ f' : Floor} {base : Settings → Prop}
  {W : Nat → Nat → Prop}

/-- A request of a construction waits for one that is raised. -/
theorem enter_raised {n other : Nat} {d : NodeId} (hr : f.registry.Raised base W)
    (hord : f.registry.Orderly) (hp : f.registry.Polled n settings)
    (hW : ∀ {m k}, W m k → f.registry.Running m)
    (he : o.enter d settings f = (.waiting other, f₁)) :
    f₁.registry.Raised base fun m k => W m k ∨ (m = n ∧ k = other) := by
  obtain ⟨key, -, ⟨-, rfl⟩ | ⟨hfree, hstart⟩⟩ := enter_waiting he
  · exact hr.excuse fun _ _ => .inl
  · cases hstart
    exact hr.start hord hfree d _ (fun hmk => ⟨.inl hmk, (hW hmk).isOpen⟩)
      (.inr (starts_start hord hp hfree d (.inr ⟨rfl, rfl⟩)))

/-- The constructions that are excused in a nested poll are being polled. -/
theorem excused_running {n other : Nat} (hp : f.registry.Polled n settings)
    (hW : ∀ {m k}, W m k → f.registry.Running m) {m k : Nat}
    (h : W m k ∨ (m = n ∧ k = other)) : f.registry.Running m := by
  rcases h with hmk | ⟨rfl, -⟩
  · exact hW hmk
  · exact hp.running

/-- A construction that is new or suspended begins to be polled. -/
theorem begin_raised {n : Nat} {c : Construction} (hr : f.registry.Raised base W)
    (hord : f.registry.Orderly) (hW : ∀ {m k}, W m k → f.registry.Running m)
    (lookup : f.registry.construction? n = some c) (hopen : c.stage.Open)
    (hrun : c.stage ≠ .running) (hidle : ∀ other next, c.stage ≠ .awaiting other next) :
    (f.registry.setStage n .running).Raised base W ∧
      Excuses W n (f.registry.setStage n .running) := by
  have hn : ¬ f.registry.Running n := fun h => h.ne lookup hrun rfl
  have hk : Excuses W n f.registry := excuses_of_not_running hW hn
  refine ⟨hr.setStage lookup hopen ?_ hk (hord.poll lookup hopen).1,
    fun hmk => (hW hmk).setStage lookup, hk.free⟩
  rintro k ⟨d, next, hd, hs⟩
  obtain rfl : c = d := Option.some.inj (lookup.symm.trans hd)
  exact hidle k next hs

/-- After its poll a construction has ended, and its result is handed over. -/
theorem Runs.raised_receive {n other : Nat} {result : Except BuildError Json}
    (poll : Runs o (.poll other) f (.ready result) f₁) (hord : f.registry.Orderly)
    (hother : ∃ d, f.registry.construction? other = some d)
    (hW : ∀ {m k}, W m k → f.registry.Running m)
    (hr : f₁.registry.Raised base fun m k => W m k ∨ (m = n ∧ k = other)) (waiter : Option Nat) :
    (f₁.receive waiter other result).registry.Raised base W := by
  obtain ⟨hk, c, hc, hs⟩ := poll.upkeep hord hother
  exact Raised.receive hr hk.orderly hc hs (fun hmk => (hk.running _).mpr (hW hmk)) waiter

/-- **Work raises the constructions that it starts.** -/
theorem Runs.raised {t : Task} {p : Progress} (h : Runs o t f p f') (hord : f.registry.Orderly)
    (hatt : t.Attends f.registry) (hW : ∀ {m k}, W m k → f.registry.Running m) (hfree : t.Free W)
    (hr : f.registry.Raised base (t.Excused W)) : f'.registry.Raised base W := by
  -- by induction on the work, for all excuses: a nested poll has one more than the task around it
  induction h generalizing W with
  | done v => exact Raised.finish hr hord hatt ⟨hW, hfree⟩ _
  | fail e => exact Raised.finish hr hord hatt ⟨hW, hfree⟩ _
  | @suspend n settings f next =>
    obtain ⟨c, hc, -⟩ := id hatt
    exact Raised.setStage hr hc (hatt.open hc) (fun k => hatt.not_awaits) ⟨hW, hfree⟩
      (hord.setStage hc (hatt.open hc) (Stage.open_suspended next) fun _ _ hcon => nomatch hcon)
  | read _ ih => exact ih hord hatt hW hfree hr
  | write _ ih => exact ih hord hatt hW hfree hr
  | answered entry _ ih =>
    obtain ⟨rfl, -⟩ := enter_answered entry
    exact ih hord hatt hW hfree hr
  | refused entry =>
    obtain ⟨rfl, -⟩ := enter_answered entry
    exact Raised.finish hr hord hatt ⟨hW, hfree⟩ _
  | request entry _ ih =>
    obtain ⟨hk, -, hd⟩ := keeps_of_enter hord entry
    exact ih hk.orderly ⟨hatt.keeps hk, hd⟩ (fun hmk => (hk.running _).mpr (hW hmk)) hfree
      (enter_raised hr hord hatt hW entry)
  | @received n settings other next moved v f f₁ p f' poll _ ihp ihr =>
    have hk' := poll.keeps_receive hord hatt.2 (some n)
    have hr₁ := ihp hord hatt.2 (excused_running hatt.1 hW) trivial hr
    exact ihr hk'.orderly (hatt.1.keeps hk') (fun hmk => (hk'.running _).mpr (hW hmk)) hfree
      (poll.raised_receive hord hatt.2 hW hr₁ (some n))
  | @passedOn n settings other next moved e f f₁ poll ihp =>
    have hk' := poll.keeps_receive hord hatt.2 (some n)
    have hr₁ := ihp hord hatt.2 (excused_running hatt.1 hW) trivial hr
    have hr₂ := poll.raised_receive hord hatt.2 hW hr₁ (some n)
    exact Raised.finish hr₂ hk'.orderly (hatt.1.keeps hk')
      ⟨fun hmk => (hk'.running _).mpr (hW hmk), hfree⟩ _
  | @blocked n settings other next moved further f f₁ poll ihp =>
    obtain ⟨hk, d, hd, -⟩ := poll.upkeep hord hatt.2
    have hp := hatt.1.keeps hk
    obtain ⟨c, hc, -⟩ := id hp
    have hr₁ := ihp hord hatt.2 (excused_running hatt.1 hW) trivial hr
    have hopen := Stage.open_awaiting other next
    have hord' : (f₁.registry.setStage n (.awaiting other next)).Orderly := by
      refine hk.orderly.setStage hc (hp.open hc) hopen ?_
      rintro _ _ ⟨⟩
      exact ⟨d, hd⟩
    have hc' := construction?_setStage_self hc (.awaiting other next)
    -- the excuse for the construction becomes a wait
    refine hr₁.change (leads_setStage hc (hp.open hc) _) hord' (fun hm => ?_) ⟨c, hc⟩ (.inl rfl)
      (fun hm hmk => ?_) fun k hnk => ?_
    · exact (construction?_setStage ..).trans (if_neg (Ne.symm hm))
    · have hmk := hmk.resolve_right fun hcon => hm hcon.1
      exact ⟨hmk, ((hk.running _).mpr (hW hmk)).isOpen⟩
    · rcases hnk with (hcon | ⟨-, rfl⟩) | hcon
      · exact absurd hcon (hfree k)
      · exact ⟨.inr ⟨_, next, hc', rfl⟩, _, hc', hopen⟩
      · exact absurd hcon hp.not_awaits
  | missing lookup => exact hr
  | finished lookup stage => exact hr
  | running lookup stage => exact hr
  | @unprepared n c e graph f lookup stage form =>
    obtain ⟨hr₁, hk⟩ := begin_raised hr hord hW lookup (stage ▸ Stage.open_fresh)
      (stage ▸ fun h => nomatch h) fun _ _ => stage ▸ fun h => nomatch h
    obtain ⟨hord', hp⟩ := hord.poll lookup (stage ▸ Stage.open_fresh)
    exact Raised.finish hr₁ hord' hp hk _
  | @prepared n c raw graph f p f' lookup stage form _ ih =>
    obtain ⟨hr₁, hk⟩ := begin_raised hr hord hW lookup (stage ▸ Stage.open_fresh)
      (stage ▸ fun h => nomatch h) fun _ _ => stage ▸ fun h => nomatch h
    obtain ⟨hord₁, hp₁⟩ := hord.poll lookup (stage ▸ Stage.open_fresh)
    obtain ⟨hord', hp⟩ := hord.pollFresh lookup stage raw
    exact ih hord' hp (fun hmk => (running_setRaw n _ raw).mpr (hk.running hmk)) hk.free
      (Raised.setRaw hr₁ hord₁ hp₁ hk raw)
  | @resumed n c next f p f' lookup stage _ ih =>
    obtain ⟨hr₁, hk⟩ := begin_raised hr hord hW lookup (stage ▸ Stage.open_suspended next)
      (stage ▸ fun h => nomatch h) fun _ _ => stage ▸ fun h => nomatch h
    obtain ⟨hord', hp⟩ := hord.poll lookup (stage ▸ Stage.open_suspended next)
    exact ih hord' hp hk.running hk.free hr₁
  | @awaited n c other next f p f' lookup stage _ ih =>
    obtain ⟨hord', hatt'⟩ := hord.pollAwaiting lookup stage
    have hidle : ¬ f.registry.Running n := by
      intro hrun
      exact hrun.ne lookup (stage ▸ fun h => nomatch h) rfl
    have hk : Excuses W n f.registry := excuses_of_not_running hW hidle
    have hc' := construction?_setStage_self lookup .running
    -- the wait of the construction becomes an excuse
    refine ih hord' hatt' (fun hmk => (hW hmk).setStage lookup) hk.free
      (hr.change (leads_setStage lookup (stage ▸ Stage.open_awaiting other next) .running) hord'
        (fun hm => ?_) ⟨c, lookup⟩ (.inl rfl) (fun _ hmk => ⟨.inl hmk, (hW hmk).isOpen⟩)
        fun k hnk => ?_)
    · exact (construction?_setStage ..).trans (if_neg (Ne.symm hm))
    · rcases hnk with hcon | hawaits
      · exact absurd hcon (hk.free k)
      · obtain rfl := hawaits.unique ⟨c, next, lookup, stage⟩
        exact ⟨.inl (.inr ⟨rfl, rfl⟩), _, hc', Stage.open_running⟩

/-! ## Requests of callers -/

/-- A poll of a caller's request keeps constructions raised: what it starts, it starts for the
caller. -/
theorem Serves.raised {r r' : Request} {moved : Bool} (h : Serves o settings r f r' moved f')
    (hf : f.On .standing) (hplaced : r.Placed f) (hbase : base settings)
    (hr : f.registry.Raised base fun _ _ => False) :
    f'.registry.Raised base fun _ _ => False := by
  induction h with
  | settled => exact hr
  | answered entry =>
    obtain ⟨rfl, -⟩ := enter_answered entry
    exact hr
  | @entered config n r moved f f₁ f' entry _ ih =>
    obtain ⟨hf₁, -, -, hr₁⟩ := enter_on (grants_standing config) hf entry
    refine ih hf₁ (placed_of_on hr₁) ?_
    obtain ⟨key, -, ⟨-, rfl⟩ | ⟨hfree, hstart⟩⟩ := enter_waiting entry
    · exact hr
    · cases hstart
      exact Raised.start (n := 0) hr hf.orderly hfree config _ (fun h => h.elim)
        (.inl ⟨settings, hbase, rfl⟩)
  | @received n result f f₁ poll =>
    have hn := hplaced n rfl
    have hr₁ : f₁.registry.Raised base fun _ _ => False :=
      poll.raised hf.orderly hn (fun h => h.elim) trivial hr
    exact poll.raised_receive (n := n) hf.orderly hn (fun h => h.elim)
      (hr₁.excuse fun _ _ => .inl) none
  | pending poll => exact poll.raised hf.orderly (hplaced _ rfl) (fun h => h.elim) trivial hr

/-- A join starts all constructions for its caller or for one another. -/
theorem Concludes.raised {configs : List NodeId} {joined : Joined}
    (h : Concludes o settings (configs.map .new) f joined f') (hf : f.On .standing)
    (hbase : base settings) (hr : f.registry.Raised base fun _ _ => False) :
    f'.registry.Raised base fun _ _ => False := by
  obtain ⟨-, hr', -⟩ := h.preserves (I := fun _ f => f.registry.Raised base fun _ _ => False)
    (fun hf hplaced hr hserve => hserve.raised hf hplaced hbase hr) hf hr
  exact hr'

end Factory

/-! ## Sessions -/

namespace Session

variable {s s' : Session} {c : Command}

/-- Only joins are answered as joins. -/
theorem join_of_joined {joined : Joined} (h : s.step c = some (.joined joined, s')) :
    ∃ i settings configs, c = .join i settings configs := by
  cases c with
  | update u => cases h
  | check value source =>
    obtain ⟨r, -, h⟩ := Option.bind_eq_some_iff.mp h
    cases r <;> cases h
  | capture value source =>
    obtain ⟨r, -, h⟩ := Option.bind_eq_some_iff.mp h
    cases r <;> cases h
  | openPool factory failures => cases h
  | join i settings configs => exact ⟨i, settings, configs, rfl⟩
  | prepare i config =>
    have h : s.work i (·.prepare config) .prepared = some (.joined joined, s') := h
    rcases work_eq_some h with ⟨-, hcon, -⟩ | ⟨p, raw, floor, -, -, hcon, -⟩ <;> cases hcon

/-! ### Invariants of pools, given what is requested of them -/

section Requested

variable {A : Nat → Settings → List NodeId → Prop} {P : Nat → Pool → Prop}
  (new : ∀ i factory failures, P i (.new factory failures))
  (join : ∀ {i : Nat} {p : Pool} {store : Store} {settings configs joined floor},
    p.AtRest store.graph → A i settings configs → P i p →
    (p.factory.join settings configs).run (p.floor store) = some (joined, floor) → P i (p.keep floor))
include new join

/-- A command keeps an invariant of pools, if it is known what it requests of them. -/
theorem step_pools {answer : Answer} (h : s.step c = some (answer, s')) (hrest : s.AtRest)
    (hc : ∀ i settings configs, c = .join i settings configs → A i settings configs)
    (hs : ∀ {i : Nat} {p : Pool}, s.pools[i]? = some p → P i p) {i : Nat} {p : Pool}
    (hp : s'.pools[i]? = some p) : P i p := by
  by_cases hjoin : ∃ j settings configs, c = .join j settings configs
  · obtain ⟨j, settings, configs, rfl⟩ := hjoin
    have h : s.work j (·.join settings configs) .joined = some (answer, s') := h
    rcases work_eq_some h with ⟨-, -, rfl⟩ | ⟨q, joined, floor, hq, hjob, -, rfl⟩
    · exact hs hp
    · rcases getElem?_pools_joins hq hp with ⟨rfl, rfl⟩ | ⟨-, hp⟩
      · exact join (hrest.pools hq) (hc j settings configs rfl) (hs hq) hjob
      · exact hs hp
  · cases moves_of_step h with
    | grows pools => exact hs (pools ▸ hp)
    | opens factory failures =>
      rw [Array.getElem?_push] at hp
      split at hp
      · cases hp
        exact new ..
      · exact hs hp
    | joins => exact absurd (join_of_joined h) hjoin

/-- Commands keep an invariant of pools, if it is known what they request of them. -/
theorem run_pools {cs : List Command} {answers : List Answer} (h : s.run cs = some (answers, s'))
    (hrest : s.AtRest)
    (hcs : ∀ i settings configs, .join i settings configs ∈ cs → A i settings configs)
    (hs : ∀ {i : Nat} {p : Pool}, s.pools[i]? = some p → P i p) {i : Nat} {p : Pool}
    (hp : s'.pools[i]? = some p) : P i p := by
  induction cs generalizing s answers with
  | nil =>
    cases h
    exact hs hp
  | cons c cs ih =>
    obtain ⟨⟨a, s₁⟩, hstep, h⟩ := Option.bind_eq_some_iff.mp h
    obtain ⟨⟨as, s₂⟩, hrun, h⟩ := Option.bind_eq_some_iff.mp h
    cases h
    refine ih hrun ((moves_of_step hstep).leads hrest).1
      (fun i settings configs hmem => hcs i settings configs (List.mem_cons_of_mem _ hmem))
      fun hp => step_pools new join hstep hrest ?_ hs hp
    rintro i settings configs rfl
    exact hcs i settings configs List.mem_cons_self

end Requested

/-- **In all sessions** each construction has been started for the caller of a join, or for another
construction. -/
theorem raised_of_run {cs : List Command} {answers : List Answer}
    (h : Session.run {} cs = some (answers, s)) {i : Nat} {p : Pool} (hp : s.pools[i]? = some p) :
    p.registry.Raised (fun settings => ∃ configs, .join i settings configs ∈ cs)
      fun _ _ => False := by
  -- the callers are fixed in advance, and hold for what remains of the session
  let A (i : Nat) (settings : Settings) (configs : List NodeId) : Prop :=
    .join i settings configs ∈ cs
  let P (i : Nat) (p : Pool) : Prop :=
    p.registry.Raised (fun settings => ∃ configs, A i settings configs) fun _ _ => False
  have hjoin : ∀ {i : Nat} {p : Pool} {store : Store} {settings configs joined floor},
      p.AtRest store.graph → A i settings configs → P i p →
      (p.factory.join settings configs).run (p.floor store) = some (joined, floor) →
      P i (p.keep floor) :=
    fun hrest hA hP hj => (Factory.concludes_of_join hj).raised hrest.floor ⟨_, hA⟩ hP
  exact run_pools (P := P) (fun _ _ _ => raised_empty) hjoin h atRest_empty (fun _ _ _ => id)
    (fun hp => by cases hp) hp

end Session

end Wiring

import Mathlib.Tactic.ByContra
import Wiring.Proofs.Requests

/-!
# Every open construction has an owner

A construction is started for a request, which waits for it until it ends. If the request is one of
another construction, that one is older, and stays at its wait for as long (`Registry.Owned`). So
open constructions lead down to the requests of callers: when all of those are settled, no
construction is open any more (`Owned.all_ended`).

An owner hands its settings down. Below, `Heir` says that a construction is younger than another
one and has all keys of that one in progress; the invariant keeps this too.
-/

namespace Wiring

namespace Registry

/-- The construction is younger than construction `m`, and all keys in progress in some settings
are in progress for it. -/
def Heir (r : Registry) (m : Nat) (settings : Settings) (k : Nat) : Prop :=
  m < k ∧ ∃ c, r.construction? k = some c ∧
    ∀ key, settings.isInProgress key = true → c.settings.isInProgress key = true

/-- A construction waits for its heir. -/
def Owns (r : Registry) (m k : Nat) : Prop :=
  ∃ c next, r.construction? m = some c ∧ c.stage = .awaiting k next ∧ r.Heir m c.settings k

/-- The construction is there and has not ended. -/
def IsOpen (r : Registry) (k : Nat) : Prop := ∃ c, r.construction? k = some c ∧ c.stage.Open

/-- Open constructions are excused or owned. -/
def Owned (W : Nat → Prop) (r : Registry) : Prop :=
  ∀ k, r.IsOpen k → W k ∨ ∃ m, r.Owns m k

variable {r r' : Registry} {W W' : Nat → Prop} {n : Nat} {c : Construction}

/-- A construction that is not open has a result. -/
theorem result_of_not_open (h : ¬ r.IsOpen n) (hc : r.construction? n = some c) :
    ∃ result, c.stage = .finished result := by
  by_contra hnone
  exact h ⟨c, hc, fun result hs => hnone ⟨result, hs⟩⟩

/-- An open construction stays open while another one moves to an open stage. -/
theorem IsOpen.setStage {m : Nat} {stage : Stage} (h : r.IsOpen m) (hc : r.construction? n = some c)
    (hopen : stage.Open) : (r.setStage n stage).IsOpen m := by
  obtain ⟨d, hd, hdopen⟩ := h
  by_cases hnm : n = m
  · subst hnm
    exact ⟨_, construction?_setStage_self hc stage, hopen⟩
  · exact ⟨d, by rw [construction?_setStage, if_neg hnm, hd], hdopen⟩

theorem Heir.leads {m k : Nat} {settings : Settings} (h : r.Heir m settings k)
    (hl : r.Leads r') : r'.Heir m settings k := by
  obtain ⟨hlt, c, hc, hset⟩ := h
  obtain ⟨d, hd, hbec⟩ := hl.becomes hc
  exact ⟨hlt, d, hd, fun key hkey => hbec.settings ▸ hset key hkey⟩

namespace Owned

/-- An excuse is needed for open constructions only. -/
theorem excuse (h : r.Owned W) (hW : ∀ k, W k → r.IsOpen k → W' k) : r.Owned W' := by
  intro k hk
  rcases h k hk with hwk | howns
  · exact .inl (hW k hwk hk)
  · exact .inr howns

/-- Ownership depends on the constructions alone. -/
theorem congr (h : r.Owned W) (hr : ∀ m, r'.construction? m = r.construction? m) : r'.Owned W := by
  rintro k ⟨c, hc, hopen⟩
  rcases h k ⟨c, hr k ▸ hc, hopen⟩ with hwk | ⟨m, d, next, hd, hs, hlt, e, he, hset⟩
  · exact .inl hwk
  · exact .inr ⟨m, d, next, hr m ▸ hd, hs, hlt, e, hr k ▸ he, hset⟩

/-- A construction may leave a stage if what it owned there is excused. -/
theorem setStage (h : r.Owned W) (hc : r.construction? n = some c) (hopen : c.stage.Open)
    (stage : Stage) (hW : ∀ k, W k → W' k) (howned : ∀ k, r.Owns n k → W' k) :
    (r.setStage n stage).Owned W' := by
  have hl : r.Leads (r.setStage n stage) := leads_setStage hc hopen stage
  rintro k ⟨d, hd, hdopen⟩
  have hk : r.IsOpen k := by
    rcases setStage_cases hc hd with ⟨rfl, -⟩ | ⟨-, hd⟩
    · exact ⟨c, hc, hopen⟩
    · exact ⟨d, hd, hdopen⟩
  rcases h k hk with hwk | ⟨m, howns⟩
  · exact .inl (hW k hwk)
  · by_cases hnm : n = m
    · exact .inl (howned k (hnm ▸ howns))
    · obtain ⟨e, next, he, hs, hheir⟩ := howns
      refine .inr ⟨m, e, next, ?_, hs, hheir.leads hl⟩
      rw [construction?_setStage, if_neg hnm, he]

theorem setRaw (h : r.Owned W) (n : Nat) (raw : NodeId) : (r.setRaw n raw).Owned W := by
  have hl : r.Leads (r.setRaw n raw) := leads_setRaw r n raw
  have hsame : ∀ {m d}, r.construction? m = some d →
      ∃ d', (r.setRaw n raw).construction? m = some d' ∧ d'.stage = d.stage ∧
        d'.settings = d.settings := by
    intro m d hd
    rw [construction?_setRaw, hd]
    by_cases hnm : n = m
    · exact ⟨{ d with raw := some raw }, by simp [hnm], rfl, rfl⟩
    · exact ⟨d, by simp [hnm], rfl, rfl⟩
  rintro k ⟨d, hd, hdopen⟩
  have hk : r.IsOpen k := by
    rcases modify_cases hd with ⟨rfl, e, he, rfl⟩ | ⟨-, hd⟩
    · exact ⟨e, he, hdopen⟩
    · exact ⟨d, hd, hdopen⟩
  rcases h k hk with hwk | ⟨m, e, next, he, hs, hheir⟩
  · exact .inl hwk
  · obtain ⟨e', he', hs', hset⟩ := hsame he
    exact .inr ⟨m, e', next, he', hs'.trans hs, hset ▸ hheir.leads hl⟩

/-- A construction that is polled owns nothing. -/
theorem not_owns {settings : Settings} (hp : r.Polled n settings) (k : Nat) : ¬ r.Owns n k := by
  rintro ⟨c, next, hc, hs, -⟩
  obtain ⟨d, hd, hd', -⟩ := hp
  obtain rfl : c = d := Option.some.inj (hc.symm.trans hd)
  rw [hs] at hd'
  cases hd'

/-- A construction that is polled may move to any stage. -/
theorem move {settings : Settings} (h : r.Owned W) (hp : r.Polled n settings) (stage : Stage) :
    (r.setStage n stage).Owned W := by
  obtain ⟨c, hc, -⟩ := id hp
  exact h.setStage hc (hp.open hc) stage (fun _ => id) fun k hk => absurd hk (not_owns hp k)

theorem finish {settings : Settings} (h : r.Owned W) (hp : r.Polled n settings)
    (result : Except BuildError Json) : (r.finish n result).Owned W :=
  (h.move hp (.finished result)).congr fun m => by
    rw [construction?_finish, construction?_setStage]

/-- A construction that has ended needs no excuse. -/
theorem answered {other : Nat} {P : Prop} {result : Except BuildError Json}
    (h : r.Owned fun k => W k ∨ (k = other ∧ P)) (hc : r.construction? other = some c)
    (hs : c.stage = .finished result) : r.Owned W := by
  refine h.excuse fun k hk ⟨d, hd, hopen⟩ => ?_
  rcases hk with hwk | ⟨rfl, -⟩
  · exact hwk
  · obtain rfl : c = d := Option.some.inj (hc.symm.trans hd)
    exact absurd hs (hopen _)

/-- A construction that owns nothing may be polled. -/
theorem poll (h : r.Owned W) (hc : r.construction? n = some c) (hopen : c.stage.Open)
    (hfree : ∀ other next, c.stage ≠ .awaiting other next) : (r.setStage n .running).Owned W := by
  refine h.setStage hc hopen .running (fun _ => id) ?_
  rintro k ⟨d, next, hd, hs, -⟩
  obtain rfl : c = d := Option.some.inj (hc.symm.trans hd)
  exact absurd hs (hfree k next)

/-- While a construction at its wait is polled, its heir is excused. -/
theorem resume {other : Nat} {next : Json → Build Json} (h : r.Owned W)
    (hc : r.construction? n = some c) (hs : c.stage = .awaiting other next) :
    (r.setStage n .running).Owned fun k =>
      W k ∨ (k = other ∧ (r.setStage n .running).Heir n c.settings other) := by
  have hopen : c.stage.Open := hs ▸ Stage.open_awaiting other next
  refine h.setStage hc hopen .running (fun _ => .inl) ?_
  rintro k ⟨d, next', hd, hs', hheir⟩
  obtain rfl : c = d := Option.some.inj (hc.symm.trans hd)
  obtain ⟨rfl, -⟩ := Stage.awaiting.inj (hs.symm.trans hs')
  exact .inr ⟨rfl, hheir.leads (leads_setStage hc hopen .running)⟩

/-- A construction that goes to wait for its heir becomes its owner. -/
theorem block {settings : Settings} {other : Nat} {next : Json → Build Json}
    (h : r.Owned fun k => W k ∨ (k = other ∧ r.Heir n settings other))
    (hp : r.Polled n settings) : (r.setStage n (.awaiting other next)).Owned W := by
  obtain ⟨c, hc, -⟩ := id hp
  have hl := leads_setStage hc (hp.open hc) (.awaiting other next)
  intro k hk
  rcases h.move hp (.awaiting other next) k hk with (hwk | ⟨rfl, hheir⟩) | howns
  · exact .inl hwk
  · refine .inr ⟨n, _, next, construction?_setStage_self hc _, rfl, ?_⟩
    exact hp.settings hc ▸ hheir.leads hl
  · exact .inr howns

/-- A new construction is to be excused. -/
theorem start (h : r.Owned W) (config : NodeId) (key : String) (settings : Settings)
    (hW : ∀ k, W k → W' k) (hnew : W' r.history.size) :
    (r.start config key settings).2.Owned W' := by
  have hl : r.Leads (r.start config key settings).2 := leads_start ..
  rintro k ⟨d, hd, hdopen⟩
  rcases start_cases hd with ⟨rfl, -⟩ | ⟨-, hd⟩
  · exact .inl hnew
  · rcases h k ⟨d, hd, hdopen⟩ with hwk | ⟨m, e, next, he, hs, hheir⟩
    · exact .inl (hW k hwk)
    · refine .inr ⟨m, e, next, ?_, hs, hheir.leads hl⟩
      exact construction?_start_of_some he ..

/-- If nothing is excused, nothing is open: an oldest open construction would have no owner. -/
theorem all_ended (h : r.Owned fun _ => False) (k : Nat) : ¬ r.IsOpen k := by
  induction k using Nat.strongRecOn with
  | ind k ih =>
    intro hk
    rcases h k hk with hfalse | ⟨m, c, next, hc, hs, hlt, -⟩
    · exact hfalse
    · -- the owner is open too, and older
      exact ih m hlt ⟨c, hc, hs ▸ Stage.open_awaiting k next⟩

end Owned

end Registry

/-- While a task waits for a construction, that one is excused. -/
def Task.Excuses (W : Nat → Prop) : Task → Registry → Nat → Prop
  | .wait n settings other _ _, r, k => W k ∨ (k = other ∧ r.Heir n settings other)
  | _, _, k => W k

namespace Factory

open Registry

variable {o : Factory} {settings : Settings} {f f₁ f' : Floor}

/-- A request of a construction waits for an owned construction or for an heir. -/
theorem enter_owned {W : Nat → Prop} {n other : Nat} {d : NodeId} {next : Json → Build Json}
    (ho : f.registry.Owned W) (hp : f.registry.Polled n settings)
    (he : o.enter d settings f = (.waiting other, f₁)) :
    f₁.registry.Owned ((Task.wait n settings other next true).Excuses W f₁.registry) := by
  obtain ⟨key, -, ⟨-, rfl⟩ | ⟨-, hstart⟩⟩ := enter_waiting he
  · exact ho.excuse fun k hk _ => .inl hk
  · cases hstart
    refine Owned.start ho d key _ (fun k hk => .inl hk) (.inr ⟨rfl, ?_⟩)
    obtain ⟨c, hc, -⟩ := hp
    refine ⟨lt_size hc, _, construction?_start_self .., fun key' hkey => ?_⟩
    exact (Settings.isInProgress_descend ..).mpr (.inr hkey)

/-- **Work leaves no construction without an owner.** -/
theorem Runs.owned {t : Task} {p : Progress} (h : Runs o t f p f') {W : Nat → Prop}
    (hord : f.registry.Orderly) (hatt : t.Attends f.registry)
    (ho : f.registry.Owned (t.Excuses W f.registry)) : f'.registry.Owned W := by
  -- by induction on the work, for all excuses: a nested poll has one more than the task around it
  induction h generalizing W with
  | done v => exact Owned.finish ho hatt _
  | fail e => exact Owned.finish ho hatt _
  | suspend next => exact Owned.move ho hatt _
  | read _ ih => exact ih hord hatt ho
  | write _ ih => exact ih hord hatt ho
  | answered entry _ ih =>
    obtain ⟨rfl, -⟩ := enter_answered entry
    exact ih hord hatt ho
  | refused entry =>
    obtain ⟨rfl, -⟩ := enter_answered entry
    exact Owned.finish ho hatt _
  | request entry _ ih =>
    obtain ⟨hk, -, hd⟩ := keeps_of_enter hord entry
    exact ih hk.orderly ⟨hatt.keeps hk, hd⟩ (enter_owned ho hatt entry)
  | @received n settings other next moved v f f₁ p f' poll _ ihp ihr =>
    obtain ⟨-, c, hc, hs⟩ := poll.upkeep hord hatt.2
    have hk' := poll.keeps_receive hord hatt.2 (some n)
    -- what was waited for has ended, and needs no excuse any more
    have ho' : (f₁.receive (some n) other (.ok v)).registry.Owned W :=
      ((ihp hord hatt.2 ho).answered hc hs).congr fun _ => rfl
    exact ihr hk'.orderly (hatt.1.keeps hk') ho'
  | @passedOn n settings other next moved e f f₁ poll ihp =>
    obtain ⟨-, c, hc, hs⟩ := poll.upkeep hord hatt.2
    have hk' := poll.keeps_receive hord hatt.2 (some n)
    have ho' : (f₁.receive (some n) other (.error e)).registry.Owned W :=
      ((ihp hord hatt.2 ho).answered hc hs).congr fun _ => rfl
    exact ho'.finish (hatt.1.keeps hk') _
  | @blocked n settings other next moved further f f₁ poll ihp =>
    -- what is waited for needs no excuse any more, for it has an owner now
    obtain ⟨hk, -⟩ := poll.upkeep hord hatt.2
    refine Owned.block ((ihp hord hatt.2 ho).excuse fun k hk' _ => ?_) (hatt.1.keeps hk)
    exact hk'.imp_right fun ⟨hother, hheir⟩ => ⟨hother, hheir.leads hk.leads⟩
  | missing lookup => exact ho
  | finished lookup stage => exact ho
  | running lookup stage => exact ho
  | @unprepared n c e graph f lookup stage form =>
    have hopen : c.stage.Open := stage ▸ Stage.open_fresh
    obtain ⟨-, hp⟩ := hord.poll lookup hopen
    exact Owned.finish (Owned.poll ho lookup hopen fun _ _ => stage ▸ nofun) hp _
  | @prepared n c raw graph f p f' lookup stage form _ ih =>
    have hopen : c.stage.Open := stage ▸ Stage.open_fresh
    obtain ⟨hord', hp⟩ := hord.pollFresh lookup stage raw
    exact ih hord' hp ((Owned.poll ho lookup hopen fun _ _ => stage ▸ nofun).setRaw n raw)
  | @resumed n c next f p f' lookup stage _ ih =>
    have hopen : c.stage.Open := stage ▸ Stage.open_suspended next
    obtain ⟨hord', hp⟩ := hord.poll lookup hopen
    exact ih hord' hp (Owned.poll ho lookup hopen fun _ _ => stage ▸ nofun)
  | @awaited n c other next f p f' lookup stage _ ih =>
    obtain ⟨hord', hatt'⟩ := hord.pollAwaiting lookup stage
    exact ih hord' hatt' (Owned.resume ho lookup stage)

/-! ## Requests of callers -/

/-- While requests of callers wait, the constructions that they wait for are excused. -/
abbrev Waited (rs : List Request) (n : Nat) : Prop := .waiting n ∈ rs

theorem waited_change {before after : List Request} {r r' : Request} {k : Nat}
    (h : Waited (before ++ r :: after) k) (hr : r ≠ .waiting k) :
    Waited (before ++ r' :: after) k := by
  rcases List.mem_append.mp h with h | h
  · exact List.mem_append_left _ h
  · have : Request.waiting k ∈ after := (List.mem_cons.mp h).resolve_left (Ne.symm hr)
    exact List.mem_append_right _ (List.mem_cons_of_mem _ this)

/-- A poll of a request leaves no construction without an owner. -/
theorem Serves.owned {before after : List Request} {r r' : Request} {moved : Bool}
    (h : Serves o settings r f r' moved f') (hf : f.On .standing) (hr : r.Placed f)
    (ho : f.registry.Owned (Waited (before ++ r :: after))) :
    f'.registry.Owned (Waited (before ++ r' :: after)) := by
  induction h with
  | settled => exact ho
  | answered entry =>
    obtain ⟨rfl, -⟩ := enter_answered entry
    exact ho.excuse fun k hk _ => waited_change hk (fun h => nomatch h)
  | @entered config n r moved f f₁ f' entry _ ih =>
    obtain ⟨hf₁, -, -, hr₁⟩ := enter_on (grants_standing config) hf entry
    refine ih hf₁ (placed_of_on hr₁) ?_
    have hchange : ∀ k, Waited (before ++ .new config :: after) k →
        Waited (before ++ .waiting n :: after) k :=
      fun k hk => waited_change hk (fun h => nomatch h)
    obtain ⟨key, -, ⟨-, rfl⟩ | ⟨-, hstart⟩⟩ := enter_waiting entry
    · exact ho.excuse fun k hk _ => hchange k hk
    · cases hstart
      exact ho.start config key _ hchange (by simp [Waited])
  | @received n result f f₁ poll =>
    obtain ⟨c, hc⟩ := hr n rfl
    obtain ⟨-, d, hd, hs⟩ := poll.upkeep hf.orderly ⟨c, hc⟩
    have ho₁ : f₁.registry.Owned (Waited (before ++ .waiting n :: after)) :=
      poll.owned hf.orderly ⟨c, hc⟩ ho
    refine (ho₁.excuse fun k hk ⟨e, he, hopen⟩ => waited_change hk ?_).congr fun _ => rfl
    rintro ⟨⟩
    obtain rfl : d = e := Option.some.inj (hd.symm.trans he)
    exact hopen _ hs
  | pending poll => exact poll.owned hf.orderly (hr _ rfl) ho

/-- In a join, all open constructions lead down to its requests, if nothing was open before. -/
theorem Concludes.owned {configs : List NodeId} {joined : Joined}
    (h : Concludes o settings (configs.map .new) f joined f') (hf : f.On .standing)
    (hended : ∀ n, ¬ f.registry.IsOpen n) :
    ∃ rs, (f'.registry.Owned (Waited rs) ∧ rs.length = configs.length) ∧ joined.Of rs := by
  refine h.preserves (I := fun rs f => f.registry.Owned (Waited rs) ∧ rs.length = configs.length)
    ?_ hf ⟨fun k hk => absurd hk (hended k), List.length_map _⟩
  rintro before r after f r' moved f' hf hr ⟨ho, hlength⟩ hserve
  refine ⟨hserve.owned hf hr ho, ?_⟩
  rw [← hlength]
  simp

/-- After a join with answers no construction is open, if none was before. -/
theorem Concludes.all_ended {configs : List NodeId} {results : List (Except BuildError Json)}
    (h : Concludes o settings (configs.map .new) f (.answers results) f') (hf : f.On .standing)
    (hended : ∀ n, ¬ f.registry.IsOpen n) (n : Nat) : ¬ f'.registry.IsOpen n := by
  obtain ⟨rs, ⟨ho, -⟩, rfl⟩ := h.owned hf hended
  refine Owned.all_ended (ho.excuse fun k hk _ => ?_) n
  simp [Waited] at hk

end Factory

end Wiring

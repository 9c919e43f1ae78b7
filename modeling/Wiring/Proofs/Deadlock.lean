import Mathlib.Logic.Relation
import Wiring.Proofs.Ownership

/-!
# Deadlocks

A join is a deadlock if and only if constructions wait for each other in a ring (`Registry.Ring`,
`Concludes.deadlock_iff`). The guard against cycles does not see such a ring: no construction in it
has the key of the one that it waits for in progress (`not_inProgress_of_awaits`).

- A poll that moves nothing ends at a construction that is being polled further out, and all on the
  way wait for each other (`Runs.stuck`). Since nothing is being polled when a round begins, a
  request for which nothing moves leads into a ring.
- So a deadlock is a standstill: a further round finds all as it is and changes nothing
  (`rounds_standstill`).
- A single request never leads into a ring (`Owned.not_ring`): its constructions are a chain of
  owners, each of which has the keys of all earlier ones in progress, so that none of them waits
  for an earlier one.
-/

namespace Wiring

open Relation

namespace Registry

/-- A construction waits for another one. -/
def Awaits (r : Registry) (m n : Nat) : Prop :=
  ∃ c next, r.construction? m = some c ∧ c.stage = .awaiting n next

/-- Constructions wait for each other in a ring. -/
def Ring (r : Registry) : Prop := ∃ n, TransGen r.Awaits n n

variable {r r' : Registry} {m n k : Nat}

theorem Awaits.isOpen (h : r.Awaits m n) : r.IsOpen m := by
  obtain ⟨c, next, hc, hs⟩ := h
  exact ⟨c, hc, hs ▸ Stage.open_awaiting n next⟩

theorem Owns.awaits (h : r.Owns m n) : r.Awaits m n := by
  obtain ⟨c, next, hc, hs, -⟩ := h
  exact ⟨c, next, hc, hs⟩

theorem Owns.lt (h : r.Owns m n) : m < n := by
  obtain ⟨c, next, -, -, hlt, -⟩ := h
  exact hlt

/-- A construction waits for one other at most. -/
theorem Awaits.unique (hn : r.Awaits m n) (hk : r.Awaits m k) : n = k := by
  obtain ⟨c, next, hc, hs⟩ := hn
  obtain ⟨d, next', hd, hs'⟩ := hk
  obtain rfl : c = d := Option.some.inj (hc.symm.trans hd)
  exact (Stage.awaiting.inj (hs.symm.trans hs')).1

/-- A construction that is being polled waits for nothing. -/
theorem Polled.not_awaits {settings : Settings} (hp : r.Polled m settings) : ¬ r.Awaits m n := by
  rintro ⟨c, next, hc, hs⟩
  obtain ⟨d, hd, hd', -⟩ := hp
  obtain rfl : c = d := Option.some.inj (hc.symm.trans hd)
  rw [hs] at hd'
  cases hd'

/-- So it may move to any stage without an end to other waits. -/
theorem Awaits.setStage {settings : Settings} (h : r.Awaits m n) (hp : r.Polled k settings)
    (stage : Stage) : (r.setStage k stage).Awaits m n := by
  have hkm : k ≠ m := by
    rintro rfl
    exact hp.not_awaits h
  obtain ⟨c, next, hc, hs⟩ := h
  exact ⟨c, next, by rw [construction?_setStage, if_neg hkm, hc], hs⟩

/-- What is waited for is there, and on terms of work a construction waits for certain
others only. -/
theorem waits_of_awaits {T : Terms} {w : Workbench} (hr : T.Registry r w) (h : r.Awaits m n) :
    ∃ c d, r.construction? m = some c ∧ r.construction? n = some d ∧
      T.waits c.toErrand d.toErrand := by
  obtain ⟨c, next, hc, hs⟩ := h
  have hstage : T.Stage r c.toErrand c.stage := (hr _ _ hc).2
  rw [hs] at hstage
  obtain ⟨d, hd, hwaits, -⟩ := hstage
  exact ⟨c, d, hc, hd, hwaits⟩

/-- No construction waits for one whose key it has in progress. -/
theorem not_inProgress_of_awaits {w : Workbench} (hr : Terms.standing.Registry r w)
    (h : r.Awaits m n) {c d : Construction} (hc : r.construction? m = some c)
    (hd : r.construction? n = some d) : c.settings.isInProgress d.key = false := by
  obtain ⟨c', d', hc', hd', hwaits⟩ := waits_of_awaits hr h
  obtain rfl : c = c' := Option.some.inj (hc.symm.trans hc')
  obtain rfl : d = d' := Option.some.inj (hd.symm.trans hd')
  exact hwaits

/-- A ring of constructions is a ring of what the constructions are for. -/
theorem Ring.errands {T : Terms} {w : Workbench} (hr : T.Registry r w) (h : r.Ring) {α : Type}
    (view : Errand → α) (R : α → α → Prop)
    (hR : ∀ e other, T.admits w e → T.admits w other → T.waits e other → R (view e) (view other)) :
    ∃ c n, r.construction? n = some c ∧ TransGen R (view c.toErrand) (view c.toErrand) := by
  have hpath : ∀ {m n c d}, TransGen r.Awaits m n → r.construction? m = some c →
      r.construction? n = some d → TransGen R (view c.toErrand) (view d.toErrand) := by
    intro m n c d h hc
    induction h generalizing d with
    | single hawaits =>
      intro hd
      obtain ⟨c', d', hc', hd', hwaits⟩ := waits_of_awaits hr hawaits
      obtain rfl : c = c' := Option.some.inj (hc.symm.trans hc')
      obtain rfl : d = d' := Option.some.inj (hd.symm.trans hd')
      exact .single (hR _ _ (hr _ _ hc).1 (hr _ _ hd).1 hwaits)
    | tail _ hawaits ih =>
      intro hd
      obtain ⟨e, d', he, hd', hwaits⟩ := waits_of_awaits hr hawaits
      obtain rfl : d = d' := Option.some.inj (hd.symm.trans hd')
      exact .tail (ih he) (hR _ _ (hr _ _ he).1 (hr _ _ hd).1 hwaits)
  obtain ⟨n, hring⟩ := h
  obtain ⟨k, hawaits, -⟩ := TransGen.head'_iff.mp hring
  obtain ⟨c, hc, -⟩ := hawaits.isOpen
  exact ⟨c, n, hc, hpath hring hc hc⟩

/-! ## Chains of owners -/

/-- Owners are older and hand down the keys that they have in progress. -/
theorem owns_path (h : ReflTransGen r.Owns m n) {c d : Construction}
    (hc : r.construction? m = some c) (hd : r.construction? n = some d) :
    m ≤ n ∧ ∀ key, c.settings.isInProgress key = true → d.settings.isInProgress key = true := by
  induction h generalizing d with
  | refl =>
    obtain rfl : c = d := Option.some.inj (hc.symm.trans hd)
    exact ⟨Nat.le_refl _, fun _ => id⟩
  | tail _ howns ih =>
    obtain ⟨e, next, he, -, hlt, d', hd', hset⟩ := howns
    obtain rfl : d = d' := Option.some.inj (hd.symm.trans hd')
    obtain ⟨hle, hkeys⟩ := ih he
    exact ⟨Nat.le_trans hle (Nat.le_of_lt hlt), fun key hkey => hset key (hkeys key hkey)⟩

/-- Each open construction is at the end of a chain of owners. -/
theorem Owned.path {W : Nat → Prop} (h : r.Owned W) (hk : r.IsOpen k) :
    ∃ root, W root ∧ ReflTransGen r.Owns root k := by
  induction k using Nat.strongRecOn with
  | ind k ih =>
    rcases h k hk with hroot | ⟨m, howns⟩
    · exact ⟨k, hroot, .refl⟩
    · obtain ⟨root, hroot, hpath⟩ := ih m howns.lt howns.awaits.isOpen
      exact ⟨root, hroot, hpath.tail howns⟩

/-- No construction waits for one of its owners, or for itself. -/
theorem not_owns_of_awaits {w : Workbench} (hr : Terms.standing.Registry r w) (h : r.Awaits m n) :
    ¬ ReflTransGen r.Owns n m := by
  intro hpath
  obtain ⟨c, d, hc, hd, hwaits⟩ := waits_of_awaits hr h
  have hwaits : c.settings.isInProgress d.key = false := hwaits
  have hown : d.settings.isInProgress d.key = true := (hr _ _ hd).1.2
  have hkey := (owns_path hpath hd hc).2 _ hown
  rw [hwaits] at hkey
  cases hkey

/-- **If all chains of owners begin at one construction, there is no ring.** -/
theorem Owned.not_ring {W : Nat → Prop} (h : r.Owned W) (hW : ∀ a b, W a → W b → a = b)
    {w : Workbench} (hr : Terms.standing.Registry r w) : ¬ r.Ring := by
  have hlt : ∀ {m n}, r.Awaits m n → r.IsOpen n → m < n := by
    intro m n hawaits hn
    obtain ⟨a, ha, hpm⟩ := h.path hawaits.isOpen
    obtain ⟨b, hb, hpn⟩ := h.path hn
    obtain rfl := hW a b ha hb
    have hunique : Relator.RightUnique r.Owns := fun _ _ _ hx hy => hx.awaits.unique hy.awaits
    -- both are on one chain of owners
    rcases ReflTransGen.total_of_right_unique hunique hpm hpn with hmn | hnm
    · obtain ⟨c, hc, -⟩ := hawaits.isOpen
      obtain ⟨d, hd, -⟩ := hn
      refine Nat.lt_of_le_of_ne (owns_path hmn hc hd).1 ?_
      rintro rfl
      exact not_owns_of_awaits hr hawaits .refl
    · exact absurd hnm (not_owns_of_awaits hr hawaits)
  have htrans : ∀ {m n}, TransGen r.Awaits m n → r.IsOpen n → m < n := by
    intro m n hpath
    induction hpath with
    | single hawaits => exact hlt hawaits
    | tail _ hawaits ih => exact fun hn => Nat.lt_trans (ih hawaits.isOpen) (hlt hawaits hn)
  rintro ⟨n, hring⟩
  obtain ⟨k, hawaits, -⟩ := TransGen.head'_iff.mp hring
  exact Nat.lt_irrefl n (htrans hring hawaits.isOpen)

end Registry

/-- A construction that comes back to its stage is as it was. -/
theorem Registry.setStage_setStage {r : Registry} {n : Nat} {c : Construction}
    (hc : r.construction? n = some c) (stage : Stage) :
    (r.setStage n stage).setStage n c.stage = r := by
  have hhistory : ((r.setStage n stage).setStage n c.stage).history = r.history := by
    refine Array.ext_getElem? ?_
    intro m
    show ((r.setStage n stage).setStage n c.stage).construction? m = r.construction? m
    rw [Registry.construction?_setStage, Registry.construction?_setStage]
    by_cases hm : n = m
    · subst hm
      rw [if_pos rfl, if_pos rfl, hc]
      rfl
    · rw [if_neg hm, if_neg hm]
  cases r
  exact congrArg (fun history => Registry.mk history _ _) hhistory

/-- What it means for a task that it has moved nothing: nothing has changed, and it has led into a
ring or to a construction that was being polled before. -/
def Task.Stuck : Task → Floor → Floor → Prop
  | .poll n, f, f' => f' = f ∧
    (f'.registry.Ring ∨ ∃ m, ReflTransGen f'.registry.Awaits n m ∧ f.registry.Running m)
  | .drive _ _ _, _, _ => False
  | .wait n _ other next moved, f, f' => moved = false ∧ f' = f.setStage n (.awaiting other next) ∧
    (f'.registry.Ring ∨
      ∃ m, ReflTransGen f'.registry.Awaits n m ∧ f.registry.Running m ∧ n ≠ m)

namespace Factory

open Registry

variable {o : Factory} {settings : Settings} {f f₁ f' : Floor}

/-- **Work that moves nothing is stuck.** -/
theorem Runs.stuck {t : Task} {p : Progress} (h : Runs o t f p f') (hord : f.registry.Orderly)
    (hatt : t.Attends f.registry) (hp : p = .pending false) : t.Stuck f f' := by
  -- by induction on the work: it has polled a chain of waits, and each rule adds the wait further out
  induction h with
  | done v => cases hp
  | fail e => cases hp
  | suspend next => cases hp
  | read _ ih => exact ih hord hatt hp
  | write _ ih => exact ih hord hatt hp
  | answered entry _ ih =>
    obtain ⟨rfl, -⟩ := enter_answered entry
    exact ih hord hatt hp
  | refused entry => cases hp
  | request entry _ ih =>
    -- to ask for a config is a move
    obtain ⟨hk, -, hd⟩ := keeps_of_enter hord entry
    cases (ih hk.orderly ⟨hatt.keeps hk, hd⟩ hp).1
  | @received n settings other next moved v f f₁ p f' poll _ _ ihr =>
    have hk' := poll.keeps_receive hord hatt.2 (some n)
    exact (ihr hk'.orderly (hatt.1.keeps hk') hp).elim
  | passedOn _ _ => cases hp
  | @blocked n settings other next moved further f f₁ poll ihp =>
    obtain ⟨rfl, rfl⟩ : moved = false ∧ further = false := by simpa using hp
    obtain ⟨rfl, hother⟩ := ihp hord hatt.2 rfl
    have hmono : ∀ {a b}, f₁.registry.Awaits a b →
        (f₁.registry.setStage n (.awaiting other next)).Awaits a b := fun h => h.setStage hatt.1 _
    have hstep : (f₁.registry.setStage n (.awaiting other next)).Awaits n other := by
      obtain ⟨c, hc, -⟩ := id hatt.1
      exact ⟨_, next, construction?_setStage_self hc _, rfl⟩
    refine ⟨rfl, rfl, ?_⟩
    rcases hother with ⟨k, hring⟩ | ⟨m, hpath, hrun⟩
    · exact .inl ⟨k, TransGen.mono (fun _ _ => hmono) _ _ hring⟩
    · have hpath' := ReflTransGen.mono (fun _ _ => hmono) _ _ hpath
      -- the chain ends further out, unless it comes back to this construction
      by_cases hnm : n = m
      · subst hnm
        exact .inl ⟨n, TransGen.head' hstep hpath'⟩
      · exact .inr ⟨m, ReflTransGen.head hstep hpath', hrun, hnm⟩
  | missing lookup =>
    obtain ⟨c, hc⟩ := hatt
    rw [lookup] at hc
    cases hc
  | finished lookup stage => cases hp
  | running lookup stage => exact ⟨rfl, .inr ⟨_, .refl, _, lookup, stage⟩⟩
  | unprepared lookup stage form => cases hp
  | @prepared n c raw graph f p f' lookup stage form _ ih =>
    obtain ⟨hord', hpolled⟩ := hord.pollFresh lookup stage raw
    exact (ih hord' hpolled hp).elim
  | @resumed n c next f p f' lookup stage _ ih =>
    obtain ⟨hord', hpolled⟩ := hord.poll lookup (stage ▸ Stage.open_suspended next)
    exact (ih hord' hpolled hp).elim
  | @awaited n c other next f p f' lookup stage _ ih =>
    obtain ⟨hord', hatt'⟩ := hord.pollAwaiting lookup stage
    obtain ⟨-, rfl, hrest⟩ := ih hord' hatt' hp
    refine ⟨?_, hrest.imp_right ?_⟩
    · have hback := setStage_setStage lookup .running
      rw [stage] at hback
      exact congrArg (fun registry => { f with registry }) hback
    · rintro ⟨m, hpath, hrun, hnm⟩
      have hrun' := (running_setStage lookup .running m).mp hrun
      rw [if_neg hnm] at hrun'
      exact ⟨m, hpath, hrun'⟩

/-! ## Rounds that move nothing -/

/-- Before each poll of a request nothing is being polled. -/
structure Calm (rs : List Request) (f : Floor) : Prop extends Ready rs f where
  still : ∀ n, ¬ f.registry.Running n

theorem Serves.calm {before after : List Request} {r r' : Request} {moved : Bool}
    (h : Serves o settings r f r' moved f') (hc : Calm (before ++ r :: after) f) :
    Calm (before ++ r' :: after) f' := by
  obtain ⟨-, hk, -⟩ := h.upkeep hc.on (hc.placed r (by simp))
  exact ⟨hc.toReady.serves h, fun n hn => hc.still n ((hk.running n).mp hn)⟩

/-- The first poll of a construction is a move. -/
theorem Runs.ne_pending_of_fresh {n : Nat} {p : Progress} (h : Runs o (.poll n) f p f')
    (hord : f.registry.Orderly) {c : Construction} (hc : f.registry.construction? n = some c)
    (hs : c.stage = .fresh) : p ≠ .pending false := by
  intro hp
  have hother : ∀ {d : Construction} {stage : Stage}, f.registry.construction? n = some d →
      d.stage = stage → stage ≠ .fresh → False := by
    intro d stage hd hstage hne
    obtain rfl : c = d := Option.some.inj (hc.symm.trans hd)
    exact hne (hstage.symm.trans hs)
  cases h with
  | missing lookup =>
    rw [lookup] at hc
    cases hc
  | finished lookup stage => exact hother lookup stage fun h => nomatch h
  | running lookup stage => exact hother lookup stage fun h => nomatch h
  | unprepared lookup stage form => cases hp
  | @prepared _ _ raw _ _ _ _ lookup stage form rest =>
    obtain ⟨hord', hpolled⟩ := hord.pollFresh lookup stage raw
    exact rest.stuck hord' hpolled hp
  | resumed lookup stage rest => exact hother lookup stage fun h => nomatch h
  | awaited lookup stage rest => exact hother lookup stage fun h => nomatch h

/-- A request that is entered for a poll that moves nothing finds its construction there. -/
theorem enter_stuck {config : NodeId} {n : Nat} {p : Progress} (hf : f.On .standing)
    (he : o.enter config settings f = (.waiting n, f₁)) (h : Runs o (.poll n) f₁ p f')
    (hp : p = .pending false) : f₁ = f := by
  obtain ⟨hk, -⟩ := keeps_of_enter hf.orderly he
  obtain ⟨key, -, ⟨-, rfl⟩ | ⟨-, hstart⟩⟩ := enter_waiting he
  · rfl
  · cases hstart
    exact absurd hp (h.ne_pending_of_fresh hk.orderly (construction?_start_self ..) rfl)

/-- A poll of a request that moves nothing changes nothing: it finds the request settled or leads
into a ring. -/
theorem Serves.stuck {r r' : Request} {moved : Bool} (h : Serves o settings r f r' moved f')
    (hm : moved = false) (hf : f.On .standing) (hr : r.Placed f)
    (hstill : ∀ n, ¬ f.registry.Running n) :
    f' = f ∧ ((∃ result, r' = .settled result) ∨ f'.registry.Ring) := by
  have hwait : ∀ {n moved f₁}, Runs o (.poll n) f (.pending moved) f₁ → moved = false →
      (Request.waiting n).Placed f → f₁ = f ∧ f₁.registry.Ring := by
    rintro n moved f₁ poll rfl hr
    obtain ⟨hsame, hring | ⟨m, -, hrun⟩⟩ := poll.stuck hf.orderly (hr n rfl) rfl
    · exact ⟨hsame, hring⟩
    · exact absurd hrun (hstill m)
  cases h with
  | @settled result => exact ⟨rfl, .inl ⟨result, rfl⟩⟩
  | answered entry => cases hm
  | @entered config n _ _ _ f₁ _ entry rest =>
    cases rest with
    | received poll => cases hm
    | pending poll =>
      obtain ⟨-, -, -, hr₁⟩ := enter_on (grants_standing config) hf entry
      obtain rfl := enter_stuck hf entry poll (hm ▸ rfl)
      obtain ⟨hsame, hring⟩ := hwait poll hm (placed_of_on hr₁)
      exact ⟨hsame, .inr hring⟩
  | received poll => cases hm
  | pending poll =>
    obtain ⟨hsame, hring⟩ := hwait poll hm hr
    exact ⟨hsame, .inr hring⟩

/-- A round that moves nothing changes nothing: it finds all requests settled or leads
into a ring. -/
theorem Sweeps.stuck {rs rs' : List Request} {moved : Bool}
    (h : Sweeps o settings rs f rs' moved f') (hm : moved = false) (hc : Calm rs f) :
    f' = f ∧ ((∀ r ∈ rs', ∃ result, r = .settled result) ∨ f'.registry.Ring) := by
  induction h with
  | nil => exact ⟨rfl, .inl fun r hr => nomatch hr⟩
  | @cons r r' rs rs' moved later f f₁ f' head tail ih =>
    obtain ⟨rfl, rfl⟩ : moved = false ∧ later = false := by simpa using hm
    obtain ⟨rfl, hhead⟩ := head.stuck rfl hc.on hc.toReady.head hc.still
    obtain ⟨rfl, htail⟩ := ih rfl ⟨hc.toReady.tail, hc.still⟩
    refine ⟨rfl, ?_⟩
    rcases hhead with ⟨result, rfl⟩ | hring
    · refine htail.imp_left ?_
      intro hall q hq
      rcases List.mem_cons.mp hq with rfl | hq
      · exact ⟨result, rfl⟩
      · exact hall q hq
    · exact .inr hring

theorem Concludes.ring_of_deadlock {rs : List Request} {joined : Joined}
    (h : Concludes o settings rs f joined f') (hc : Calm rs f) (hj : joined = .deadlock) :
    f'.registry.Ring := by
  induction h with
  | answers round all => cases hj
  | deadlock round some =>
    rcases (round.stuck rfl hc).2 with hall | hring
    · obtain ⟨r, hr, hopen⟩ := Request.mapM_result?_eq_none some
      obtain ⟨result, hresult⟩ := hall r hr
      exact absurd hresult (hopen result)
    · exact hring
  | again round some _ ih => exact ih (round.invariant (fun hc hserve => hserve.calm hc) [] hc) hj

theorem calm_new (hf : f.On .standing) (hended : ∀ n, ¬ f.registry.IsOpen n)
    (configs : List NodeId) : Calm (configs.map .new) f where
  toReady := .new hf configs
  still n hn := by
    obtain ⟨c, hc, hs⟩ := hn
    exact hended n ⟨c, hc, hs ▸ Stage.open_running⟩

/-- **A join is a deadlock if and only if constructions wait for each other in a ring**, provided
that nothing is open before. -/
theorem Concludes.deadlock_iff {configs : List NodeId} {joined : Joined}
    (h : Concludes o settings (configs.map .new) f joined f') (hf : f.On .standing)
    (hended : ∀ n, ¬ f.registry.IsOpen n) : joined = .deadlock ↔ f'.registry.Ring := by
  constructor
  · exact h.ring_of_deadlock (calm_new hf hended configs)
  · rintro ⟨n, hring⟩
    cases joined with
    | deadlock => rfl
    | answers results =>
      obtain ⟨k, hawaits, -⟩ := TransGen.head'_iff.mp hring
      exact absurd hawaits.isOpen (h.all_ended hf hended n)

/-- A join of one request is no deadlock. -/
theorem Concludes.ne_deadlock_of_single {configs : List NodeId} {joined : Joined}
    (h : Concludes o settings (configs.map .new) f joined f') (hf : f.On .standing)
    (hended : ∀ n, ¬ f.registry.IsOpen n) (hsingle : configs.length ≤ 1) : joined ≠ .deadlock := by
  intro hj
  have hring := (h.deadlock_iff hf hended).mp hj
  obtain ⟨hf', -⟩ := h.upkeep hf
  obtain ⟨rs, ⟨ho, hlength⟩, -⟩ := h.owned hf hended
  -- all open constructions lead down to the one request
  have hsame : ∀ a b, Waited rs a → Waited rs b → a = b := by
    intro a b ha hb
    match rs, hlength with
    | [], _ => cases ha
    | [r], _ =>
      have ha := List.mem_singleton.mp ha
      have hb := List.mem_singleton.mp hb
      exact Request.waiting.inj (ha.trans hb.symm)
    | _ :: _ :: _, hlength =>
      rw [← hlength] at hsingle
      simp at hsingle
  exact ho.not_ring hsame hf'.registry hring

/-! ## Standstills -/

theorem pollFor_pending {n : Nat} {r' : Request}
    (h : (o.pollFor n).run f = some ((r', false), f')) :
    r' = .waiting n ∧ Runs o (.poll n) f (.pending false) f' := by
  obtain ⟨p, f₁, hp, h⟩ := Job.bind_eq_some.mp h
  rcases await_eq_some hp with ⟨result, f₂, -, rfl, -⟩ | ⟨moved, hq, rfl⟩
  · cases h
  · cases h
    exact ⟨rfl, runs_of_poll _ _ _ _ hq⟩

/-- What a poll of a request does without a move, it does again. -/
theorem pollRequest_again {r r' : Request}
    (h : (o.pollRequest settings r).run f = some ((r', false), f')) (hf : f.On .standing) :
    (o.pollRequest settings r').run f = some ((r', false), f') := by
  cases r with
  | settled result =>
    cases h
    rfl
  | waiting n =>
    obtain ⟨rfl, -⟩ := pollFor_pending h
    exact h
  | new config =>
    obtain ⟨entry, f₁, hentry, hrest⟩ := Job.bind_eq_some.mp h
    have hentry : o.enter config settings f = (entry, f₁) := Option.some.inj hentry
    cases entry with
    | answered result => cases hrest
    | waiting n =>
      have hpoll : (o.pollFor n).run f₁ = some ((r', false), f') := hrest
      obtain ⟨rfl, poll⟩ := pollFor_pending hpoll
      obtain rfl := enter_stuck hf hentry poll rfl
      exact hpoll

/-- What a round does without a move, it does again, and it changes nothing. -/
theorem round_again {rs rs' : List Request}
    (h : (o.round settings rs).run f = some ((rs', false), f')) (hc : Calm rs f) :
    f' = f ∧ (o.round settings rs').run f = some ((rs', false), f) := by
  have hsame := ((sweeps_of_round h).stuck rfl hc).1
  refine ⟨hsame, ?_⟩
  subst hsame
  induction rs generalizing rs' with
  | nil =>
    cases h
    rfl
  | cons r rs ih =>
    obtain ⟨⟨q, moved⟩, f₁, hpoll, h⟩ := Job.bind_eq_some.mp h
    obtain ⟨⟨qs, later⟩, f₂, hround, h⟩ := Job.bind_eq_some.mp h
    obtain ⟨hout, rfl⟩ := Prod.mk.inj (Option.some.inj h)
    obtain ⟨rfl, hmoved⟩ := Prod.mk.inj hout
    obtain ⟨rfl, rfl⟩ : moved = false ∧ later = false := by simpa using hmoved
    obtain ⟨rfl, -⟩ := (serves_of_pollRequest hpoll).stuck rfl hc.on hc.toReady.head hc.still
    have hagain := ih hround ⟨hc.toReady.tail, hc.still⟩
    exact Job.bind_eq_some.mpr ⟨_, _, pollRequest_again hpoll hc.on,
      Job.bind_eq_some.mpr ⟨_, _, hagain, rfl⟩⟩

/-- **A deadlock is a standstill**: some request is not settled, and a further round changes
nothing. -/
theorem rounds_standstill {limit : Nat} {rs : List Request}
    (h : (o.rounds settings limit rs).run f = some (.deadlock, f')) (hc : Calm rs f) :
    ∃ rs', rs'.length = rs.length ∧ (∃ r ∈ rs', ∀ result, r ≠ .settled result) ∧
      (o.round settings rs').run f' = some ((rs', false), f') := by
  induction limit generalizing rs f with
  | zero => cases h
  | succ limit ih =>
    rw [rounds] at h
    obtain ⟨⟨rs', moved⟩, f₁, hround, h⟩ := Job.bind_eq_some.mp h
    have hsweeps := sweeps_of_round hround
    dsimp only at h
    cases hall : rs'.mapM Request.result? with
    | some results =>
      rw [hall] at h
      cases h
    | none =>
      rw [hall] at h
      cases moved with
      | false =>
        cases h
        obtain ⟨rfl, hagain⟩ := round_again hround hc
        exact ⟨rs', hsweeps.length, Request.mapM_result?_eq_none hall, hagain⟩
      | true =>
        obtain ⟨rs'', hlength, hstand⟩ :=
          ih h (hsweeps.invariant (fun hc hserve => hserve.calm hc) [] hc)
        exact ⟨rs'', hlength.trans hsweeps.length, hstand⟩

theorem join_standstill {configs : List NodeId}
    (h : (o.join settings configs).run f = some (.deadlock, f')) (hf : f.On .standing)
    (hended : ∀ n, ¬ f.registry.IsOpen n) :
    ∃ rs, rs.length = configs.length ∧ (∃ r ∈ rs, ∀ result, r ≠ .settled result) ∧
      (o.round settings rs).run f' = some ((rs, false), f') := by
  obtain ⟨f₀, f₁, hget, h⟩ := Job.bind_eq_some.mp h
  cases hget
  obtain ⟨rs, hlength, hstand⟩ := rounds_standstill h (calm_new hf hended configs)
  exact ⟨rs, hlength.trans (List.length_map _), hstand⟩

end Factory

end Wiring

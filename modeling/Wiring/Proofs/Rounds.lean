import Mathlib.Algebra.BigOperators.Group.Finset.Basic
import Mathlib.Algebra.Order.BigOperators.Group.Finset
import Mathlib.Tactic.Ring
import Wiring.Proofs.Failures
import Wiring.Proofs.Termination

/-!
# Joins end

Joins of pools with numbered instances end, and the limit of rounds is never reached
(`join_total`): a round that moves something either settles a request or lowers the credit of a
construction. The measure is the sum of the credits of all configs (`wealth`), with a surcharge for
each request that is not settled; it falls with each such round (`round_total`).

Failures are why settled requests count more than credits do: a key whose construction has failed
may be started again, with full credit. But an error settles the request that is being polled, and
a poll of a request that is not settled is without failures (`Prospers`).
-/

namespace Wiring

namespace Factory

open Registry

variable {o : Factory} {size degree : Nat} {C : NodeId → Prop} {credit credit' : Nat → Nat}
  {settings : Settings} {f f₁ f' : Floor}

/-! ## The wealth of a floor -/

/-- The credit of the construction of a config, or full credit if there is none. -/
def worth (degree : Nat) (credit : Nat → Nat) (f : Floor) (config : NodeId) : Nat :=
  match f.graph.value? config with
  | none => degree + 3
  | some key => match f.registry.current? key with
    | none => degree + 3
    | some n => credit n

/-- The credits of certain configs together. -/
def wealth (degree : Nat) (credit : Nat → Nat) (f : Floor) (configs : Finset NodeId) : Nat :=
  ∑ x ∈ configs, worth degree credit f x

theorem worth_of_none {config : NodeId} (h : f.graph.value? config = none) :
    worth degree credit f config = degree + 3 := by
  rw [worth, h]

theorem worth_of_free {config : NodeId} {key : String} (h : f.graph.value? config = some key)
    (hcur : f.registry.current? key = none) : worth degree credit f config = degree + 3 := by
  rw [worth, h]
  dsimp only
  rw [hcur]

theorem worth_of_current {config : NodeId} {key : String} {n : Nat}
    (h : f.graph.value? config = some key) (hcur : f.registry.current? key = some n) :
    worth degree credit f config = credit n := by
  rw [worth, h]
  dsimp only
  rw [hcur]

theorem worth_le (hlimit : ∀ n, credit n ≤ degree + 3) (config : NodeId) :
    worth degree credit f config ≤ degree + 3 := by
  unfold worth
  split
  · exact Nat.le_refl _
  · split
    · exact Nat.le_refl _
    · exact hlimit _

theorem wealth_le (hlimit : ∀ n, credit n ≤ degree + 3) (configs : Finset NodeId) :
    wealth degree credit f configs ≤ configs.card * (degree + 3) := by
  have h := Finset.sum_le_card_nsmul configs (worth degree credit f) (degree + 3)
    fun x _ => worth_le hlimit x
  exact h

/-- Work without failures. -/
structure Prospers (f f' : Floor) : Prop where
  orderly : f.registry.Orderly
  orderly' : f'.registry.Orderly
  leads : f.registry.Leads f'.registry
  graph : f.graph.Extends f'.graph
  clean : ∃ j, f'.registry.journal.toList = f.registry.journal.toList ++ j ∧ Journal.Clean j

/-- Without failures current constructions stay current. -/
theorem Prospers.current (h : Prospers f f') {key : String} {n : Nat}
    (hcur : f.registry.current? key = some n) : f'.registry.current? key = some n := by
  obtain ⟨c, hc, hkey, hlive⟩ := (h.orderly.current_iff key n).mp hcur
  obtain ⟨d, hd, hbec⟩ := h.leads.becomes hc
  refine (h.orderly'.current_iff key n).mpr ⟨d, hd, hbec.key.trans hkey, ?_⟩
  rintro ⟨e, he⟩
  obtain ⟨j, hj, hclean⟩ := h.clean
  have hended := (h.orderly'.ended_iff n _).mpr ⟨d, hd, he⟩
  rw [hj] at hended
  rcases List.mem_append.mp hended with hold | hnew
  · obtain ⟨c', hc', hs⟩ := (h.orderly.ended_iff n _).mp hold
    obtain rfl : c = c' := Option.some.inj (hc.symm.trans hc')
    exact hlive ⟨e, hs⟩
  · exact hclean n e hnew

/-- Without failures no config gains worth. -/
theorem Prospers.worth_le (h : Prospers f f') (hlimit : ∀ n, credit n ≤ degree + 3)
    (hle : ∀ n, credit' n ≤ credit n) (config : NodeId) :
    worth degree credit' f' config ≤ worth degree credit f config := by
  have hlimit' : ∀ n, credit' n ≤ degree + 3 := fun n => Nat.le_trans (hle n) (hlimit n)
  cases hvalue : f.graph.value? config with
  | none =>
    rw [worth_of_none hvalue]
    exact Factory.worth_le hlimit' config
  | some key =>
    cases hcur : f.registry.current? key with
    | none =>
      rw [worth_of_free hvalue hcur]
      exact Factory.worth_le hlimit' config
    | some n =>
      rw [worth_of_current hvalue hcur,
        worth_of_current (h.graph.value hvalue) (h.current hcur)]
      exact hle n

/-- If moreover a move has been paid for, the configs together lose worth. -/
theorem Prospers.wealth_lt (h : Prospers f f') (hlimit : ∀ n, credit n ≤ degree + 3)
    (hle : ∀ n, credit' n ≤ credit n) {configs : Finset NodeId}
    (hf' : f'.Funded size degree (· ∈ configs) credit') (hpaid : f'.registry.Paid credit credit') :
    wealth degree credit' f' configs < wealth degree credit f configs := by
  obtain ⟨m, ⟨c, hc, hopen⟩, hlt⟩ := hpaid
  obtain ⟨hconfig, hvalue'⟩ := hf'.config m c hc
  have hcur' := (h.orderly'.current_iff c.key m).mpr
    ⟨c, hc, rfl, Construction.not_failed_of_open hopen⟩
  refine Finset.sum_lt_sum (fun x _ => h.worth_le hlimit hle x) ⟨c.config, hconfig, ?_⟩
  rw [worth_of_current hvalue' hcur']
  refine Nat.lt_of_lt_of_le hlt ?_
  -- before, the config had the credit of this construction or full credit
  cases hvalue : f.graph.value? c.config with
  | none =>
    rw [worth_of_none hvalue]
    exact hlimit m
  | some key =>
    obtain rfl : key = c.key := Option.some.inj ((h.graph.value hvalue).symm.trans hvalue')
    cases hcur : f.registry.current? c.key with
    | none =>
      rw [worth_of_free hvalue hcur]
      exact hlimit m
    | some n =>
      obtain rfl : n = m := Option.some.inj ((h.current hcur).symm.trans hcur')
      exact Nat.le_of_eq (worth_of_current hvalue hcur).symm

theorem Prospers.wealth_le (h : Prospers f f') (hlimit : ∀ n, credit n ≤ degree + 3)
    (hle : ∀ n, credit' n ≤ credit n) (configs : Finset NodeId) :
    wealth degree credit' f' configs ≤ wealth degree credit f configs :=
  Finset.sum_le_sum fun x _ => h.worth_le hlimit hle x

/-! ## Polls of requests -/

/-- Credit that has been paid stays paid if there was more of it before. -/
theorem paid_mono {r : Registry} {credit₁ : Nat → Nat} (h : r.Paid credit₁ credit')
    (hle : ∀ n, credit₁ n ≤ credit n) : r.Paid credit credit' := by
  obtain ⟨m, hm, hlt⟩ := h
  exact ⟨m, hm, Nat.lt_of_lt_of_le hlt (hle m)⟩

/-- A request is for a config of a certain kind. -/
def Asks (C : NodeId → Prop) (r : Request) : Prop := ∀ d, r = .new d → C d

/-- Once polled, a request is not new any more. -/
theorem Serves.asks {r r' : Request} {moved : Bool} (h : Serves o settings r f r' moved f') :
    Asks C r' := by
  induction h with
  | entered _ _ ih => exact ih
  | _ => exact fun d hd => nomatch hd

/-- A move that a poll of a request reports settles the request or has been paid for. -/
theorem Serves.spend {suspends : Bool} (hs : o.strategy = .counting suspends)
    (hC : ∀ d < size, C d) {r r' : Request} {moved : Bool}
    (h : Serves o settings r f r' moved f') (hf : f.On .standing) (hr : r.Placed f)
    (hask : Asks C r) (hfund : f.Funded size degree C credit) :
    ∃ credit', f'.Funded size degree C credit' ∧ (∀ n, credit' n ≤ credit n) ∧
      (moved = true → (∃ result, r' = .settled result) ∨ f'.registry.Paid credit credit') := by
  induction h generalizing credit with
  | settled => exact ⟨credit, hfund, fun _ => Nat.le_refl _, fun h => nomatch h⟩
  | @answered config result f f₁ entry =>
    obtain ⟨rfl, -⟩ := enter_answered entry
    exact ⟨credit, hfund, fun _ => Nat.le_refl _, fun _ => .inl ⟨result, rfl⟩⟩
  | @entered config n r moved f f₁ f' entry _ ih =>
    obtain ⟨hf₁, -, -, hr₁⟩ := enter_on (grants_standing config) hf entry
    obtain ⟨credit₁, hfund₁, hle₁, -⟩ := enter_funded hfund (hask config rfl) entry
    obtain ⟨credit', hfund', hle, hpays⟩ :=
      ih hf₁ (placed_of_on hr₁) (fun _ h => nomatch h) hfund₁
    exact ⟨credit', hfund', fun m => Nat.le_trans (hle m) (hle₁ m),
      fun hm => (hpays hm).imp_right fun hpaid => paid_mono hpaid hle₁⟩
  | @received n result f f₁ poll =>
    obtain ⟨credit', h⟩ := poll.spend hs hC hf.orderly (hr n rfl) hfund trivial
    exact ⟨credit', h.funded.receive none n result, h.le, fun _ => .inl ⟨result, rfl⟩⟩
  | @pending n moved f f₁ poll =>
    obtain ⟨credit', h⟩ := poll.spend hs hC hf.orderly (hr n rfl) hfund trivial
    exact ⟨credit', h.funded, h.le, fun hm => .inr (h.pays (hm ▸ rfl))⟩

/-- A poll that does not settle a request is without failures. -/
theorem Serves.prospers {r r' : Request} {moved : Bool} (h : Serves o settings r f r' moved f')
    (hf : f.On .standing) (hr : r.Placed f) (hopen : ∀ result, r' ≠ .settled result) :
    Prospers f f' := by
  obtain ⟨hf', hk, hgrow, -⟩ := h.upkeep hf hr
  obtain ⟨j, hj, hfits⟩ := h.fits
  refine ⟨hf.orderly, hf'.orderly, hk.leads, hgrow.term, j, hj, ?_⟩
  cases r' with
  | settled result => exact absurd rfl (hopen result)
  | new config => exact hfits
  | waiting n => exact hfits

/-! ## Rounds -/

/-- What a request adds to the measure. -/
def surcharge (k : Nat) : Request → Nat
  | .settled _ => 0
  | _ => k + 1

theorem surcharge_of_open {k : Nat} {r : Request} (h : ∀ result, r ≠ .settled result) :
    surcharge k r = k + 1 := by
  cases r with
  | settled result => exact absurd rfl (h result)
  | _ => rfl

variable {configs : Finset NodeId}

/-- The measure of a join: the surcharges of its requests and the wealth of its floor. -/
def potential (degree : Nat) (configs : Finset NodeId) (credit : Nat → Nat) (rs : List Request)
    (f : Floor) : Nat :=
  (rs.map (surcharge (configs.card * (degree + 3)))).sum + wealth degree credit f configs

/-- What a join has while it goes on. -/
structure Affords (size degree : Nat) (configs : Finset NodeId) (credit : Nat → Nat)
    (rs : List Request) (f : Floor) : Prop extends Ready rs f where
  asks : ∀ r ∈ rs, Asks (· ∈ configs) r
  funded : f.Funded size degree (· ∈ configs) credit
  size_le : size ≤ f.graph.size

/-- The measure does not rise with a poll of a request, and it falls with a move. -/
theorem Serves.potential_le {suspends : Bool} (hs : o.strategy = .counting suspends)
    (hsize : ∀ d < size, d ∈ configs) {r r' : Request} {moved : Bool} {rs : List Request}
    (h : Serves o settings r f r' moved f') (ha : Affords size degree configs credit (r :: rs) f) :
    ∃ credit', Affords size degree configs credit' (r' :: rs) f' ∧
      potential degree configs credit' (r' :: rs) f' ≤
        potential degree configs credit (r :: rs) f ∧
      (moved = true → potential degree configs credit' (r' :: rs) f' <
        potential degree configs credit (r :: rs) f) := by
  by_cases hbefore : ∃ result, r = .settled result
  · obtain ⟨result, rfl⟩ := hbefore
    cases h
    exact ⟨credit, ha, Nat.le_refl _, fun h => nomatch h⟩
  have hr := ha.toReady.head
  obtain ⟨-, -, hgrow, -⟩ := h.upkeep ha.on hr
  obtain ⟨credit', hfund', hle, hpays⟩ :=
    h.spend hs hsize ha.on hr (ha.asks r List.mem_cons_self) ha.funded
  have haffords : Affords size degree configs credit' (r' :: rs) f' := by
    have hready : Ready ([] ++ r :: rs) f := ha.toReady
    refine ⟨hready.serves h, fun q hq => ?_, hfund', Nat.le_trans ha.size_le hgrow.term.size_le⟩
    rcases List.mem_cons.mp hq with rfl | hq
    · exact h.asks
    · exact ha.asks q (List.mem_cons_of_mem _ hq)
  refine ⟨credit', haffords, ?_⟩
  simp only [potential, List.map_cons, List.sum_cons]
  rw [surcharge_of_open fun result hr => hbefore ⟨result, hr⟩]
  by_cases hafter : ∃ result, r' = .settled result
  · -- wealth may rise, but not by more than the surcharge that falls away
    obtain ⟨result, rfl⟩ := hafter
    have hnew : surcharge (configs.card * (degree + 3)) (.settled result) = 0 := rfl
    have hwealth := wealth_le (f := f') hfund'.limit configs
    rw [hnew]
    exact ⟨by omega, fun _ => by omega⟩
  · -- the surcharge stays, and wealth pays
    have hopen : ∀ result, r' ≠ .settled result := fun result hr => hafter ⟨result, hr⟩
    have hprospers := h.prospers ha.on hr hopen
    have hwealth := hprospers.wealth_le ha.funded.limit hle configs
    rw [surcharge_of_open hopen]
    refine ⟨by omega, ?_⟩
    intro hm
    have hlt := hprospers.wealth_lt ha.funded.limit hle hfund' ((hpays hm).resolve_left hafter)
    omega

/-! ## Joins -/

theorem pollFor_total {suspends : Bool} (hs : o.strategy = .counting suspends)
    (hord : f.registry.Orderly) (hf : f.Funded size degree C credit) (hsize : size ≤ f.graph.size)
    {n : Nat} (hn : ∃ c, f.registry.construction? n = some c) :
    ∃ r moved f', (o.pollFor n).run f = some ((r, moved), f') := by
  obtain ⟨p, f₁, hp⟩ := poll_total hs hord hf hsize hn
  cases p with
  | ready result =>
    exact ⟨_, _, _, Job.bind_eq_some.mpr ⟨_, _, Job.bind_eq_some.mpr ⟨_, _, hp, rfl⟩, rfl⟩⟩
  | pending moved =>
    exact ⟨_, _, _, Job.bind_eq_some.mpr ⟨_, _, Job.bind_eq_some.mpr ⟨_, _, hp, rfl⟩, rfl⟩⟩

theorem pollRequest_total {suspends : Bool} (hs : o.strategy = .counting suspends)
    (settings : Settings) {r : Request}
    (hf : f.On .standing) (hr : r.Placed f) (hask : Asks C r)
    (hfund : f.Funded size degree C credit) (hsize : size ≤ f.graph.size) :
    ∃ r' moved f', (o.pollRequest settings r).run f = some ((r', moved), f') := by
  cases r with
  | settled result => exact ⟨_, _, _, rfl⟩
  | waiting n => exact pollFor_total hs hf.orderly hfund hsize (hr n rfl)
  | new config =>
    rcases hentry : o.enter config settings f with ⟨entry, f₁⟩
    have hrun : (modifyGet (o.enter config settings) : Job Entry).run f = some (entry, f₁) :=
      congrArg some hentry
    cases entry with
    | answered result => exact ⟨_, _, _, Job.bind_eq_some.mpr ⟨_, _, hrun, rfl⟩⟩
    | waiting n =>
      obtain ⟨hf₁, -, hbench, hr₁⟩ := enter_on (grants_standing config) hf hentry
      obtain ⟨credit₁, hfund₁, -⟩ := enter_funded hfund (hask config rfl) hentry
      have hsize₁ : size ≤ f₁.graph.size := by
        rwa [Floor.graph, hbench]
      obtain ⟨r', moved, f', h⟩ :=
        pollFor_total hs hf₁.orderly hfund₁ hsize₁ (placed_of_on hr₁ n rfl)
      exact ⟨r', moved, f', Job.bind_eq_some.mpr ⟨_, _, hrun, h⟩⟩

theorem potential_cons (r : Request) (rs : List Request) :
    potential degree configs credit (r :: rs) f =
      surcharge (configs.card * (degree + 3)) r + potential degree configs credit rs f :=
  Nat.add_assoc _ _ _

/-- A round ends; the measure does not rise, and it falls with a move. -/
theorem round_total {suspends : Bool} (hs : o.strategy = .counting suspends)
    (settings : Settings) (hsize : ∀ d < size, d ∈ configs) {rs : List Request}
    (ha : Affords size degree configs credit rs f) :
    ∃ rs' moved f' credit', (o.round settings rs).run f = some ((rs', moved), f') ∧
      f.registry.Leads f'.registry ∧ Affords size degree configs credit' rs' f' ∧
      potential degree configs credit' rs' f' ≤ potential degree configs credit rs f ∧
      (moved = true →
        potential degree configs credit' rs' f' < potential degree configs credit rs f) := by
  induction rs generalizing f credit with
  | nil => exact ⟨[], false, f, credit, rfl, .refl _, ha, Nat.le_refl _, fun h => nomatch h⟩
  | cons r rs ih =>
    have hr := ha.toReady.head
    obtain ⟨r', moved, f₁, hpoll⟩ := pollRequest_total hs settings ha.on hr
      (ha.asks r List.mem_cons_self) ha.funded ha.size_le
    have hserve := serves_of_pollRequest hpoll
    obtain ⟨-, hk, -⟩ := hserve.upkeep ha.on hr
    obtain ⟨credit₁, ha₁, hle₁, hlt₁⟩ := hserve.potential_le hs hsize ha
    obtain ⟨rs', later, f', credit', hround, hl, ha', hle', hlt'⟩ := ih
      ⟨ha₁.toReady.tail, fun q hq => ha₁.asks q (List.mem_cons_of_mem _ hq), ha₁.funded,
        ha₁.size_le⟩
    refine ⟨r' :: rs', moved || later, f', credit', ?_, hk.leads.trans hl, ?_, ?_, ?_⟩
    · exact Job.bind_eq_some.mpr ⟨_, _, hpoll, Job.bind_eq_some.mpr ⟨_, _, hround, rfl⟩⟩
    · refine ⟨ha'.toReady.cons (ha₁.toReady.head.leads hl), fun q hq => ?_, ha'.funded,
        ha'.size_le⟩
      rcases List.mem_cons.mp hq with rfl | hq
      · exact ha₁.asks q List.mem_cons_self
      · exact ha'.asks q hq
    · rw [potential_cons] at hle₁ ⊢
      omega
    · intro hm
      rw [potential_cons] at hle₁ hlt₁ ⊢
      cases moved with
      | true =>
        have := hlt₁ rfl
        omega
      | false =>
        have := hlt' (by simpa using hm)
        omega

/-- More rounds than the measure allows are not needed. -/
theorem rounds_total {suspends : Bool} (hs : o.strategy = .counting suspends)
    (settings : Settings) (hsize : ∀ d < size, d ∈ configs) {limit : Nat} {rs : List Request}
    (ha : Affords size degree configs credit rs f)
    (hlimit : potential degree configs credit rs f < limit) :
    ∃ joined f', (o.rounds settings limit rs).run f = some (joined, f') := by
  induction limit generalizing rs f credit with
  | zero => exact absurd hlimit (Nat.not_lt_zero _)
  | succ limit ih =>
    obtain ⟨rs', moved, f₁, credit', hround, -, ha', -, hlt⟩ :=
      round_total hs settings hsize ha
    rw [rounds, StateT.run_bind, hround, Option.bind_eq_bind, Option.bind_some]
    dsimp only
    cases rs'.mapM Request.result? with
    | some results => exact ⟨_, _, rfl⟩
    | none =>
      cases moved with
      | false => exact ⟨_, _, rfl⟩
      | true => exact ih ha' (by have := hlt rfl; omega)

/-- Constructions that have ended need no credit, so full credit is enough where nothing is open. -/
theorem funded_of_ended (hf : f.On .standing) (hended : ∀ n, ¬ f.registry.IsOpen n)
    (hC : ∀ d < f.graph.size, C d) :
    f.Funded f.graph.size f.graph.links.size C fun _ => f.graph.links.size + 3 where
  graph := Graph.Closed.bounded hf.inv
  limit _ := Nat.le_refl _
  unused _ _ := rfl
  config n c hc := by
    have hvalue := (hf.registry n c hc).1.1
    exact ⟨hC _ (Graph.lt_size_of_value hvalue), hvalue⟩
  stage n c hc := by
    obtain ⟨result, hs⟩ := result_of_not_open (hended n) hc
    rw [hs]
    trivial

/-- The limit of rounds leaves room for what the requests and the configs add to the measure. -/
theorem lt_roundLimit (g : Graph) {requests k : Nat}
    (hk : k ≤ (g.size + requests) * (g.links.size + 3)) :
    requests * (k + 1) + k < roundLimit g requests := by
  calc requests * (k + 1) + k
      = (requests + 1) * k + requests := by ring
    _ ≤ (requests + 1) * ((g.size + requests) * (g.links.size + 3)) + requests :=
      Nat.add_le_add_right (Nat.mul_le_mul_left _ hk) _
    _ < (requests + 1) * ((g.size + requests) * (g.links.size + 3)) +
        (requests + 1) * (g.links.size + 3) := by
      have : requests + 1 ≤ (requests + 1) * (g.links.size + 3) :=
        Nat.le_mul_of_pos_right _ (by omega)
      omega
    _ = roundLimit g requests := by
      rw [roundLimit]
      ring

/-- **Joins end**, if nothing is open before. -/
theorem join_total {suspends : Bool} (hs : o.strategy = .counting suspends) (settings : Settings)
    (ids : List NodeId) (hf : f.On .standing) (hended : ∀ n, ¬ f.registry.IsOpen n) :
    ∃ joined f', (o.join settings ids).run f = some (joined, f') := by
  let configs : Finset NodeId := Finset.range f.graph.size ∪ ids.toFinset
  have hcard : configs.card ≤ f.graph.size + ids.length := by
    refine Nat.le_trans (Finset.card_union_le _ _) (Nat.add_le_add ?_ (List.toFinset_card_le _))
    rw [Finset.card_range]
  have hsize : ∀ d < f.graph.size, d ∈ configs := fun d hd =>
    Finset.mem_union_left _ (Finset.mem_range.mpr hd)
  have ha : Affords f.graph.size f.graph.links.size configs (fun _ => f.graph.links.size + 3)
      (ids.map .new) f := by
    refine ⟨.new hf ids, fun r hr => ?_, funded_of_ended hf hended hsize, Nat.le_refl _⟩
    rintro d rfl
    have hd : d ∈ ids := by simpa using hr
    exact Finset.mem_union_right _ (List.mem_toFinset.mpr hd)
  have hlimit : potential f.graph.links.size configs (fun _ => f.graph.links.size + 3)
      (ids.map .new) f < roundLimit f.graph ids.length := by
    have hwealth := wealth_le (f := f) ha.funded.limit configs
    have hsum : ((ids.map Request.new).map (surcharge (configs.card * (f.graph.links.size + 3)))).sum
        = ids.length * (configs.card * (f.graph.links.size + 3) + 1) := by
      rw [List.map_map]
      show (ids.map fun _ => configs.card * (f.graph.links.size + 3) + 1).sum = _
      rw [List.map_const', List.sum_replicate, Nat.nsmul_eq_mul]
    rw [potential, hsum]
    exact Nat.lt_of_le_of_lt (Nat.add_le_add_left hwealth _)
      (lt_roundLimit f.graph (Nat.mul_le_mul_right _ hcard))
  obtain ⟨joined, f', h⟩ := rounds_total hs settings hsize ha hlimit
  exact ⟨joined, f', Job.bind_eq_some.mpr ⟨f, f, rfl, h⟩⟩

end Factory

end Wiring

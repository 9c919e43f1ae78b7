import Wiring.Proofs.Joins
import Wiring.Proofs.Standing

/-!
# Requests on terms

Terms of work say how the requests of constructions are answered. The requests of callers are
answered on the same terms: if the terms grant what a join asks for (`Terms.Grants`), all its
answers are granted ones (`Concludes.on`).

Since the standing terms grant everything, every join keeps the registry in order and grows the
graph (`Concludes.upkeep`), and other invariants of joins may count on that
(`Concludes.preserves`).
-/

namespace Wiring

/-- A floor whose registry is in order and on the terms. -/
structure Floor.On (T : Terms) (f : Floor) : Prop where
  orderly : f.registry.Orderly
  inv : T.inv f.bench
  registry : T.Registry f.registry f.bench

/-- The terms grant a caller's request for a config certain answers. -/
structure Terms.Grants (T : Terms) (o : Factory) (settings : Settings) (d : NodeId)
    (answer : Except BuildError Json → Prop) : Prop where
  direct : ∀ {w : Workbench} {result}, T.inv w → o.Direct w.store.graph settings d result →
    answer result
  start : ∀ {w : Workbench} {key}, T.inv w →
    Factory.Constructs w.store.graph settings d key → T.admits w ⟨d, key, settings.descend key⟩
  share : ∀ {w : Workbench} {e : Errand} {key}, T.inv w →
    Factory.Constructs w.store.graph settings d key → T.admits w e → e.key = key →
    ∀ result, T.result e result → answer result

/-- A request for a config is about to be granted one of certain answers. -/
def Request.On (T : Terms) (d : NodeId) (answer : Except BuildError Json → Prop) :
    Request → Floor → Prop
  | .new config, _ => config = d
  | .waiting n, f => ∃ c, f.registry.construction? n = some c ∧
      ∀ result, T.result c.toErrand result → answer result
  | .settled result, _ => answer result

/-- What a request waits for exists. -/
def Request.Placed (r : Request) (f : Floor) : Prop :=
  ∀ n, r = .waiting n → ∃ c, f.registry.construction? n = some c

theorem Request.Placed.leads {r : Request} {f f' : Floor} (h : r.Placed f)
    (hl : f.registry.Leads f'.registry) : r.Placed f' := by
  rintro n rfl
  obtain ⟨c, hc⟩ := h n rfl
  obtain ⟨d, hd, -⟩ := hl.becomes hc
  exact ⟨d, hd⟩

namespace Factory

open Registry

variable {o : Factory} {T : Terms} {settings : Settings} {f f₁ f' : Floor}

/-- A poll is on the terms. -/
theorem Runs.on (hT : T.Suit o) {n : Nat} {p : Progress} (h : Runs o (.poll n) f p f')
    (hf : f.On T) (hn : ∃ c, f.registry.construction? n = some c) :
    f'.On T ∧ f.registry.Keeps f'.registry ∧ T.change f.bench f'.bench := by
  obtain ⟨hk, -⟩ := h.upkeep hf.orderly hn
  obtain ⟨hchange, hreg⟩ := h.within hT hf.orderly hn hf.inv hf.registry trivial
  exact ⟨⟨hk.orderly, hT.inv hf.inv hchange, hreg⟩, hk, hchange⟩

/-- A result that is handed to a caller changes nothing else. -/
theorem on_receive (hf : f.On T) {n : Nat} {c : Construction} {result : Except BuildError Json}
    (hc : f.registry.construction? n = some c) (hs : c.stage = .finished result) :
    (f.receive none n result).On T :=
  ⟨hf.orderly.receive hc hs none, hf.inv, Terms.Registry.record hf.registry _⟩

/-- A request stays granted while the registry goes on. -/
theorem on_of_leads {d : NodeId} {answer : Except BuildError Json → Prop} {r : Request}
    (h : r.On T d answer f) (hl : f.registry.Leads f'.registry) : r.On T d answer f' := by
  cases r with
  | new config => exact h
  | settled result => exact h
  | waiting n =>
    obtain ⟨c, hc, hr⟩ := h
    obtain ⟨c', hc', hbec⟩ := hl.becomes hc
    exact ⟨c', hc', hbec.errand ▸ hr⟩

/-- Entering a request that is granted. -/
theorem enter_on {d : NodeId} {answer : Except BuildError Json → Prop} {n : Nat}
    (hg : T.Grants o settings d answer) (hf : f.On T)
    (he : o.enter d settings f = (.waiting n, f₁)) :
    f₁.On T ∧ f.registry.Keeps f₁.registry ∧ f₁.bench = f.bench ∧
      (Request.waiting n).On T d answer f₁ := by
  obtain ⟨hk, hbench, -⟩ := keeps_of_enter hf.orderly he
  have hinv : T.inv f₁.bench := hbench ▸ hf.inv
  obtain ⟨key, hkey, ⟨hcur, rfl⟩ | ⟨hfree, hstart⟩⟩ := enter_waiting he
  · obtain ⟨c, hc, hckey, -⟩ := (hf.orderly.current_iff key n).mp hcur
    exact ⟨hf, hk, rfl, c, hc, hg.share hf.inv hkey (hf.registry _ _ hc).1 hckey⟩
  · cases hstart
    have hadm := hg.start hf.inv hkey
    refine ⟨⟨hk.orderly, hinv, Terms.Registry.start hf.registry hadm⟩, hk, rfl,
      ⟨⟨d, key, settings.descend key⟩, none, .fresh⟩, ?_, hg.share hf.inv hkey hadm rfl⟩
    exact construction?_start_self ..

/-- One poll of a request that is granted. -/
theorem Serves.on (hT : T.Suit o) {d : NodeId} {answer : Except BuildError Json → Prop}
    {r r' : Request} {moved : Bool} (hg : T.Grants o settings d answer)
    (h : Serves o settings r f r' moved f') (hf : f.On T) (hr : r.On T d answer f) :
    f'.On T ∧ f.registry.Keeps f'.registry ∧ T.change f.bench f'.bench ∧
      r'.On T d answer f' := by
  induction h with
  | settled => exact ⟨hf, .refl hf.orderly, hT.refl _, hr⟩
  | answered entry =>
    obtain rfl : _ = d := hr
    obtain ⟨rfl, hdirect⟩ := enter_answered entry
    exact ⟨hf, .refl hf.orderly, hT.refl _, hg.direct hf.inv hdirect⟩
  | entered entry _ ih =>
    obtain rfl : _ = d := hr
    obtain ⟨hf₁, hk₁, hbench, hr₁⟩ := enter_on hg hf entry
    obtain ⟨hf', hk', hchange, hr'⟩ := ih hf₁ hr₁
    exact ⟨hf', Keeps.trans hk₁ hk', hbench ▸ hchange, hr'⟩
  | @received n result f f₁ poll =>
    obtain ⟨c, hc, hanswer⟩ := hr
    obtain ⟨hf₁, hk, hchange⟩ := poll.on hT hf ⟨c, hc⟩
    obtain ⟨-, c₁, hc₁, hs⟩ := poll.upkeep hf.orderly ⟨c, hc⟩
    have hres := Terms.Registry.result hf₁.registry hk.leads hc hc₁ hs
    exact ⟨on_receive hf₁ hc₁ hs, poll.keeps_receive hf.orderly ⟨c, hc⟩ none, hchange,
      hanswer _ hres⟩
  | pending poll =>
    obtain ⟨c, hc, hanswer⟩ := hr
    obtain ⟨hf₁, hk, hchange⟩ := poll.on hT hf ⟨c, hc⟩
    exact ⟨hf₁, hk, hchange, on_of_leads ⟨c, hc, hanswer⟩ hk.leads⟩

/-- **All answers of a join are granted ones.** -/
theorem Concludes.on (hT : T.Suit o) {answer : NodeId → Except BuildError Json → Prop}
    {configs : List NodeId} {joined : Joined}
    (h : Concludes o settings (configs.map .new) f joined f') (hf : f.On T)
    (hg : ∀ d ∈ configs, T.Grants o settings d (answer d)) :
    f'.On T ∧ f.registry.Keeps f'.registry ∧ T.change f.bench f'.bench ∧
      ∀ results, joined = .answers results → List.Forall₂ answer configs results := by
  let J (f' : Floor) : Prop :=
    f'.On T ∧ f.registry.Keeps f'.registry ∧ T.change f.bench f'.bench
  let P (d : NodeId) (r : Request) (f : Floor) : Prop :=
    T.Grants o settings d (answer d) ∧ r.On T d (answer d) f
  -- requests for different configs have different terms, so each is followed with its own
  have step : ∀ {r f r' moved f'}, J f → (∃ d, P d r f) → Serves o settings r f r' moved f' →
      J f' ∧ (∀ d, P d r f → P d r' f') ∧ ∀ d q, P d q f → P d q f' := by
    rintro r f₁ r' moved f₂ ⟨hf₁, hk₁, hchange₁⟩ ⟨d, hg, hr⟩ hserve
    obtain ⟨hf₂, hk₂, hchange₂, -⟩ := hserve.on hT hg hf₁ hr
    refine ⟨⟨hf₂, Keeps.trans hk₁ hk₂, hT.trans hchange₁ hchange₂⟩, ?_, ?_⟩
    · rintro d ⟨hg, hr⟩
      exact ⟨hg, (hserve.on hT hg hf₁ hr).2.2.2⟩
    · rintro d q ⟨hg, hq⟩
      exact ⟨hg, on_of_leads hq hk₂.leads⟩
  have hnew : List.Forall₂ (P · · f) configs (configs.map .new) :=
    List.forall₂_map_right_iff.mpr (List.forall₂_same.mpr fun d hd => ⟨hg d hd, rfl⟩)
  obtain ⟨⟨hf', hk, hchange⟩, rs', hP, hof⟩ := h.each step ⟨hf, .refl hf.orderly, hT.refl _⟩ hnew
  refine ⟨hf', hk, hchange, ?_⟩
  rintro results rfl
  obtain rfl : rs' = results.map .settled := hof
  exact (List.forall₂_map_right_iff.mp hP).imp fun d r h => h.2

/-! ## Standing terms -/

/-- The standing terms grant every request. -/
theorem grants_standing (d : NodeId) :
    Terms.standing.Grants o settings d fun _ => True where
  direct _ _ := trivial
  start _ h := ⟨h.value, (Settings.isInProgress_descend ..).mpr (.inl rfl)⟩
  share _ _ _ _ _ _ := trivial

theorem on_standing_of_placed {r : Request} (h : r.Placed f) :
    ∃ d, r.On .standing d (fun _ => True) f := by
  cases r with
  | new config => exact ⟨config, rfl⟩
  | settled result => exact ⟨0, trivial⟩
  | waiting n =>
    obtain ⟨c, hc⟩ := h n rfl
    exact ⟨0, c, hc, fun _ _ => trivial⟩

theorem placed_of_on {d : NodeId} {answer : Except BuildError Json → Prop} {r : Request}
    (h : r.On T d answer f) : r.Placed f := by
  rintro n rfl
  obtain ⟨c, hc, -⟩ := h
  exact ⟨c, hc⟩

/-- One poll of a request keeps the registry in order and grows the graph. -/
theorem Serves.upkeep {r r' : Request} {moved : Bool} (h : Serves o settings r f r' moved f')
    (hf : f.On .standing) (hr : r.Placed f) :
    f'.On .standing ∧ f.registry.Keeps f'.registry ∧ f.graph.Grows f'.graph ∧ r'.Placed f' := by
  obtain ⟨d, hd⟩ := on_standing_of_placed hr
  obtain ⟨hf', hk, hgrow, hr'⟩ := h.on (suit_standing o) (grants_standing d) hf hd
  exact ⟨hf', hk, hgrow, placed_of_on hr'⟩

/-- A join keeps the registry in order and grows the graph. -/
theorem Concludes.upkeep {configs : List NodeId} {joined : Joined}
    (h : Concludes o settings (configs.map .new) f joined f') (hf : f.On .standing) :
    f'.On .standing ∧ f.registry.Keeps f'.registry ∧ f.graph.Grows f'.graph := by
  have hgrants : ∀ d ∈ configs, Terms.standing.Grants o settings d ((fun _ _ => True) d) :=
    fun d _ => grants_standing d
  obtain ⟨hf', hk, hgrow, -⟩ := h.on (suit_standing o) hf hgrants
  exact ⟨hf', hk, hgrow⟩

/-- A floor in order, where the constructions that certain requests wait for exist. -/
structure Ready (rs : List Request) (f : Floor) : Prop where
  on : f.On .standing
  placed : ∀ r ∈ rs, r.Placed f

namespace Ready

variable {r r' : Request} {rs : List Request}

theorem head (h : Ready (r :: rs) f) : r.Placed f := h.placed r List.mem_cons_self

theorem tail (h : Ready (r :: rs) f) : Ready rs f :=
  ⟨h.on, fun q hq => h.placed q (List.mem_cons_of_mem _ hq)⟩

theorem cons (h : Ready rs f) (hr : r.Placed f) : Ready (r :: rs) f := by
  refine ⟨h.on, ?_⟩
  intro q hq
  rcases List.mem_cons.mp hq with rfl | hq
  · exact hr
  · exact h.placed q hq

/-- Requests that have not been polled wait for nothing. -/
theorem new (hf : f.On .standing) (configs : List NodeId) : Ready (configs.map .new) f := by
  refine ⟨hf, ?_⟩
  rintro r hr n rfl
  simp at hr

/-- A poll of one of the requests is the next step. -/
theorem serves {before after : List Request} {moved : Bool} (h : Ready (before ++ r :: after) f)
    (hserve : Serves o settings r f r' moved f') : Ready (before ++ r' :: after) f' := by
  obtain ⟨hf', hk, -, hr'⟩ := hserve.upkeep h.on (h.placed r (by simp))
  refine ⟨hf', ?_⟩
  intro q hq
  rcases List.mem_append.mp hq with hq | hq
  · exact (h.placed q (List.mem_append_left _ hq)).leads hk.leads
  · rcases List.mem_cons.mp hq with rfl | hq
    · exact hr'
    · exact (h.placed q (by simp [hq])).leads hk.leads

end Ready

/-- An invariant of joins, whose steps may count on floors in order. -/
theorem Concludes.preserves {I : List Request → Floor → Prop}
    (step : ∀ {before r after f r' moved f'}, f.On .standing → r.Placed f →
      I (before ++ r :: after) f → Serves o settings r f r' moved f' →
      I (before ++ r' :: after) f')
    {configs : List NodeId} {joined : Joined}
    (h : Concludes o settings (configs.map .new) f joined f') (hf : f.On .standing)
    (hI : I (configs.map .new) f) : ∃ rs, I rs f' ∧ joined.Of rs := by
  have step' : ∀ {before r after f r' moved f'},
      Ready (before ++ r :: after) f ∧ I (before ++ r :: after) f →
      Serves o settings r f r' moved f' →
      Ready (before ++ r' :: after) f' ∧ I (before ++ r' :: after) f' := by
    rintro before r after f₁ r' moved f₂ ⟨hready, hI⟩ hserve
    exact ⟨hready.serves hserve, step hready.on (hready.placed r (by simp)) hI hserve⟩
  obtain ⟨rs, ⟨-, hI'⟩, hof⟩ :=
    h.invariant (I := fun rs f => Ready rs f ∧ I rs f) step' ⟨.new hf configs, hI⟩
  exact ⟨rs, hI', hof⟩

end Factory

end Wiring

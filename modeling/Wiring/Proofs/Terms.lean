import Wiring.Proofs.Upkeep

/-!
# Terms of work

How facts about the builds of a strategy become facts about all that a factory does with them.
`Terms` say what a construction may count on (an invariant of the workbench, the answers to its
requests) and what it must provide (allowed changes of the workbench, an allowed result).
`Build.Within` is the weakest precondition of a build on these terms.

If the terms suit a factory (`Terms.Suit`: each of its builds, started on the terms, is within
them, and requests are answered as the terms say), all its work is within them, however
constructions are suspended, resumed and shared (`Runs.within`).
-/

namespace Wiring

/-- What constructions may count on and must provide. -/
structure Terms where
  /-- What holds of the workbench at all times. -/
  inv : Workbench → Prop
  /-- How the workbench changes. -/
  change : Workbench → Workbench → Prop
  /-- Which constructions there are. -/
  admits : Workbench → Errand → Prop
  /-- Which configs a construction asks for. -/
  asks : Errand → NodeId → Prop
  /-- What it is answered. -/
  answer : Errand → NodeId → Except BuildError Json → Prop
  /-- What comes of it. -/
  result : Errand → Except BuildError Json → Prop
  /-- For which constructions it waits. -/
  waits : Errand → Errand → Prop

/-- A plan keeps the terms of an errand, and a condition holds of its value and the
workbench then. -/
def Build.Within {α : Type} (T : Terms) (e : Errand) (post : α → Workbench → Prop) :
    Build α → Workbench → Prop
  | .done a, w => post a w
  | .fail x, _ => T.result e (.error x)
  | .endless, _ => True
  | .suspend next, _ => ∀ w, T.inv w → next.Within T e post w
  | .request d next, _ => T.asks e d ∧
      (∀ x, T.answer e d (.error x) → T.result e (.error x)) ∧
      ∀ v, T.answer e d (.ok v) → ∀ w, T.inv w → (next v).Within T e post w
  | .read next, w => (next w).Within T e post w
  | .write w' next, w => T.change w w' ∧ next.Within T e post w'

namespace Terms

variable (T : Terms)

/-- The rest of a build keeps the terms and ends with an allowed instance. -/
abbrev Fulfils (e : Errand) (rest : Build Json) (w : Workbench) : Prop :=
  rest.Within T e (fun v _ => T.result e (.ok v)) w

/-- A build for one errand may wait for another, and can go on whatever comes of it. -/
def Continues (e awaited : Errand) (next : Json → Build Json) : Prop :=
  T.waits e awaited ∧
    (∀ x, T.result awaited (.error x) → T.result e (.error x)) ∧
    ∀ v, T.result awaited (.ok v) → ∀ w, T.inv w → T.Fulfils e (next v) w

/-- A stage of a construction keeps the terms. -/
def Stage (r : Registry) (e : Errand) : Stage → Prop
  | .fresh => True
  | .running => True
  | .suspended rest => ∀ w, T.inv w → T.Fulfils e rest w
  | .awaiting other next =>
    ∃ d, r.construction? other = some d ∧ T.Continues e d.toErrand next
  | .finished result => T.result e result

/-- All constructions keep the terms. -/
def Registry (r : Registry) (w : Workbench) : Prop :=
  ∀ n c, r.construction? n = some c → T.admits w c.toErrand ∧ T.Stage r c.toErrand c.stage

/-- A task keeps the terms. -/
def Task (f : Floor) : Task → Prop
  | .poll _ => True
  | .drive n _ rest => ∃ c, f.registry.construction? n = some c ∧
      T.Fulfils c.toErrand rest f.bench
  | .wait n _ other next _ => ∃ c d, f.registry.construction? n = some c ∧
      f.registry.construction? other = some d ∧ T.Continues c.toErrand d.toErrand next

/-- The terms suit a factory. -/
structure Suit (o : Factory) : Prop where
  refl : ∀ w, T.change w w
  trans : ∀ {w₁ w₂ w₃}, T.change w₁ w₂ → T.change w₂ w₃ → T.change w₁ w₃
  inv : ∀ {w w'}, T.inv w → T.change w w' → T.inv w'
  admits : ∀ {w w' e}, T.admits w e → T.change w w' → T.admits w' e
  /-- Preprocessors change the workbench as allowed. -/
  grow : ∀ {w : Workbench} {e graph raw}, T.inv w → T.admits w e →
    rawConfig o.preprocessors w.store.graph e.config = (raw, graph) →
    T.change w { w with store := { w.store with graph } }
  /-- A config without raw form has an allowed error. -/
  unprepared : ∀ {w : Workbench} {e graph x}, T.inv w → T.admits w e →
    rawConfig o.preprocessors w.store.graph e.config = (.error x, graph) → T.result e (.error x)
  /-- Builds keep the terms. -/
  build : ∀ {w : Workbench} {e graph raw}, T.inv w → T.admits w e →
    rawConfig o.preprocessors w.store.graph e.config = (.ok raw, graph) →
    T.Fulfils e (o.strategy.build raw) { w with store := { w.store with graph } }
  /-- Requests that are answered at once are answered as the terms say. -/
  direct : ∀ {w : Workbench} {e d result}, T.inv w → T.admits w e → T.asks e d →
    o.Direct w.store.graph e.settings d result → T.answer e d result
  /-- Requests start constructions that the terms admit. -/
  start : ∀ {w : Workbench} {e d key}, T.inv w → T.admits w e → T.asks e d →
    Factory.Constructs w.store.graph e.settings d key →
    T.admits w ⟨d, key, e.settings.descend key⟩
  /-- Requests that share a construction may wait for it and are answered by its result as the terms
  say. -/
  share : ∀ {w : Workbench} {e e' : Errand} {d key}, T.inv w → T.admits w e → T.asks e d →
    Factory.Constructs w.store.graph e.settings d key → T.admits w e' → e'.key = key →
    T.waits e e' ∧ ∀ result, T.result e' result → T.answer e d result

variable {T}

/-! ## What the operations of a registry keep -/

theorem Stage.leads {r r' : Wiring.Registry} (h : r.Leads r') {e : Errand}
    {stage : Wiring.Stage} (hs : T.Stage r e stage) : T.Stage r' e stage := by
  cases stage with
  | awaiting other next =>
    obtain ⟨d, hd, hnext⟩ := hs
    obtain ⟨d', hd', hbec⟩ := h.becomes hd
    exact ⟨d', hd', hbec.errand ▸ hnext⟩
  | _ => exact hs

variable {r : Wiring.Registry} {w : Workbench} {n : Nat} {c : Construction}

theorem Registry.change {o : Factory} (hT : T.Suit o) {w' : Workbench} (h : T.Registry r w)
    (hw : T.change w w') : T.Registry r w' :=
  fun n c hc => ⟨hT.admits (h n c hc).1 hw, (h n c hc).2⟩

theorem Registry.record (h : T.Registry r w) (e : Event) : T.Registry (r.record e) w :=
  fun n c hc => ⟨(h n c hc).1, (h n c hc).2.leads (Registry.leads_record r e)⟩

theorem Registry.setRaw (h : T.Registry r w) (n : Nat) (raw : NodeId) :
    T.Registry (r.setRaw n raw) w := by
  intro m d hd
  have hleads := Registry.leads_setRaw r n raw
  rcases Registry.modify_cases hd with ⟨rfl, c, hc, rfl⟩ | ⟨-, hd⟩
  · exact ⟨(h _ _ hc).1, (h _ _ hc).2.leads hleads⟩
  · exact ⟨(h _ _ hd).1, (h _ _ hd).2.leads hleads⟩

theorem Registry.setStage (h : T.Registry r w) (hc : r.construction? n = some c)
    (hopen : c.stage.Open) (stage : Wiring.Stage) (hs : T.Stage r c.toErrand stage) :
    T.Registry (r.setStage n stage) w := by
  intro m d hd
  have hleads := Registry.leads_setStage hc hopen stage
  rcases Registry.setStage_cases hc hd with ⟨rfl, rfl⟩ | ⟨-, hd⟩
  · exact ⟨(h _ _ hc).1, hs.leads hleads⟩
  · exact ⟨(h _ _ hd).1, (h _ _ hd).2.leads hleads⟩

theorem Registry.finish (h : T.Registry r w) (hc : r.construction? n = some c)
    (hopen : c.stage.Open) {result : Except BuildError Json} (hr : T.result c.toErrand result) :
    T.Registry (r.finish n result) w := by
  intro m d hd
  have hleads := Registry.leads_finish hc hopen result
  rcases Registry.finish_cases hc hd with ⟨rfl, rfl⟩ | ⟨-, hd⟩
  · exact ⟨(h _ _ hc).1, hr⟩
  · exact ⟨(h _ _ hd).1, (h _ _ hd).2.leads hleads⟩

theorem Registry.start (h : T.Registry r w) {config : NodeId} {key : String}
    {settings : Settings} (ha : T.admits w ⟨config, key, settings⟩) :
    T.Registry (r.start config key settings).2 w := by
  intro m d hd
  rcases Registry.start_cases hd with ⟨-, rfl⟩ | ⟨-, hd⟩
  · exact ⟨ha, trivial⟩
  · exact ⟨(h _ _ hd).1, (h _ _ hd).2.leads (Registry.leads_start ..)⟩

/-- The result of a construction is allowed. -/
theorem Registry.result {r' : Wiring.Registry} {d : Construction} {result : Except BuildError Json}
    (h : T.Registry r' w) (hl : r.Leads r') (hc : r.construction? n = some c)
    (hd : r'.construction? n = some d) (hs : d.stage = .finished result) :
    T.result c.toErrand result := by
  obtain ⟨d', hd', hbec⟩ := hl.becomes hc
  obtain rfl : d = d' := Option.some.inj (hd.symm.trans hd')
  have hstage : T.Stage r' d.toErrand d.stage := (h _ _ hd).2
  rw [hs, hbec.errand] at hstage
  exact hstage

end Terms

namespace Factory

open Registry

variable {o : Factory} {T : Terms}

/-- A request of a construction is met on the terms: by an allowed answer, or by a construction with
whose result the build can go on. -/
theorem enter_within (hT : T.Suit o) {f f₁ : Floor} {n other : Nat} {c : Construction} {d : NodeId}
    {next : Json → Build Json} (hord : f.registry.Orderly) (hinv : T.inv f.bench)
    (hreg : T.Registry f.registry f.bench) (hc : f.registry.construction? n = some c)
    (hb : T.Fulfils c.toErrand (.request d next) f.bench)
    (he : o.enter d c.settings f = (.waiting other, f₁)) :
    T.Registry f₁.registry f₁.bench ∧ T.Task f₁ (.wait n c.settings other next true) := by
  obtain ⟨hasks, herror, hok⟩ := hb
  obtain ⟨key, hkey, ⟨hcur, rfl⟩ | ⟨hfree, hstart⟩⟩ := enter_waiting he
  · obtain ⟨c', hc', hkey', -⟩ := (hord.current_iff key other).mp hcur
    obtain ⟨hwaits, hshare⟩ := hT.share hinv (hreg _ _ hc).1 hasks hkey (hreg _ _ hc').1 hkey'
    exact ⟨hreg, c, c', hc, hc', hwaits, fun x hx => herror x (hshare _ hx),
      fun v hv => hok v (hshare _ hv)⟩
  · cases hstart
    have hadm := hT.start hinv (hreg _ _ hc).1 hasks hkey
    obtain ⟨hwaits, hshare⟩ := hT.share hinv (hreg _ _ hc).1 hasks hkey hadm rfl
    refine ⟨Terms.Registry.start hreg hadm, c, ⟨⟨d, key, c.settings.descend key⟩, none, .fresh⟩,
      ?_, ?_, hwaits, fun x hx => herror x (hshare _ hx), fun v hv => hok v (hshare _ hv)⟩
    · exact construction?_start_of_some hc ..
    · exact construction?_start_self ..

/-- **All work is on the terms**, if they suit the factory. -/
theorem Runs.within (hT : T.Suit o) {t : Task} {f f' : Floor} {p : Progress}
    (h : Runs o t f p f') (hord : f.registry.Orderly) (hatt : t.Attends f.registry)
    (hinv : T.inv f.bench) (hreg : T.Registry f.registry f.bench) (ht : T.Task f t) :
    T.change f.bench f'.bench ∧ T.Registry f'.registry f'.bench := by
  -- by induction on the work: the task says what is left of a build, and `Suit` where it comes from
  induction h with
  | done v =>
    obtain ⟨c, hc, hb⟩ := ht
    exact ⟨hT.refl _, Terms.Registry.finish hreg hc (hatt.open hc) hb⟩
  | fail e =>
    obtain ⟨c, hc, hb⟩ := ht
    exact ⟨hT.refl _, Terms.Registry.finish hreg hc (hatt.open hc) hb⟩
  | suspend next =>
    obtain ⟨c, hc, hb⟩ := ht
    exact ⟨hT.refl _, Terms.Registry.setStage hreg hc (hatt.open hc) (.suspended next) hb⟩
  | read _ ih => exact ih hord hatt hinv hreg ht
  | write _ ih =>
    obtain ⟨c, hc, hchange, hb⟩ := ht
    obtain ⟨hchange', hreg'⟩ := ih hord hatt (hT.inv hinv hchange)
      (Terms.Registry.change hT hreg hchange) ⟨c, hc, hb⟩
    exact ⟨hT.trans hchange hchange', hreg'⟩
  | answered entry _ ih =>
    obtain ⟨c, hc, hasks, -, hok⟩ := ht
    obtain ⟨rfl, hdirect⟩ := enter_answered entry
    rw [← hatt.settings hc] at hdirect
    have hans := hT.direct hinv (hreg _ _ hc).1 hasks hdirect
    exact ih hord hatt hinv hreg ⟨c, hc, hok _ hans _ hinv⟩
  | refused entry =>
    obtain ⟨c, hc, hasks, herror, -⟩ := ht
    obtain ⟨rfl, hdirect⟩ := enter_answered entry
    rw [← hatt.settings hc] at hdirect
    have hans := hT.direct hinv (hreg _ _ hc).1 hasks hdirect
    exact ⟨hT.refl _, Terms.Registry.finish hreg hc (hatt.open hc) (herror _ hans)⟩
  | request entry _ ih =>
    obtain ⟨c, hc, hb⟩ := ht
    obtain ⟨hk, hbench, hd⟩ := keeps_of_enter hord entry
    have hset := hatt.settings hc
    -- the request joins a construction that is there, or starts one
    obtain ⟨hreg', ht'⟩ := enter_within hT hord hinv hreg hc hb (hset ▸ entry)
    rw [hset] at ht'
    rw [← hbench]
    exact ih hk.orderly ⟨hatt.keeps hk, hd⟩ (hbench ▸ hinv) hreg' ht'
  | @received n settings other next moved v f f₁ p f' poll _ ihp ihr =>
    obtain ⟨c, d, hc, hd, -, -, hok⟩ := ht
    obtain ⟨hchange, hreg₁⟩ := ihp hord hatt.2 hinv hreg trivial
    obtain ⟨hk, d₁, hd₁, hs⟩ := poll.upkeep hord hatt.2
    have hk' := poll.keeps_receive hord hatt.2 (some n)
    obtain ⟨c₁, hc₁, hbec⟩ := hk.leads.becomes hc
    -- the other construction has ended with an allowed result
    have hres := Terms.Registry.result hreg₁ hk.leads hd hd₁ hs
    have hinv₁ := hT.inv hinv hchange
    obtain ⟨hchange', hreg'⟩ := ihr hk'.orderly (hatt.1.keeps hk') hinv₁
      (Terms.Registry.record hreg₁ _) ⟨c₁, hc₁, hbec.errand ▸ hok v hres _ hinv₁⟩
    exact ⟨hT.trans hchange hchange', hreg'⟩
  | @passedOn n settings other next moved e f f₁ poll ihp =>
    obtain ⟨c, d, hc, hd, -, herror, -⟩ := ht
    obtain ⟨hchange, hreg₁⟩ := ihp hord hatt.2 hinv hreg trivial
    obtain ⟨hk, d₁, hd₁, hs⟩ := poll.upkeep hord hatt.2
    obtain ⟨c₁, hc₁, hbec⟩ := hk.leads.becomes hc
    have hres := Terms.Registry.result hreg₁ hk.leads hd hd₁ hs
    refine ⟨hchange, Terms.Registry.finish (Terms.Registry.record hreg₁ _) hc₁
      ((hatt.1.keeps hk).open hc₁) ?_⟩
    exact hbec.errand ▸ herror e hres
  | @blocked n settings other next moved further f f₁ poll ihp =>
    obtain ⟨c, d, hc, hd, hnext⟩ := ht
    obtain ⟨hchange, hreg₁⟩ := ihp hord hatt.2 hinv hreg trivial
    obtain ⟨hk, -⟩ := poll.upkeep hord hatt.2
    obtain ⟨c₁, hc₁, hbec⟩ := hk.leads.becomes hc
    obtain ⟨d₁, hd₁, hdbec⟩ := hk.leads.becomes hd
    refine ⟨hchange, Terms.Registry.setStage hreg₁ hc₁ ((hatt.1.keeps hk).open hc₁)
      (.awaiting other next) ⟨d₁, hd₁, ?_⟩⟩
    rw [hbec.errand, hdbec.errand]
    exact hnext
  | missing lookup => exact ⟨hT.refl _, hreg⟩
  | finished lookup stage => exact ⟨hT.refl _, hreg⟩
  | running lookup stage => exact ⟨hT.refl _, hreg⟩
  | @unprepared n c e graph f lookup stage form =>
    have hopen : c.stage.Open := stage ▸ Stage.open_fresh
    obtain ⟨-, hp⟩ := hord.poll lookup hopen
    have hadm := (hreg _ _ lookup).1
    have hgrow := hT.grow hinv hadm form
    have hreg₁ := Terms.Registry.setStage hreg lookup hopen .running trivial
    have hc₁ := construction?_setStage_self lookup .running
    exact ⟨hgrow, Terms.Registry.finish (Terms.Registry.change hT hreg₁ hgrow) hc₁ (hp.open hc₁)
      (hT.unprepared hinv hadm form)⟩
  | @prepared n c raw graph f p f' lookup stage form _ ih =>
    have hopen : c.stage.Open := stage ▸ Stage.open_fresh
    obtain ⟨hord', hp⟩ := hord.pollFresh lookup stage raw
    have hadm := (hreg _ _ lookup).1
    have hgrow := hT.grow hinv hadm form
    have hreg₁ := Terms.Registry.setStage hreg lookup hopen .running trivial
    have hreg₂ := Terms.Registry.setRaw (Terms.Registry.change hT hreg₁ hgrow) n raw
    obtain ⟨c₂, hc₂, hbec⟩ :=
      (leads_setRaw _ n raw).becomes (construction?_setStage_self lookup .running)
    have hb : T.Fulfils c₂.toErrand (o.strategy.build raw) _ :=
      hbec.errand ▸ hT.build hinv hadm form
    obtain ⟨hchange, hreg'⟩ := ih hord' hp (hT.inv hinv hgrow) hreg₂ ⟨c₂, hc₂, hb⟩
    exact ⟨hT.trans hgrow hchange, hreg'⟩
  | @resumed n c next f p f' lookup stage _ ih =>
    have hopen : c.stage.Open := stage ▸ Stage.open_suspended next
    obtain ⟨hord', hp⟩ := hord.poll lookup hopen
    have hs : T.Stage f.registry c.toErrand (.suspended next) := stage ▸ (hreg _ _ lookup).2
    have hreg₁ := Terms.Registry.setStage hreg lookup hopen .running trivial
    exact ih hord' hp hinv hreg₁ ⟨_, construction?_setStage_self lookup .running, hs _ hinv⟩
  | @awaited n c other next f p f' lookup stage _ ih =>
    have hopen : c.stage.Open := stage ▸ Stage.open_awaiting other next
    obtain ⟨hord', hp⟩ := hord.poll lookup hopen
    have hs : T.Stage f.registry c.toErrand (.awaiting other next) := stage ▸ (hreg _ _ lookup).2
    obtain ⟨d, hd, hnext⟩ := hs
    obtain ⟨d₁, hd₁, hbec⟩ := (leads_setStage lookup hopen .running).becomes hd
    have hreg₁ := Terms.Registry.setStage hreg lookup hopen .running trivial
    exact ih hord' ⟨hp, d₁, hd₁⟩ hinv hreg₁
      ⟨_, d₁, construction?_setStage_self lookup .running, hd₁, hbec.errand ▸ hnext⟩

end Factory

end Wiring

import Wiring.Proofs.Counts
import Wiring.Proofs.DepthFirst
import Wiring.Proofs.Suspension

/-!
# Cycles are broken at back edges

A new pool whose builds do not suspend themselves builds what a config leads to in depth-first order,
each config once, if keys name one config each (`Session.cut_at_back_edges`). A config stands for
itself in the instances of others, but for the back edges of the search: where a config depends on
itself, or on a config on the path to it, the placeholder stands.

The search and the pool go hand in hand (`Factory.Traverses`): the constructions are those of the
discovered nodes, in the order of discovery; those on the path are being polled and all others have
ended. Searching some dependencies is asking for their instances (`Factory.searches_of_depthFirst`).
-/

namespace Wiring

open Counting

/-- All configs that certain nodes lead to are valid and no variables, and their keys are distinct. -/
structure Graph.Regular (g : Graph) (ids : List NodeId) : Prop where
  valid : ∀ x, g.Reaches ids x → g.validate x = .ok ()
  notVariable : ∀ x, g.Reaches ids x → g.isVariable x = false
  distinct : ∀ x y key, g.Reaches ids x → g.Reaches ids y → g.value? x = some key →
    g.value? y = some key → x = y

/-- The keys in progress are those of the nodes on a path. -/
def Settings.On (s : Settings) (g : Graph) (path : List NodeId) : Prop :=
  ∀ key, s.isInProgress key = true ↔ ∃ x ∈ path, g.value? x = some key

/-- The settings of a construction guard the path that it extends. -/
theorem Settings.On.descend {g : Graph} {path : List NodeId} {d : NodeId} {key : String}
    {settings : Settings} (h : settings.On g path)
    (hvalue : g.value? d = some key) : (settings.descend key).On g (d :: path) := by
  intro other
  rw [Settings.isInProgress_descend, h other]
  constructor
  · rintro (rfl | ⟨x, hx, hxv⟩)
    · exact ⟨d, List.mem_cons_self, hvalue⟩
    · exact ⟨x, List.mem_cons_of_mem _ hx, hxv⟩
  · rintro ⟨x, hx, hxv⟩
    rcases List.mem_cons.mp hx with rfl | hx
    · exact .inl (Option.some.inj (hvalue.symm.trans hxv))
    · exact .inr ⟨x, hx, hxv⟩

/-- A regular node has a key. -/
theorem Graph.Regular.value {g : Graph} {ids : List NodeId} {d : NodeId} (h : g.Regular ids)
    (hd : g.Reaches ids d) :
    ∃ key, g.value? d = some key := by
  have hvalid := h.valid d hd
  cases hv : g.value? d with
  | some key => exact ⟨key, rfl⟩
  | none =>
    rw [Graph.validate, Graph.validateField, hv] at hvalid
    cases hvalid

namespace Registry

/-- The instance of a construction that has succeeded. -/
def instance? (r : Registry) (n : Nat) : Option Json :=
  match r.stage? n with
  | some (.finished (.ok v)) => some v
  | _ => none

variable {r r' : Registry}

theorem instance?_eq_some {n : Nat} {v : Json} :
    r.instance? n = some v ↔ ∃ c, r.construction? n = some c ∧ c.stage = .finished (.ok v) := by
  unfold instance? stage?
  cases r.construction? n with
  | none => simp
  | some c =>
    simp only [Option.map_some, Option.some.injEq, exists_eq_left']
    split
    · rename_i w hs
      rw [Option.some.inj hs]
      simp
    · rename_i hother
      simp only [reduceCtorEq, false_iff]
      intro hs
      exact hother v (congrArg some hs)

/-- Instances stay. -/
theorem Leads.instance (h : r.Leads r') {n : Nat} {v : Json} (hv : r.instance? n = some v) :
    r'.instance? n = some v := by
  obtain ⟨c, hc, hs⟩ := instance?_eq_some.mp hv
  obtain ⟨d, hd, hbec⟩ := h.becomes hc
  exact instance?_eq_some.mpr ⟨d, hd, hbec.result _ hs⟩

/-- What stands for a node in the instance of a config that has a path: the placeholder if the node is
on the path, and else the instance of the node's own construction. -/
def Stands (r : Registry) (found : List Discovery) (path : List NodeId) (d : NodeId) (v : Json) :
    Prop :=
  (d ∈ path ∧ v = Strategy.undefined (.counting false)) ∨
    (d ∉ path ∧ ∃ m, (found[m]?).map (·.node) = some d ∧ r.instance? m = some v)

/-- What stands for a dependency of a discovered node in the node's instance: the placeholder if and
only if the dependency is the node itself or on the path to it, and else the one instance of the
dependency. -/
def Cut (r : Registry) (order : List Discovery) (x : Discovery) (d : NodeId) (v : Json) :
    Prop :=
  (v = Strategy.undefined (.counting false) ↔ d = x.node ∨ d ∈ x.path) ∧
    (¬ (d = x.node ∨ d ∈ x.path) →
      ∃ m, (order[m]?).map (·.node) = some d ∧ r.instance? m = some v)

theorem Stands.later {found found' : List Discovery} {path : List NodeId} {d : NodeId} {v : Json}
    (h : r.Stands found path d v) (hl : r.Leads r') (hf : found <+: found') :
    r'.Stands found' path d v := by
  rcases h with hback | ⟨hd, m, hm, hv⟩
  · exact .inl hback
  · refine .inr ⟨hd, m, ?_, hl.instance hv⟩
    obtain ⟨x, hx, hnode⟩ := Option.map_eq_some_iff.mp hm
    obtain ⟨rest, rfl⟩ := hf
    rw [List.getElem?_append_left (List.getElem?_eq_some_iff.mp hx).1, hx]
    exact congrArg some hnode

/-- The construction of a discovered node: it is polled while the node is on the path, and then it has
a numbered instance. -/
structure Begun (g : Graph) (found : List Discovery) (path : List NodeId) (r : Registry) (k : Nat)
    (d : Discovery) (c : Construction) : Prop where
  config : c.config = d.node
  value : g.value? d.node = some c.key
  running : d.node ∈ path → c.stage = .running
  ended : d.node ∉ path → ∃ deps, c.stage = .finished (.ok (inst (k + 1) c.key deps)) ∧
    List.Forall₂ (r.Stands found (d.node :: d.path)) (g.properties d.node Dependency.dep) deps

theorem Begun.later {g : Graph} {found found' : List Discovery} {path : List NodeId} {k : Nat}
    {d : Discovery} {c : Construction} (h : Begun g found path r k d c) (hl : r.Leads r')
    (hf : found <+: found') : Begun g found' path r' k d c where
  config := h.config
  value := h.value
  running := h.running
  ended hd := by
    obtain ⟨deps, hs, hdeps⟩ := h.ended hd
    exact ⟨deps, hs, hdeps.imp fun _ _ hstands => hstands.later hl hf⟩

end Registry

namespace Factory

open Registry

variable {o : Factory} {settings : Settings} {config : NodeId} {key : String} {f f' : Floor}

/-- Without failures left, an instance is assembled from the instances of the dependencies. -/
theorem Runs.assemble {n number : Nat} {raw : NodeId} {p : Progress}
    (hfailures : f.bench.failuresLeft = 0)
    (h : Runs o (.drive n settings (Build.each Build.ask (f.graph.properties raw Dependency.dep) >>=
      fun deps => .done (inst number ((f.graph.value? raw).getD "") deps))) f p f') :
    Runs o (.drive n settings (Counting.assemble number raw)) f p f' := by
  refine .read ?_
  show Runs o (.drive n settings (if _ then _ else _)) f p f'
  split
  · show Runs o (.drive n settings (stumble _ >>= _)) f p f'
    rw [stumble_bind]
    refine .read ?_
    rw [if_neg (by omega)]
    exact h
  · exact h

/-! ## The search and the pool -/

/-- How a pool stands while its builds search dependencies: what is found is being built or has been
built, in the order of discovery. -/
structure Traverses (g : Graph) (found : List Discovery) (path : List NodeId) (f : Floor) : Prop where
  orderly : f.registry.Orderly
  graph : f.graph = g
  builds : f.bench.builds = found.length
  failures : f.bench.failuresLeft = 0
  size : f.registry.history.size = found.length
  nodup : (discovered found).Nodup
  onPath : ∀ x ∈ path, x ∈ discovered found
  begun : ∀ {k d}, found[k]? = some d →
    ∃ c, f.registry.construction? k = some c ∧ Begun g found path f.registry k d c

variable {g : Graph} {ids path todo : List NodeId} {found found₁ found' : List Discovery}
  {d : NodeId}

namespace Traverses

/-- What is handed over changes nothing else. -/
theorem receive (h : Traverses g found path f) {n : Nat} {c : Construction}
    {result : Except BuildError Json} (hc : f.registry.construction? n = some c)
    (hs : c.stage = .finished result) (waiter : Option Nat) :
    Traverses g found path (f.receive waiter n result) :=
  { h with
    orderly := h.orderly.receive hc hs waiter
    begun := fun hk => by
      obtain ⟨c, hc, hbegun⟩ := h.begun hk
      exact ⟨c, hc, hbegun.later (leads_record ..) (List.prefix_refl _)⟩ }

/-- Each construction is one of a discovered node with its key. -/
theorem discovered_of_key (h : Traverses g found path f) {m : Nat} {c : Construction}
    (hc : f.registry.construction? m = some c) :
    ∃ x, found[m]? = some x ∧ g.value? x.node = some c.key := by
  have hm : m < found.length := h.size ▸ lt_size hc
  obtain ⟨c', hc', hbegun⟩ := h.begun (List.getElem?_eq_getElem hm)
  obtain rfl : c = c' := Option.some.inj (hc.symm.trans hc')
  exact ⟨found[m], List.getElem?_eq_getElem hm, hbegun.value⟩

/-- The floor on which the build of a new node has counted itself. -/
abbrev opened (f : Floor) (d : NodeId) (key : String) (settings : Settings) : Floor :=
  let n := f.registry.history.size
  counted ((((f.start d key settings).2.setStage n .running).setGraph f.graph).setRaw n d)

theorem leads_opened (f : Floor) (d : NodeId) (key : String) (settings : Settings) :
    f.registry.Leads (opened f d key settings).registry := by
  have hstart := construction?_start_self f.registry d key settings
  exact ((leads_start ..).trans (leads_setStage hstart Stage.open_fresh .running)).trans
    (leads_setRaw ..)

theorem size_opened (f : Floor) (d : NodeId) (key : String) (settings : Settings) :
    (opened f d key settings).registry.history.size = f.registry.history.size + 1 := by
  show ((((f.registry.start d key settings).2.setStage _ .running).setRaw _ d).history).size = _
  simp [Registry.setRaw, Registry.setStage, Registry.modify, Registry.start]

theorem construction?_opened_self (f : Floor) (d : NodeId) (key : String) (settings : Settings)
    {n : Nat} (hn : f.registry.history.size = n) :
    (opened f d key settings).registry.construction? n =
      some ⟨⟨d, key, settings⟩, some d, .running⟩ := by
  subst hn
  show (((f.registry.start d key settings).2.setStage _ .running).setRaw _ d).construction? _ = _
  rw [construction?_setRaw, if_pos rfl, construction?_setStage, if_pos rfl,
    construction?_start_self]
  rfl

theorem construction?_opened_of_ne (f : Floor) (d : NodeId) (key : String) (settings : Settings)
    {k : Nat} (hk : k ≠ f.registry.history.size) :
    (opened f d key settings).registry.construction? k = f.registry.construction? k := by
  show (((f.registry.start d key settings).2.setStage _ .running).setRaw _ d).construction? k = _
  rw [construction?_setRaw, if_neg hk.symm, construction?_setStage, if_neg hk.symm,
    construction?_start, if_neg hk]

/-- A node is discovered once. -/
theorem index_unique (h : Traverses g found path f) {j k : Nat} {x y : Discovery}
    (hx : found[j]? = some x) (hy : found[k]? = some y) (hxy : y.node = x.node) : j = k := by
  have hj : (discovered found)[j]? = some x.node := by rw [List.getElem?_map, hx]; rfl
  have hk : (discovered found)[k]? = some x.node := by rw [List.getElem?_map, hy, ← hxy]; rfl
  exact (List.getElem?_inj (List.getElem?_eq_some_iff.mp hj).1 h.nodup).mp (hj.trans hk.symm)

/-- A node is discovered: it goes on the path, and its construction is polled. -/
theorem discover (h : Traverses g found path f) (hvalue : g.value? d = some key)
    (hnew : d ∉ discovered found) (hfree : f.registry.current? key = none) (settings : Settings) :
    Traverses g (found ++ [⟨d, path⟩]) (d :: path) (opened f d key settings) := by
  have hstart := construction?_start_self f.registry d key settings
  have hleads := leads_opened f d key settings
  have hbefore : found <+: found ++ [⟨d, path⟩] := List.prefix_append _ _
  refine ⟨?_, h.graph, ?_, h.failures, ?_, ?_, ?_, ?_⟩
  · exact ((h.orderly.start hfree d settings).pollFresh hstart rfl d).1
  · show f.bench.builds + 1 = _
    rw [h.builds, List.length_append, List.length_singleton]
  · rw [List.length_append, List.length_singleton, ← h.size]
    exact size_opened f d key settings
  · exact nodup_discovered_concat h.nodup hnew
  · intro x hx
    rw [discovered, List.map_append, List.mem_append]
    rcases List.mem_cons.mp hx with rfl | hx
    · exact .inr List.mem_cons_self
    · exact .inl (h.onPath x hx)
  · intro k x hx
    by_cases hk : k = found.length
    · -- the new construction
      subst hk
      obtain rfl : x = ⟨d, path⟩ := by simpa using hx.symm
      refine ⟨_, construction?_opened_self f d key settings h.size, rfl, hvalue, fun _ => rfl, ?_⟩
      exact fun hd => absurd List.mem_cons_self hd
    · -- one that was there before
      have hold : found[k]? = some x := by
        have hlt := (List.getElem?_eq_some_iff.mp hx).1
        rw [List.length_append, List.length_singleton] at hlt
        rwa [List.getElem?_append_left (by omega)] at hx
      obtain ⟨c, hc, hbegun⟩ := h.begun hold
      have hne : x.node ≠ d := fun heq =>
        hnew (heq ▸ List.mem_map_of_mem (List.mem_of_getElem? hold))
      have hbegun' := hbegun.later hleads hbefore
      refine ⟨c, ?_, hbegun'.config, hbegun'.value, fun hpath => ?_, fun hpath => ?_⟩
      · rw [construction?_opened_of_ne f d key settings (h.size ▸ hk), hc]
      · exact hbegun'.running ((List.mem_cons.mp hpath).resolve_left hne)
      · exact hbegun'.ended fun hmem => hpath (List.mem_cons_of_mem _ hmem)

/-- A build ends with the instance of its node: the node is taken from the path. -/
theorem finish (h : Traverses g found (d :: path) f) {n : Nat} (hn : found[n]? = some ⟨d, path⟩)
    (hvalue : g.value? d = some key) (hd : d ∉ path) {deps : List Json}
    (hdeps : List.Forall₂ (f.registry.Stands found (d :: path)) (g.properties d Dependency.dep) deps) :
    Traverses g found path (f.finish n (.ok (inst (n + 1) key deps))) ∧
      f.registry.Leads (f.finish n (.ok (inst (n + 1) key deps))).registry := by
  obtain ⟨c, hc, hbegun⟩ := h.begun hn
  have hs : c.stage = .running := hbegun.running List.mem_cons_self
  have hopen : c.stage.Open := hs ▸ Stage.open_running
  have hleads := leads_finish hc hopen (.ok (inst (n + 1) key deps))
  obtain rfl : key = c.key := Option.some.inj (hvalue.symm.trans hbegun.value)
  refine ⟨⟨?_, h.graph, h.builds, h.failures, ?_, h.nodup, ?_, ?_⟩, hleads⟩
  · exact h.orderly.finish hc hopen (.ok (inst (n + 1) c.key deps))
  · rw [← h.size]
    exact Array.size_modify ..
  · exact fun x hx => h.onPath x (List.mem_cons_of_mem _ hx)
  · intro k x hx
    by_cases hk : n = k
    · subst hk
      obtain rfl : x = ⟨d, path⟩ := Option.some.inj (hx.symm.trans hn)
      refine ⟨_, construction?_finish_self hc _, hbegun.config, hbegun.value,
        fun hmem => absurd hmem hd, fun _ => ⟨deps, rfl, ?_⟩⟩
      exact hdeps.imp fun _ _ hstands => hstands.later hleads (List.prefix_refl _)
    · obtain ⟨c', hc', hbegun'⟩ := h.begun hx
      have hne : x.node ≠ d := fun heq => hk (h.index_unique hn hx heq)
      have hlater := hbegun'.later hleads (List.prefix_refl _)
      refine ⟨c', ?_, hlater.config, hlater.value, fun hmem => ?_, fun hmem => ?_⟩
      · show (f.registry.finish n _).construction? k = _
        rw [construction?_finish, if_neg hk, hc']
      · exact hlater.running (List.mem_cons_of_mem _ hmem)
      · exact hlater.ended fun hpath => hmem ((List.mem_cons.mp hpath).resolve_left hne)

end Traverses

/-- Asking for the instances of some nodes goes hand in hand with searching them: whatever a build
does with the instances, it does after the search. -/
def Searches (g : Graph) (path todo : List NodeId) (found found' : List Discovery) : Prop :=
  ∀ f n settings, Traverses g found path f → settings.On g path →
    ∃ vs f₁, Traverses g found' path f₁ ∧ f.registry.Leads f₁.registry ∧
      List.Forall₂ (f₁.registry.Stands found' path) todo vs ∧
      ∀ (next : List Json → Build Json) p f',
        Runs (numbering false []) (.drive n settings (next vs)) f₁ p f' →
        Runs (numbering false []) (.drive n settings (Build.each Build.ask todo >>= next)) f p f'

/-- A node that is not on the path is not in progress, so its construction is asked for. -/
theorem Traverses.constructs (hreg : g.Regular ids) (h : Traverses g found path f)
    (hfound : ∀ x ∈ discovered found, g.Reaches ids x) (hd : g.Reaches ids d)
    (hset : settings.On g path) (hpath : d ∉ path) (hvalue : g.value? d = some key) :
    Constructs f.graph settings d key := by
  rw [h.graph]
  refine ⟨hvalue, ?_, hreg.notVariable d hd⟩
  rw [Bool.eq_false_iff]
  intro hp
  obtain ⟨x, hx, hxv⟩ := (hset key).mp hp
  exact hpath (hreg.distinct x d key (hfound x (h.onPath x hx)) hd hxv hvalue ▸ hx)

/-- **A new node is built in place**: its construction is started and polled to its end, and meanwhile
its dependencies are searched. -/
theorem Traverses.construct (hreg : g.Regular ids) (h : Traverses g found path f)
    (hfound : ∀ x ∈ discovered found, g.Reaches ids x) (hd : g.Reaches ids d)
    (hset : settings.On g path) (hnew : d ∉ discovered found)
    (hbefore : found ++ [⟨d, path⟩] <+: found₁)
    (hinner : Searches g (d :: path) (g.properties d Dependency.dep) (found ++ [⟨d, path⟩]) found₁) :
    ∃ f₁ v f₂, (numbering false []).enter d settings f = (.waiting found.length, f₁) ∧
      Runs (numbering false []) (.poll found.length) f₁ (.ready (.ok v)) f₂ ∧
      Traverses g found₁ path f₂ ∧ f.registry.Leads f₂.registry ∧
      f₂.registry.instance? found.length = some v := by
  obtain ⟨key, hvalue⟩ := hreg.value hd
  have hpath : d ∉ path := fun hmem => hnew (h.onPath d hmem)
  have hkey := h.constructs hreg hfound hd hset hpath hvalue
  -- there is no construction of the key, since keys are distinct
  have hfree : f.registry.current? key = none := by
    by_contra hcur
    obtain ⟨m, hm⟩ := Option.ne_none_iff_exists'.mp hcur
    obtain ⟨c, hc, rfl, -⟩ := (h.orderly.current_iff key m).mp hm
    obtain ⟨x, hx, hxv⟩ := h.discovered_of_key hc
    have hx : x.node ∈ discovered found := List.mem_map_of_mem (List.mem_of_getElem? hx)
    exact hnew (hreg.distinct x.node d c.key (hfound _ hx) hd hxv hvalue ▸ hx)
  have hopened := h.discover hvalue hnew hfree (settings.descend key)
  obtain ⟨deps, f₂, hT, hl, hdeps, hgo⟩ :=
    hinner _ found.length _ hopened (hset.descend hvalue)
  have hn : found₁[found.length]? = some ⟨d, path⟩ := by
    obtain ⟨rest, rfl⟩ := hbefore
    simp
  obtain ⟨hfinish, hl'⟩ := hT.finish hn hvalue hpath hdeps
  refine ⟨(f.start d key (settings.descend key)).2, inst (found.length + 1) key deps,
    f₂.finish found.length _, ?_, ?_, hfinish, ((Traverses.leads_opened ..).trans hl).trans hl', ?_⟩
  · rw [enter_free hkey hfree, h.size]
  · -- the construction is prepared and counts itself, and then asks for the dependencies
    have hstart := construction?_start_self f.registry d key (settings.descend key)
    have hform : rawConfig [] f.graph d = (.ok d, f.graph) :=
      rawConfig_nil_ok.mpr ⟨rfl, rfl, h.graph.symm ▸ hreg.valid d hd⟩
    have hinst : inst (f.bench.builds + 1) ((f.graph.value? d).getD "") =
        inst (found.length + 1) key := by
      rw [h.builds, hkey.value]
      rfl
    have hrest : Runs (numbering false []) (.drive found.length (settings.descend key)
        (Build.each Build.ask (g.properties d Dependency.dep) >>= fun deps =>
          .done (inst (f.bench.builds + 1) ((f.graph.value? d).getD "") deps)))
        (Traverses.opened f d key (settings.descend key))
        (.ready (.ok (inst (found.length + 1) key deps)))
        (f₂.finish found.length (.ok (inst (found.length + 1) key deps))) := by
      rw [hinst]
      exact hgo (fun deps => .done (inst (found.length + 1) key deps)) _ _ (.done _)
    rw [← h.size, ← h.graph] at hrest
    rw [← h.size]
    exact .prepared hstart rfl hform (Runs.straightOn (Runs.assemble h.failures hrest))
  · obtain ⟨c, hc, hbegun⟩ := hT.begun hn
    exact instance?_eq_some.mpr ⟨_, construction?_finish_self hc _, rfl⟩

/-- **Asking for instances is searching.** -/
theorem searches_of_depthFirst (hreg : g.Regular ids) (h : g.DepthFirst path todo found found')
    (hfound : ∀ x ∈ discovered found, g.Reaches ids x) (htodo : ∀ x ∈ todo, g.Reaches ids x) :
    Searches g path todo found found' := by
  -- by induction on the search; a node is known, and then on the path or built, or it is new
  induction h with
  | nil => exact fun f n settings hT _ => ⟨[], f, hT, .refl _, .nil, fun next p f' hrest => hrest⟩
  | @known path d ds found found' seen rest ih =>
    intro f n settings hT hset
    have hd := htodo d List.mem_cons_self
    have hds : ∀ x ∈ ds, g.Reaches ids x := fun x hx => htodo x (List.mem_cons_of_mem _ hx)
    obtain ⟨key, hvalue⟩ := hreg.value hd
    by_cases hpath : d ∈ path
    · obtain ⟨vs, f₁, hT₁, hl, hvs, hgo⟩ := ih hfound hds f n settings hT hset
      refine ⟨_ :: vs, f₁, hT₁, hl, .cons (.inl ⟨hpath, rfl⟩) hvs, fun next p f' hrest => ?_⟩
      rw [Build.each_ask_cons]
      refine .answered (enter_inProgress (hT.graph ▸ hvalue) ((hset key).mpr ⟨d, hpath, hvalue⟩)) ?_
      exact hgo (fun vs => next (_ :: vs)) p f' hrest
    · -- its construction has ended, and is current for its key
      obtain ⟨x, hx, rfl⟩ := List.mem_map.mp seen
      obtain ⟨m, hm⟩ := List.getElem?_of_mem hx
      obtain ⟨c, hc, hbegun⟩ := hT.begun hm
      obtain ⟨deps, hs, -⟩ := hbegun.ended hpath
      have hkey := hT.constructs hreg hfound hd hset hpath hbegun.value
      have hcur : f.registry.current? c.key = some m := by
        refine (hT.orderly.current_iff c.key m).mpr ⟨c, hc, rfl, ?_⟩
        rintro ⟨e, he⟩
        cases hs.symm.trans he
      have hT₀ := hT.receive hc hs (some n)
      obtain ⟨vs, f₁, hT₁, hl, hvs, hgo⟩ := ih hfound hds _ n settings hT₀ hset
      have hl' := (leads_record f.registry _).trans hl
      have hstands : f₁.registry.Stands found' path x.node (inst (m + 1) c.key deps) := by
        refine Stands.later (.inr ⟨hpath, m, ?_, instance?_eq_some.mpr ⟨c, hc, hs⟩⟩) hl' rest.isPrefix
        rw [hm]
        rfl
      refine ⟨_ :: vs, f₁, hT₁, hl', .cons hstands hvs, fun next p f' hrest => ?_⟩
      rw [Build.each_ask_cons]
      refine .request (enter_current hkey hcur) (.received (.finished hc hs) ?_)
      exact hgo (fun vs => next (_ :: vs)) p f' hrest
  | @new path d ds found found₁ found' unseen inner rest ihi ihr =>
    intro f n settings hT hset
    have hd := htodo d List.mem_cons_self
    have hds : ∀ x ∈ ds, g.Reaches ids x := fun x hx => htodo x (List.mem_cons_of_mem _ hx)
    have hdeps : ∀ x ∈ g.properties d Dependency.dep, g.Reaches ids x := fun x hx => hd.step hx
    have hopened : ∀ x ∈ discovered (found ++ [⟨d, path⟩]), g.Reaches ids x :=
      forall_discovered_concat hfound hd
    obtain ⟨f₁, v, f₂, hentry, hpoll, hT₂, hl₂, hv⟩ := hT.construct hreg hfound hd hset unseen
      inner.isPrefix (ihi hopened hdeps)
    obtain ⟨c, hc, hs⟩ := instance?_eq_some.mp hv
    have hfound₁ := inner.sound (fun x hx d hd => hx.step hd) hopened hdeps
    obtain ⟨vs, f₃, hT₃, hl₃, hvs, hgo⟩ :=
      ihr hfound₁ hds _ n settings (hT₂.receive hc hs (some n)) hset
    have hl : f₂.registry.Leads f₃.registry := (leads_record f₂.registry _).trans hl₃
    have hstands : f₃.registry.Stands found' path d v := by
      have hpath : d ∉ path := fun hmem => unseen (hT.onPath d hmem)
      refine .inr ⟨hpath, found.length, ?_, hl.instance hv⟩
      obtain ⟨more, rfl⟩ := inner.isPrefix.trans rest.isPrefix
      simp
    refine ⟨v :: vs, f₃, hT₃, hl₂.trans hl, .cons hstands hvs, fun next p f' hrest => ?_⟩
    rw [Build.each_ask_cons]
    exact .request hentry (.received hpoll (hgo (fun vs => next (v :: vs)) p f' hrest))

/-- A pool that has built nothing is about to search. -/
theorem traverses_new {store : Store} (hg : store.graph = g) :
    Traverses g [] [] ((Pool.new (numbering false []) 0).floor store) where
  orderly := orderly_empty
  graph := hg
  builds := rfl
  failures := rfl
  size := rfl
  nodup := List.nodup_nil
  onPath _ hx := absurd hx List.not_mem_nil
  begun hk := by cases hk

/-- When the search is over, all that has been found is cached. -/
theorem Traverses.size_eq (h : Traverses g found [] f) : f.registry.size = found.length := by
  rw [h.orderly.size_eq, ← h.size, Array.countP_eq_size]
  intro c hc
  obtain ⟨n, hn⟩ := Array.mem_iff_getElem?.mp hc
  rw [Construction.isLive_iff]
  obtain ⟨x, hx, -⟩ := h.discovered_of_key hn
  obtain ⟨c', hc', hbegun⟩ := h.begun hx
  obtain rfl : c = c' := Option.some.inj (hn.symm.trans hc')
  obtain ⟨deps, hs, -⟩ := hbegun.ended List.not_mem_nil
  rintro ⟨e, he⟩
  cases hs.symm.trans he

/-- When the search is over, the placeholder stands for nodes on the path and nowhere else, since
instances are no placeholders. -/
theorem Traverses.cut (h : Traverses g found [] f) {x : Discovery} {v : Json}
    (hv : f.registry.Stands found (x.node :: x.path) d v) : f.registry.Cut found x d v := by
  unfold Cut
  rw [← List.mem_cons]
  rcases hv with ⟨hd, rfl⟩ | ⟨hd, m, hm, hv⟩
  · exact ⟨⟨fun _ => hd, fun _ => rfl⟩, fun hnot => absurd hd hnot⟩
  · refine ⟨⟨?_, fun hmem => absurd hmem hd⟩, fun _ => ⟨m, hm, hv⟩⟩
    rintro rfl
    obtain ⟨y, hy, -⟩ := Option.map_eq_some_iff.mp hm
    obtain ⟨c, hc, hbegun⟩ := h.begun hy
    obtain ⟨deps, hs, -⟩ := hbegun.ended List.not_mem_nil
    cases (instance?_eq_some.mpr ⟨c, hc, hs⟩).symm.trans hv

end Factory

namespace Session

/-- **Cycles are broken exactly at the back edges of a depth-first search.** A new pool answers the
request for a config whose dependencies are all regular. It builds each config that can be reached
once, in depth-first order, and numbers them in this order. -/
theorem cut_at_back_edges {cs : List Command} {answers : List Answer} {s : Session}
    (h : Session.run {} cs = some (answers, s)) {i : Nat}
    (hpool : s.pools[i]? = some (.new { strategy := .counting false } 0)) {root : NodeId}
    (hreg : s.store.graph.Regular [root]) :
    ∃ order v s' p', (∀ found, s.store.graph.DepthFirst [] [root] [] found ↔ found = order) ∧
      (discovered order).Nodup ∧
      (∀ x, x ∈ discovered order ↔ s.store.graph.Reaches [root] x) ∧
      s.step (.join i {} [root]) = some (.joined (.answers [.ok v]), s') ∧
      s'.pools[i]? = some p' ∧ p'.registry.instance? 0 = some v ∧
      p'.registry.history.size = order.length ∧ p'.cachedCount = order.length ∧
      p'.builds = order.length ∧
      ∀ k x, order[k]? = some x → ∃ c key deps, p'.registry.construction? k = some c ∧
        c.config = x.node ∧ s.store.graph.value? x.node = some key ∧
        p'.registry.instance? k = some (inst (k + 1) key deps) ∧
        List.Forall₂ (p'.registry.Cut order x)
          (s.store.graph.properties x.node Dependency.dep) deps := by
  have hrest := atRest_of_run h
  have hreach : s.store.graph.Reaches [root] root := ⟨root, List.mem_cons_self, .refl⟩
  have hstep : ∀ x, s.store.graph.Reaches [root] x →
      ∀ d ∈ s.store.graph.properties x Dependency.dep, s.store.graph.Reaches [root] d :=
    fun x hx d hd => hx.step hd
  have hsize : ∀ x, s.store.graph.Reaches [root] x → x < s.store.graph.size := by
    intro x hx
    obtain ⟨key, hkey⟩ := hreg.value hx
    exact Graph.lt_size_of_value hkey
  have hempty : ∀ x ∈ discovered [], s.store.graph.Reaches [root] x :=
    fun x hx => absurd hx List.not_mem_nil
  obtain ⟨order, horder⟩ := Graph.exists_depthFirst hsize hstep [] hempty
    (fun d hd => List.mem_singleton.mp hd ▸ hreach) List.nodup_nil
  have hunique : ∀ found, s.store.graph.DepthFirst [] [root] [] found ↔ found = order :=
    fun found => ⟨horder.unique, fun heq => heq ▸ horder⟩
  have hmem := horder.mem_iff
  cases id horder with
  | known seen _ => exact absurd seen List.not_mem_nil
  | new unseen inner rest =>
    cases rest
    -- the pool goes through the search
    have hsearch := Factory.searches_of_depthFirst hreg inner
      (fun x hx => List.mem_singleton.mp hx ▸ hreach) (hstep root hreach)
    have hnone : ({} : Settings).On s.store.graph [] := by
      intro key
      simp
    obtain ⟨f₁, v, f₂, hentry, hpoll, hT, -, hv⟩ := (Factory.traverses_new rfl).construct hreg
      hempty hreach hnone unseen inner.isPrefix hsearch
    have hanswers : Factory.Answers (.numbering false []) {} root _ (.ok v) _ := .built hentry hpoll
    obtain ⟨joined, floor, hj⟩ := Factory.join_total (o := .numbering false []) rfl {} [root]
      (hrest.pools hpool).floor fun n hn => by
        obtain ⟨c, hc, -⟩ := hn
        cases hc
    obtain ⟨rfl, rfl⟩ := hanswers.concludes.unique (Factory.concludes_of_join hj)
    obtain ⟨s', hs', hstore, hpool'⟩ := step_of_join hpool hj
    obtain ⟨c₀, hc₀, hs₀⟩ := Registry.instance?_eq_some.mp hv
    have hT' := hT.receive hc₀ hs₀ none
    refine ⟨order, v, s', _, hunique, hT.nodup, hmem, hs', hpool', hv, hT'.size, hT'.size_eq,
      hT'.builds, ?_⟩
    intro k x hx
    obtain ⟨c, hc, hbegun⟩ := hT'.begun hx
    obtain ⟨deps, hs, hdeps⟩ := hbegun.ended List.not_mem_nil
    refine ⟨c, c.key, deps, hc, hbegun.config, hbegun.value,
      Registry.instance?_eq_some.mpr ⟨c, hc, hs⟩, hdeps.imp fun _ _ hstands => hT'.cut hstands⟩

/-- Three configs: the first one depends on the others and on itself, the second one on the third one,
and that one on both of them. -/
def knot : List Command :=
  [.update (.named "ex:a"), .update (.named "ex:b"), .update (.named "ex:c"),
    .update (.literal "App"), .update (.addProperty 0 Components.requireName 3),
    .update (.addProperty 1 Components.requireName 3),
    .update (.addProperty 2 Components.requireName 3), .update (.addProperty 0 Dependency.dep 1),
    .update (.addProperty 0 Dependency.dep 2), .update (.addProperty 0 Dependency.dep 0),
    .update (.addProperty 1 Dependency.dep 2), .update (.addProperty 2 Dependency.dep 0),
    .update (.addProperty 2 Dependency.dep 1)]

/-- The three configs are built in the order of their discovery. -/
theorem cut_at_back_edges_knot : ∃ answers s v s' p',
    Session.run {} (knot ++ [.openPool { strategy := .counting false } 0]) = some (answers, s) ∧
      s.store.graph.DepthFirst [] [0] [] [⟨0, []⟩, ⟨1, [0]⟩, ⟨2, [1, 0]⟩] ∧
      s.step (.join 0 {} [0]) = some (.joined (.answers [.ok v]), s') ∧ s'.pools[0]? = some p' ∧
      p'.registry.instance? 0 = some v ∧ p'.builds = 3 ∧ p'.cachedCount = 3 := by
  have hrun : (Session.run {} (knot ++ [.openPool { strategy := .counting false } 0])).any fun out =>
      out.2.pools.size == 1 && out.2.store.graph.properties 0 Dependency.dep == [1, 2, 0] &&
      out.2.store.graph.properties 1 Dependency.dep == [2] &&
      out.2.store.graph.properties 2 Dependency.dep == [0, 1] &&
      [0, 1, 2].all fun x => decide (out.2.store.graph.validate x = .ok ()) &&
        !out.2.store.graph.isVariable x &&
        ((out.2.store.graph.properties x Dependency.dep).all fun y => decide (y ∈ [0, 1, 2])) &&
        [0, 1, 2].all fun y =>
          decide (out.2.store.graph.value? x = out.2.store.graph.value? y → x = y) := by
    decide +kernel
  obtain ⟨⟨answers, s⟩, h, hout⟩ := (Option.any_eq_true _ _).mp hrun
  simp only [Bool.and_eq_true, beq_iff_eq, List.all_eq_true, decide_eq_true_eq,
    Bool.not_eq_true'] at hout
  obtain ⟨⟨⟨⟨hsize, ha⟩, hb⟩, hc⟩, hnodes⟩ := hout
  have hpool : s.pools[0]? = some (.new { strategy := .counting false } 0) := by
    obtain ⟨as, s₁, bs, -, hopen, -⟩ := run_append h
    cases hopen
    have hzero : s₁.pools.size = 0 := by simpa using hsize
    rw [← hzero]
    exact Array.getElem?_push_size
  have hsub : ∀ x, s.store.graph.Reaches [0] x → x ∈ [0, 1, 2] := by
    rintro x ⟨root, hroot, hpath⟩
    induction hpath with
    | refl => exact List.mem_singleton.mp hroot ▸ List.mem_cons_self
    | tail _ hstep ih => exact (hnodes _ ih).1.2 _ hstep
  have hreg : s.store.graph.Regular [0] :=
    ⟨fun x hx => (hnodes x (hsub x hx)).1.1.1, fun x hx => (hnodes x (hsub x hx)).1.1.2,
      fun x y key hx hy hxv hyv => (hnodes x (hsub x hx)).2 y (hsub y hy) (hxv.trans hyv.symm)⟩
  have horder : s.store.graph.DepthFirst [] [0] [] [⟨0, []⟩, ⟨1, [0]⟩, ⟨2, [1, 0]⟩] := by
    refine .new (by simp) ?_ .nil
    rw [ha]
    refine .new (by decide) ?_ (.known (by decide) (.known (by decide) .nil))
    rw [hb]
    refine .new (by decide) ?_ .nil
    rw [hc]
    exact .known (by decide) (.known (by decide) .nil)
  obtain ⟨order, v, s', p', hunique, -, -, hstep, hp', hv, -, hcached, hbuilds, -⟩ :=
    cut_at_back_edges h hpool hreg
  obtain rfl := (hunique _).mp horder
  exact ⟨answers, s, v, s', p', h, horder, hstep, hp', hv, hbuilds, hcached⟩

end Session

end Wiring

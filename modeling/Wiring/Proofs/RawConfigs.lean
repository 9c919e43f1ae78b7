import Wiring.Proofs.Growth
import Wiring.Proofs.Persistence
import Wiring.Proofs.Standing

/-!
# Raw configs

Before a config is built its raw form is found: the first preprocessor that handles the config transforms
it, and if none does, it is taken as it is. The outcome is validated, so what is built always has the shape
of a raw config.

- `Graph.Closed.validate_iff`: which configs pass the validation.
- `transforms_of_rawConfig`: where the raw form of a config comes from.
- `Describe.build_eq`: the description of a raw config has a component name to go on with, and
  `Strategy.makes_build`: what comes of it shows that name.
-/

namespace Wiring

namespace Graph

/-- A node has the shape of a raw config: there is a component name, and the first value of each of the
shape fields is a literal. -/
structure IsRaw (g : Graph) (raw : NodeId) : Prop where
  found : (g.value? raw).isSome
  name : ∃ v, g.property? raw Components.requireName = some v ∧ g.kind? v = some .literal
  optional : ∀ field ∈ [Components.requireElement, Components.requireNoConstructor], ∀ v,
    g.property? raw field = some v → g.kind? v = some .literal

variable {g : Graph} {config : NodeId}

theorem IsRaw.exists_name {raw : NodeId} (h : g.IsRaw raw) :
    ∃ name t, g.property? raw Components.requireName = some name ∧ g.term? name = some t ∧
      t.kind = .literal := by
  obtain ⟨name, hname, hkind⟩ := h.name
  obtain ⟨t, ht, hliteral⟩ := Option.map_eq_some_iff.mp hkind
  exact ⟨name, t, hname, ht, hliteral⟩

/-- The first value of a property is a node. -/
theorem Closed.exists_propertyTerm (hg : g.Closed) {field : String} {v : NodeId}
    (h : g.property? config field = some v) :
    ∃ t, g.propertyTerm? config field = some t ∧ g.kind? v = some t.kind := by
  have hmem : v ∈ g.properties config field := List.mem_of_head? h
  obtain ⟨t, ht⟩ := Option.isSome_iff_exists.mp (term?_isSome.mpr (hg.target_lt hmem))
  refine ⟨t, ?_, ?_⟩
  · rw [propertyTerm?, h]
    exact ht
  · rw [kind?, ht]
    rfl

/-- A field passes its check if its first value is a literal, and if it is there unless it is optional. -/
theorem Closed.validateField_iff (hg : g.Closed) {field : String} {optional : Bool} :
    g.validateField config field .literal optional = .ok () ↔
      (g.value? config).isSome ∧ (optional = false → (g.property? config field).isSome) ∧
        ∀ v, g.property? config field = some v → g.kind? v = some .literal := by
  unfold validateField
  cases hvalue : g.value? config with
  | none => simp
  | some key =>
    cases hfirst : g.property? config field with
    | none => cases optional <;> simp [propertyTerm?, hfirst]
    | some v =>
      obtain ⟨t, ht, hkind⟩ := hg.exists_propertyTerm hfirst
      simp [ht, hkind]

/-- **The configs that pass the validation** are those in the shape of raw configs. -/
theorem Closed.validate_iff (hg : g.Closed) : g.validate config = .ok () ↔ g.IsRaw config := by
  have hchecks : g.validate config = .ok () ↔
      g.validateField config Components.requireName .literal false = .ok () ∧
        g.validateField config Components.requireElement .literal true = .ok () ∧
          g.validateField config Components.requireNoConstructor .literal true = .ok () := by
    rw [validate]
    cases g.validateField config Components.requireName .literal false with
    | error e => simp [bind, Except.bind]
    | ok u =>
      cases g.validateField config Components.requireElement .literal true <;>
        simp [bind, Except.bind]
  rw [hchecks, hg.validateField_iff, hg.validateField_iff, hg.validateField_iff]
  constructor
  · rintro ⟨⟨hfound, hname, hliteral⟩, ⟨-, -, helement⟩, -, -, hconstructor⟩
    obtain ⟨v, hv⟩ := Option.isSome_iff_exists.mp (hname rfl)
    refine ⟨hfound, ⟨v, hv, hliteral v hv⟩, ?_⟩
    simpa using ⟨helement, hconstructor⟩
  · rintro ⟨hfound, ⟨v, hv, hkind⟩, hoptional⟩
    have hliteral : ∀ w, g.property? config Components.requireName = some w →
        g.kind? w = some .literal := by
      intro w hw
      rwa [← Option.some.inj (hv.symm.trans hw)]
    refine ⟨⟨hfound, fun _ => Option.isSome_of_eq_some hv, hliteral⟩, ⟨hfound, nofun, ?_⟩,
      hfound, nofun, ?_⟩
    · exact hoptional _ (by simp)
    · exact hoptional _ (by simp)

end Graph

/-- What preprocessors make of a config: the first one that handles it transforms it, and if none does, it
is left as it is. -/
inductive Transforms (ps : List Preprocessor) (g : Graph) (config : NodeId) :
    Except BuildError NodeId → Graph → Prop
  | handled {before p after handle raw g'} (split : ps = before ++ p :: after)
      (earlier : ∀ q ∈ before, q.handle? g config = none)
      (handles : p.handle? g config = some handle)
      (made : p.transform g config handle = (raw, g')) : Transforms ps g config raw g'
  | untouched (unhandled : ∀ q ∈ ps, q.handle? g config = none) :
      Transforms ps g config (.ok config) g

/-- A valid outcome is what has been made, validated. -/
theorem validated_eq_ok {made : Except BuildError NodeId} {g : Graph} {raw : NodeId}
    (h : (made >>= fun raw => g.validate raw >>= fun _ => pure raw) = .ok raw) :
    made = .ok raw ∧ g.validate raw = .ok () := by
  cases made with
  | error e => cases h
  | ok r =>
    have h : (g.validate r >>= fun _ => .ok r) = .ok raw := h
    cases hvalid : g.validate r with
    | error e =>
      rw [hvalid] at h
      cases h
    | ok u =>
      rw [hvalid] at h
      cases h
      exact ⟨rfl, hvalid⟩

/-- A raw form is what preprocessors have made of a config, and it is valid. -/
theorem transforms_of_rawConfig {ps : List Preprocessor} {g g' : Graph} {config raw : NodeId}
    (h : rawConfig ps g config = (.ok raw, g')) :
    Transforms ps g config (.ok raw) g' ∧ g'.validate raw = .ok () := by
  unfold rawConfig at h
  cases hfirst : firstHandler ps g config with
  | none =>
    rw [hfirst] at h
    obtain ⟨hraw, rfl⟩ := Prod.mk.inj h
    obtain ⟨hmade, hvalid⟩ := validated_eq_ok hraw
    cases hmade
    have hnone := List.findSome?_eq_none_iff.mp hfirst
    exact ⟨.untouched fun q hq => Option.map_eq_none_iff.mp (hnone q hq), hvalid⟩
  | some found =>
    obtain ⟨p, handle⟩ := found
    rw [hfirst] at h
    obtain ⟨before, q, after, rfl, hq, hearlier⟩ := List.findSome?_eq_some_iff.mp hfirst
    obtain ⟨_, hhandle, hpair⟩ := Option.map_eq_some_iff.mp hq
    cases hpair
    obtain ⟨hraw, hgraph⟩ := Prod.mk.inj h
    obtain ⟨hmade, hvalid⟩ := validated_eq_ok hraw
    exact ⟨.handled rfl (fun x hx => Option.map_eq_none_iff.mp (hearlier x hx)) hhandle
      (Prod.ext hmade hgraph), hgraph ▸ hvalid⟩

/-! ## What is built from them -/

/-- Nothing but requests and the graph staying as it is. -/
def Terms.grounded : Terms where
  inv _ := True
  change w w' := w'.store.graph = w.store.graph
  admits _ _ := True
  asks _ _ := True
  answer _ _ _ := True
  result _ _ := True
  waits _ _ := True

theorem lax_grounded : Terms.grounded.Lax where
  bench _ hg := ⟨hg, trivial⟩
  result _ _ := trivial

/-- The component name of a raw config is a literal, and the description shows its text. -/
def Describe.Shows (g : Graph) (raw : NodeId) (v : Json) : Prop :=
  ∃ name t fields, g.property? raw Components.requireName = some name ∧ g.term? name = some t ∧
    t.kind = .literal ∧ v = .obj fields ∧ fields.lookup "@component" = some (.str t.value)

/-- What a strategy makes of a raw config. Descriptions show the component name. -/
def Strategy.Makes (s : Strategy) (g : Graph) (raw : NodeId) (v : Json) : Prop :=
  s = .describe → Describe.Shows g raw v

/-- The plan leaves the graph as it is, and comes to what the strategy makes of a raw config. -/
def Build.Makes (s : Strategy) (g : Graph) (raw : NodeId) (b : Build Json) (w : Workbench) : Prop :=
  ∀ e, b.Within .grounded e (fun v _ => s.Makes g raw v) w

variable {s : Strategy} {g g' : Graph} {raw : NodeId}

/-- A component name stays. -/
theorem Strategy.Makes.later {v : Json} (h : s.Makes g raw v) (hg : g.Precedes g') :
    s.Makes g' raw v := by
  intro hs
  obtain ⟨name, t, fields, hname, ht, hrest⟩ := h hs
  exact ⟨name, t, fields, hg.property? hname, hg.term name t ht, hrest⟩

theorem Build.Makes.later {b : Build Json} {w : Workbench} (h : b.Makes s g raw w)
    (hg : g.Precedes g') : b.Makes s g' raw w :=
  fun e => Build.within_imp (h e) fun _ _ hv => hv.later hg

namespace Describe

/-- The description of a raw config whose component name is known. -/
def described (g : Graph) (raw : NodeId) (component : String) : Build Json := do
  let args ← Build.each resolveArgument (arguments g raw)
  let g ← Build.graph
  let element := (g.propertyValue? raw Components.requireElement).toList.map fun text =>
    ("@element", Json.str text)
  let isStatic := g.propertyValue? raw Components.requireNoConstructor = some "true"
  pure (.obj ([("@args", .arr args), ("@component", .str component)] ++ element ++
    if isStatic then [("@static", .bool true)] else []))

/-- The build of a node in the graph that has a component name goes on with its description. -/
theorem build_eq {name : NodeId} {t : Term} {w : Workbench} (hfound : (w.store.graph.value? raw).isSome)
    (hname : w.store.graph.property? raw Components.requireName = some name)
    (ht : w.store.graph.term? name = some t) :
    ∃ next, Describe.build raw = .read next ∧ next w = described w.store.graph raw t.value := by
  obtain ⟨key, hkey⟩ := Option.isSome_iff_exists.mp hfound
  have hvalue : w.store.graph.propertyValue? raw Components.requireName = some t.value := by
    rw [Graph.propertyValue?, Graph.propertyTerm?, hname, Option.bind_some, ht, Option.map_some]
  refine ⟨_, rfl, ?_⟩
  simp only [Build.bind, hkey, hvalue]
  rfl

/-- A description shows its component name. -/
theorem makes_described {name : NodeId} {t : Term} {w : Workbench}
    (hname : g.property? raw Components.requireName = some name) (ht : g.term? name = some t)
    (hliteral : t.kind = .literal) : (described g raw t.value).Makes .describe g raw w := by
  intro e
  rw [described, Build.within_bind]
  have hargs : (Build.each resolveArgument (arguments g raw)).Steady .grounded e :=
    Build.steady_each fun argument _ => steady_resolveArgument lax_grounded (fun _ => trivial) argument
  exact Build.within_imp (hargs w trivial) fun args w' _ _ => ⟨name, t, _, hname, ht, hliteral, rfl, rfl⟩

end Describe

/-- **What is built from a raw config.** -/
theorem Strategy.makes_build (s : Strategy) {w : Workbench} (hg : w.store.graph = g)
    (hraw : g.IsRaw raw) : (s.build raw).Makes s g raw w := by
  subst hg
  cases s with
  | counting suspends =>
    intro e
    have hsteady : (Counting.build suspends raw).Steady .grounded e :=
      Counting.steady_build lax_grounded (fun _ _ _ _ => trivial) suspends
    exact Build.within_imp (hsteady w trivial) fun _ _ _ => nofun
  | describe =>
    obtain ⟨name, t, hname, ht, hliteral⟩ := hraw.exists_name
    obtain ⟨next, hbuild, hnext⟩ := Describe.build_eq hraw.found hname ht
    intro e
    show (Describe.build raw).Within _ e _ w
    rw [hbuild]
    show (next w).Within _ e _ w
    rw [hnext]
    exact Describe.makes_described hname ht hliteral e

end Wiring

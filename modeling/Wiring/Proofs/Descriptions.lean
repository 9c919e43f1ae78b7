import Mathlib.Data.Finset.Lattice.Fold
import Wiring.Factory.RawConfig
import Wiring.Factory.Strategy
import Wiring.Proofs.Runs

/-!
# Descriptions by plain recursion

What a pool that describes components stands for, without pools and without stored values: a component
is described by its arguments, each of which is checked on its own, as if no literal had been checked
before, and refers to descriptions that are made anew (`describeWithin`). The settings stay the same
all the way.

Limits only tell apart recursions that end from those that do not: `Describes` is the outcome within
some limit. There is one at most (`Describes.unique`), and on a graph one limit is enough for all nodes
that have an outcome at all (`exists_limit_describes`).
-/

namespace Wiring

/-- What a recursion gives: a value or an error, or nothing if it does not end. -/
abbrev Recursion (α : Type) := ExceptT BuildError Option α

namespace Recursion

variable {α β : Type}

/-- Goes on with what is lowered, if lowering ends. -/
def ofLowered (a : Range.Lowered α) : Recursion α := ExceptT.mk (a.run.map (·.mapError .range))

/-! ## Outcomes -/

theorem run_bind_ok {p : Recursion α} {a : α} (h : p.run = some (.ok a)) (q : α → Recursion β) :
    (p >>= q).run = (q a).run := by
  rw [ExceptT.run_bind, h]
  rfl

theorem run_bind_error {p : Recursion α} {x : BuildError} (h : p.run = some (.error x))
    (q : α → Recursion β) : (p >>= q).run = some (.error x) := by
  rw [ExceptT.run_bind, h]
  rfl

theorem ofLowered_eq_ok {a : Range.Lowered α} {b : α} (h : (ofLowered a).run = some (.ok b)) :
    a.run = some (.ok b) := by
  obtain ⟨lowered, ha, h⟩ := Option.map_eq_some_iff.mp h
  rw [ha]
  cases lowered with
  | ok b' =>
    cases h
    rfl
  | error x => cases h

/-- A recursion has every outcome that another one has. -/
def Extends (p q : Recursion α) : Prop := ∀ r, p.run = some r → q.run = some r

theorem Extends.refl (p : Recursion α) : Extends p p := fun _ => id

theorem Extends.bind {p p' : Recursion α} {q q' : α → Recursion β} (hp : Extends p p')
    (hq : ∀ a, Extends (q a) (q' a)) : Extends (p >>= q) (p' >>= q') := by
  intro r h
  rw [ExceptT.run_bind] at h
  obtain ⟨first, hfirst, h⟩ := Option.bind_eq_some_iff.mp h
  cases first with
  | ok a => exact (run_bind_ok (hp _ hfirst) q').trans (hq a r h)
  | error x => exact (run_bind_error (hp _ hfirst) q').trans h

theorem Extends.map {p p' : Recursion α} (h : Extends p p') (f : α → β) :
    Extends (f <$> p) (f <$> p') := by
  rw [map_eq_pure_bind, map_eq_pure_bind]
  exact h.bind fun _ => .refl _

theorem extends_mapM {f f' : α → Recursion β} {as : List α} (h : ∀ a ∈ as, Extends (f a) (f' a)) :
    Extends (as.mapM f) (as.mapM f') := by
  induction as with
  | nil => exact .refl _
  | cons a as ih =>
    rw [List.mapM_cons, List.mapM_cons]
    refine (h a List.mem_cons_self).bind fun b => ?_
    exact (ih fun a ha => h a (List.mem_cons_of_mem _ ha)).bind fun bs => .refl _

end Recursion

namespace Describe

/-! ## One component -/

/-- The description of a component with described arguments. -/
def json (g : Graph) (raw : NodeId) (component : String) (args : List Json) : Json :=
  let element := (g.propertyValue? raw Components.requireElement).toList.map fun text =>
    ("@element", Json.str text)
  let isStatic := g.propertyValue? raw Components.requireNoConstructor = some "true"
  .obj ([("@args", .arr args), ("@component", .str component)] ++ element ++
    if isStatic then [("@static", .bool true)] else [])

/-- What a value stands for while literals hold typed values, through at most so many nested lists.
Nodes with descriptions of their own are described by `describe`. -/
def valueWithin (g : Graph) (typed : TypedValues) (describe : NodeId → Recursion Json) :
    (limit : Nat) → Option NodeId → Recursion Json
  | _, none => pure .null
  | 0, some _ => none
  | limit + 1, some id =>
    match g.term? id with
    | none => throw (.unknownNode id)
    | some t => match t.kind with
      | .literal => pure (({ graph := g, typed } : Store).literalValue id t)
      | .list =>
        .arr <$> ((g.listItems? id).getD []).mapM
          fun item => valueWithin g typed describe limit (some item)
      | _ =>
        if g.isVariable id || isComponent g id then describe id else pure (.str t.value)

/-- What an argument stands for: itself, or the value that it binds to a parameter, with the typed
values that the check of this value leaves where there were none. -/
def argumentValue (g : Graph) (describe : NodeId → Recursion Json) (argument : NodeId) :
    Recursion Json :=
  match g.property? argument Components.parameter with
  | none => valueWithin g ∅ describe (g.size + 1) (some argument)
  | some parameter => do
    let p ← Recursion.ofLowered (Parameter.ofNode g parameter)
    let value := g.property? argument Components.value
    if p.isChecked then
      let (verdict, checked) := p.capture { graph := g } value
      ofExcept (verdict.mapError .range)
      valueWithin g checked.typed describe (g.size + 1) value
    else valueWithin g ∅ describe (g.size + 1) value

/-- The description of a valid config with a key. -/
def component (g : Graph) (describe : NodeId → Recursion Json) (config : NodeId) (key : String) :
    Recursion Json :=
  match g.propertyValue? config Components.requireName with
  | none => throw (.missingField "requireName" key)
  | some component => json g config component <$>
    (arguments g config).mapM (argumentValue g describe)

end Describe

open Describe

/-! ## The recursion -/

/-- The description of a config, through at most so many nested configs. -/
def describeWithin (g : Graph) (settings : Settings) : (limit : Nat) → NodeId → Recursion Json
  | 0, _ => none
  | limit + 1, config =>
    match g.value? config with
    | none => throw (.unknownNode config)
    | some key =>
      if settings.isInProgress key then pure (Strategy.undefined .describe)
      else if g.isVariable config then ofExcept (Strategy.variableValue .describe settings key)
      else do
        ofExcept (g.validate config)
        component g (describeWithin g settings limit) config key

/-- The description of a config, or the error on the way to it. -/
def Describes (g : Graph) (settings : Settings) (config : NodeId)
    (result : Except BuildError Json) : Prop :=
  ∃ limit, (describeWithin g settings limit config).run = some result

variable {g : Graph} {settings : Settings} {config : NodeId} {key : String}

/-! ## Limits -/

namespace Describe

open Recursion

variable {describe describe' : NodeId → Recursion Json}

theorem extends_valueWithin (h : ∀ d, Extends (describe d) (describe' d)) (typed : TypedValues)
    (limit : Nat) (value : Option NodeId) :
    Extends (valueWithin g typed describe limit value) (valueWithin g typed describe' limit value) := by
  induction limit generalizing value with
  | zero => cases value <;> exact .refl _
  | succ limit ih =>
    cases value with
    | none => exact .refl _
    | some id =>
      rw [valueWithin, valueWithin]
      split
      · exact .refl _
      · split
        · exact .refl _
        · exact (extends_mapM fun item _ => ih (some item)).map _
        · split
          · exact h id
          · exact .refl _

theorem extends_argumentValue (h : ∀ d, Extends (describe d) (describe' d)) (argument : NodeId) :
    Extends (argumentValue g describe argument) (argumentValue g describe' argument) := by
  rw [argumentValue, argumentValue]
  split
  · exact extends_valueWithin h _ _ _
  · refine (Extends.refl _).bind fun p => ?_
    dsimp only
    split
    · exact (Extends.refl _).bind fun _ => extends_valueWithin h _ _ _
    · exact extends_valueWithin h _ _ _

theorem extends_component (h : ∀ d, Extends (describe d) (describe' d)) :
    Extends (component g describe config key) (component g describe' config key) := by
  rw [component, component]
  split
  · exact .refl _
  · exact (extends_mapM fun argument _ => extends_argumentValue h argument).map _

end Describe

/-- A higher limit makes no difference. -/
theorem describeWithin_mono {limit limit' : Nat} (hle : limit ≤ limit') (config : NodeId) :
    Recursion.Extends (describeWithin g settings limit config)
      (describeWithin g settings limit' config) := by
  induction limit generalizing limit' config with
  | zero => exact fun _ h => nomatch h
  | succ limit ih =>
    obtain ⟨limit', rfl⟩ : ∃ k, limit' = k + 1 := ⟨limit' - 1, by omega⟩
    have hle : limit ≤ limit' := Nat.le_of_succ_le_succ hle
    rw [describeWithin, describeWithin]
    split
    · exact .refl _
    · split
      · exact .refl _
      · split
        · exact .refl _
        · exact (Recursion.Extends.refl _).bind fun _ => extends_component fun d => ih hle d

/-- A description has one outcome. -/
theorem Describes.unique {r r' : Except BuildError Json} (h : Describes g settings config r)
    (h' : Describes g settings config r') : r = r' := by
  obtain ⟨limit, h⟩ := h
  obtain ⟨limit', h'⟩ := h'
  have hmax := describeWithin_mono (Nat.le_max_left limit limit') _ _ h
  rw [describeWithin_mono (Nat.le_max_right limit limit') _ _ h'] at hmax
  exact (Option.some.inj hmax).symm

/-! ## Outcomes -/

theorem describes_missing (h : g.value? config = none) :
    Describes g settings config (.error (.unknownNode config)) := by
  refine ⟨1, ?_⟩
  rw [describeWithin, h]
  rfl

theorem describes_inProgress (h : g.value? config = some key)
    (hp : settings.isInProgress key = true) :
    Describes g settings config (.ok (Strategy.undefined .describe)) := by
  refine ⟨1, ?_⟩
  rw [describeWithin, h]
  dsimp only
  rw [if_pos hp]
  rfl

theorem describes_variable (h : g.value? config = some key)
    (hp : settings.isInProgress key = false) (hv : g.isVariable config = true) :
    Describes g settings config (Strategy.variableValue .describe settings key) := by
  refine ⟨1, ?_⟩
  rw [describeWithin, h]
  dsimp only
  rw [if_neg (by simp [hp]), if_pos hv]
  cases Strategy.variableValue .describe settings key <;> rfl

/-- A config that is neither in progress nor a variable is described as a component, if it is
valid. -/
theorem describeWithin_construct (h : Factory.Constructs g settings config key) (limit : Nat) :
    describeWithin g settings (limit + 1) config = (do
      ofExcept (g.validate config)
      component g (describeWithin g settings limit) config key) := by
  rw [describeWithin, h.value]
  dsimp only
  rw [if_neg (by simp [h.notInProgress]), if_neg (by simp [h.notVariable])]

theorem describes_invalid (h : Factory.Constructs g settings config key) {e : BuildError}
    (hvalid : g.validate config = .error e) : Describes g settings config (.error e) := by
  refine ⟨1, ?_⟩
  rw [describeWithin_construct h, hvalid]
  rfl

theorem describes_component (h : Factory.Constructs g settings config key)
    (hvalid : g.validate config = .ok ()) {limit : Nat} {r : Except BuildError Json}
    (hr : (component g (describeWithin g settings limit) config key).run = some r) :
    Describes g settings config r := by
  refine ⟨limit + 1, ?_⟩
  rw [describeWithin_construct h, hvalid]
  exact hr

/-- One limit is enough for all nodes. -/
theorem exists_limit_describes (g : Graph) (settings : Settings) :
    ∃ limit, ∀ d r, Describes g settings d r → (describeWithin g settings limit d).run = some r := by
  have heach : ∀ d, ∃ limit, ∀ r, Describes g settings d r →
      (describeWithin g settings limit d).run = some r := by
    intro d
    by_cases hd : ∃ r, Describes g settings d r
    · obtain ⟨r, limit, hlimit⟩ := hd
      exact ⟨limit, fun r' hr' => hr'.unique ⟨limit, hlimit⟩ ▸ hlimit⟩
    · exact ⟨0, fun r hr => absurd ⟨r, hr⟩ hd⟩
  choose limit hlimit using heach
  refine ⟨(Finset.range g.size).sup limit + 1, fun d r hr => ?_⟩
  by_cases hd : d < g.size
  · refine describeWithin_mono ?_ d r (hlimit d r hr)
    exact Nat.le_succ_of_le (Finset.le_sup (Finset.mem_range.mpr hd))
  · -- a node that does not exist is described within any limit but zero
    have hnone : g.value? d = none := by
      rw [Graph.value?, Option.map_eq_none_iff, ← Option.not_isSome_iff_eq_none, Graph.term?_isSome]
      exact hd
    rw [hr.unique (describes_missing hnone), describeWithin, hnone]
    rfl

end Wiring

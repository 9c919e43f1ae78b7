import Wiring.Proofs.Agreement
import Wiring.Proofs.Assurances
import Wiring.Proofs.Describing
import Wiring.Proofs.Trials

/-!
# Arguments that are isolated from each other

Checks leave typed values on literals that all pools of a session share. They do not leak as long as
every literal is used by one argument at most (`Graph.Isolated`): then a literal holds nothing, or what
the check of its own argument always leaves on it (`Workbench.Honest`), whether that check has been
performed before, has failed, or is performed again.

So the build of a component computes its description by plain recursion on every such workbench
(`Describe.computes_build`).
-/

namespace Wiring

open Relation Build

/-! ## What arguments use -/

namespace Graph

/-- What an argument stands for: itself, or the value that it binds to a parameter. -/
def bound? (g : Graph) (argument : NodeId) : Option NodeId :=
  match g.property? argument Components.parameter with
  | none => some argument
  | some _ => g.property? argument Components.value

/-- An argument uses a node: it stands for it, or for a list that leads to it. -/
def Uses (g : Graph) (argument x : NodeId) : Prop :=
  ∃ root, g.bound? argument = some root ∧ ReflTransGen g.HasItem root x

/-- A node is described apart from what uses it. -/
def Described (g : Graph) (x : NodeId) : Prop :=
  ∃ t, g.term? x = some t ∧ t.kind ≠ .literal ∧ t.kind ≠ .list ∧
    (g.isVariable x || Describe.isComponent g x) = true

/-- The description of a node refers to that of another one. -/
structure RefersTo (g : Graph) (x y : NodeId) : Prop where
  notVariable : g.isVariable x = false
  argument : ∃ a ∈ Describe.arguments g x, g.Uses a y
  described : g.Described y

/-- The node is one of certain nodes, or a component or variable that their descriptions lead to. -/
def LeadsTo (g : Graph) (ids : List NodeId) (x : NodeId) : Prop :=
  ∃ id ∈ ids, ReflTransGen g.RefersTo id x

/-- The node is an argument of a component that is described. -/
def Argues (g : Graph) (ids : List NodeId) (a : NodeId) : Prop :=
  ∃ x, g.LeadsTo ids x ∧ g.isVariable x = false ∧ a ∈ Describe.arguments g x

/-- The descriptions of certain nodes have no cycles, those that they lead to have distinct keys, and
every literal is used by one argument at most. -/
structure Isolated (g : Graph) (ids : List NodeId) : Prop extends g.Describable where
  acyclic : ∀ x, g.LeadsTo ids x → ¬ TransGen g.RefersTo x x
  distinct : ∀ x y key, g.LeadsTo ids x → g.LeadsTo ids y → g.value? x = some key →
    g.value? y = some key → x = y
  owned : ∀ a b x, g.Argues ids a → g.Argues ids b → g.Uses a x → g.Uses b x →
    g.kind? x = some .literal → a = b

variable {g : Graph} {ids : List NodeId} {x y a : NodeId}

theorem LeadsTo.trans (h : g.LeadsTo ids x) (hxy : ReflTransGen g.RefersTo x y) :
    g.LeadsTo ids y := by
  obtain ⟨id, hid, hpath⟩ := h
  exact ⟨id, hid, hpath.trans hxy⟩

/-- Arguments use nothing outside of a set that what they stand for is in, with the items of its
lists. -/
theorem Uses.mem {used : List NodeId} (hroot : ∀ root ∈ g.bound? a, root ∈ used)
    (hitems : ∀ y ∈ used, ∀ item ∈ (g.listItems? y).getD [], item ∈ used) (h : g.Uses a x) :
    x ∈ used := by
  obtain ⟨root, hbound, hpath⟩ := h
  induction hpath with
  | refl => exact hroot root hbound
  | tail _ hstep ih =>
    obtain ⟨items, hlist, hitem⟩ := hstep
    exact hitems _ ih _ (by rw [hlist]; exact hitem)

/-- Only existing nodes have arguments. -/
theorem lt_size_of_argument (hclosed : g.Closed) (ha : a ∈ Describe.arguments g x) : x < g.size := by
  by_contra hx
  rw [Describe.arguments, hclosed.properties_eq_nil (Nat.le_of_not_lt hx)] at ha
  cases ha

/-- It is enough that all keys are distinct, and that what arguments use is known, leads to later
components and variables only, and has one owner for each literal. -/
theorem isolated_of_ascending (hclosed : g.Closed) (hg : g.Describable)
    (hdistinct : ∀ x < g.size, ∀ y < g.size, g.value? x = g.value? y → x = y)
    (used : NodeId → List NodeId) (owner : NodeId → NodeId)
    (hused : ∀ x < g.size, ∀ a ∈ Describe.arguments g x, (∀ root ∈ g.bound? a, root ∈ used a) ∧
      ∀ y ∈ used a, (∀ item ∈ (g.listItems? y).getD [], item ∈ used a) ∧
        ((g.isVariable y || Describe.isComponent g y) = true → x < y) ∧
        (g.kind? y = some .literal → owner y = a))
    (ids : List NodeId) : g.Isolated ids where
  toDescribable := hg
  acyclic x _ hcycle := by
    have hless : ∀ {y}, TransGen g.RefersTo x y → x < y := by
      have hstep : ∀ {x y}, g.RefersTo x y → x < y := by
        intro x y h
        obtain ⟨a, ha, huses⟩ := h.argument
        obtain ⟨t, -, -, -, hdescribed⟩ := h.described
        obtain ⟨hroot, hlists⟩ := hused x (lt_size_of_argument hclosed ha) a ha
        exact (hlists y (huses.mem hroot fun z hz => (hlists z hz).1)).2.1 hdescribed
      intro y h
      induction h with
      | single hxy => exact hstep hxy
      | tail _ hxy ih => exact Nat.lt_trans ih (hstep hxy)
    exact Nat.lt_irrefl x (hless hcycle)
  distinct x y key _ _ hx hy :=
    hdistinct x (lt_size_of_value hx) y (lt_size_of_value hy) (hx.trans hy.symm)
  owned a b z ha hb hza hzb hkind := by
    have howner : ∀ {a}, g.Argues ids a → g.Uses a z → owner z = a := by
      rintro a ⟨x, -, -, ha⟩ huses
      obtain ⟨hroot, hlists⟩ := hused x (lt_size_of_argument hclosed ha) a ha
      exact (hlists z (huses.mem hroot fun z hz => (hlists z hz).1)).2.2 hkind
    exact (howner ha hza).symm.trans (howner hb hzb)

/-! ## What checks of arguments leave -/

/-- What the check of an argument leaves on literals, if there is one. -/
def argumentWrites (g : Graph) (argument : NodeId) : Writes :=
  match g.property? argument Components.parameter with
  | none => []
  | some parameter => match (Parameter.ofNode g parameter).run with
    | some (.ok p) => (p.range.trial g (g.property? argument Components.value)).writes
    | _ => []

theorem argumentWrites_eq {parameter : NodeId} {p : Parameter}
    (hparameter : g.property? a Components.parameter = some parameter)
    (hp : (Parameter.ofNode g parameter).run = some (.ok p)) :
    g.argumentWrites a = (p.range.trial g (g.property? a Components.value)).writes := by
  rw [argumentWrites, hparameter]
  dsimp only
  rw [hp]

/-- An argument uses the literals that its check leaves values on. -/
theorem uses_of_argumentWrites {v : TypedValue} (h : (g.argumentWrites a).left? x = some v) :
    g.Uses a x ∧ g.kind? x = some .literal := by
  have hmem := Writes.mem_of_left? h
  rw [argumentWrites] at hmem
  split at hmem
  · cases hmem
  · rename_i parameter hparameter
    split at hmem
    · rename_i p hp
      obtain ⟨root, hroot, hw⟩ := Range.trial_leaves g _ _ _ hmem
      refine ⟨⟨root, ?_, hw.path⟩, ?_⟩
      · rw [bound?, hparameter]
        exact hroot
      · obtain ⟨t, ht, hkind, -⟩ := hw.literal
        rw [kind?, ht, ← hkind]
        rfl
    · cases hmem

end Graph

/-- The workbench has a certain graph, and literals hold what the checks of the arguments that use
them leave, if they hold anything. -/
structure Workbench.Honest (g : Graph) (ids : List NodeId) (w : Workbench) : Prop where
  graph : w.store.graph = g
  typed : ∀ x v, w.store.typed? x = some v → ∃ a, g.Argues ids a ∧
    (g.argumentWrites a).left? x = some v

/-- Whatever its literals hold, a workbench stays honest and its literals hold it further on. -/
structure Workbench.Settles (g : Graph) (ids : List NodeId) (w w' : Workbench) : Prop where
  honest : w.Honest g ids → w'.Honest g ids
  keeps : ∀ x v, w.store.typed? x = some v → w'.store.typed? x = some v

/-- Literals hold all that the check of an argument leaves. -/
structure Workbench.Checked (g : Graph) (ids : List NodeId) (a : NodeId) (w : Workbench) : Prop where
  honest : w.Honest g ids
  held : ∀ x v, (g.argumentWrites a).left? x = some v → w.store.typed? x = some v

namespace Workbench

variable {g : Graph} {ids : List NodeId} {a x : NodeId} {w w' : Workbench}

theorem Checked.settles (h : w.Checked g ids a) (hw : w.Settles g ids w') : w'.Checked g ids a :=
  ⟨hw.honest h.honest, fun x v hv => hw.keeps x v (h.held x v hv)⟩

/-- An argument whose check leaves nothing needs no check. -/
theorem Honest.checked (h : w.Honest g ids) (hnone : g.argumentWrites a = []) :
    w.Checked g ids a :=
  ⟨h, fun x v hv => by rw [hnone] at hv; cases hv⟩

/-- What a literal holds is what the check of the argument that uses it leaves. -/
theorem Honest.left? (h : w.Honest g ids) (hg : g.Isolated ids) (ha : g.Argues ids a)
    (huses : g.Uses a x) (hkind : g.kind? x = some .literal) {v : TypedValue}
    (hv : w.store.typed? x = some v) : (g.argumentWrites a).left? x = some v := by
  obtain ⟨b, hb, hleft⟩ := h.typed x v hv
  obtain rfl := hg.owned a b x ha hb huses (Graph.uses_of_argumentWrites hleft).1 hkind
  exact hleft

/-- After its check the literals of an argument hold what they would hold if nothing else had been
checked. -/
theorem Checked.typed? (h : w.Checked g ids a) (hg : g.Isolated ids) (ha : g.Argues ids a)
    (huses : g.Uses a x) (hkind : g.kind? x = some .literal) :
    w.store.typed? x = ((∅ : TypedValues).replay (g.argumentWrites a))[x]? := by
  rw [TypedValues.getElem?_replay, Std.ExtTreeMap.getElem?_empty, Option.or_none]
  cases hleft : (g.argumentWrites a).left? x with
  | some v => exact h.held x v hleft
  | none =>
    cases hv : w.store.typed? x with
    | none => rfl
    | some v =>
      rw [h.honest.left? hg ha huses hkind hv] at hleft
      cases hleft

/-- The check of an argument leaves an honest workbench honest, and the argument checked. -/
theorem Honest.check (h : w.Honest g ids) (hg : g.Isolated ids) (ha : g.Argues ids a)
    (hstore : w'.store = { graph := g, typed := w.store.typed.replay (g.argumentWrites a) }) :
    w.Settles g ids w' ∧ w'.Checked g ids a := by
  have htyped : ∀ x, w'.store.typed? x = ((g.argumentWrites a).left? x).or (w.store.typed? x) := by
    intro x
    rw [hstore]
    exact TypedValues.getElem?_replay _ _ x
  have hhonest : w'.Honest g ids := by
    refine ⟨by rw [hstore], fun x v hv => ?_⟩
    rw [htyped, Option.or_eq_some_iff] at hv
    rcases hv with hv | ⟨-, hv⟩
    · exact ⟨a, ha, hv⟩
    · exact h.typed x v hv
  refine ⟨⟨fun _ => hhonest, fun x v hv => ?_⟩, hhonest, fun x v hv => ?_⟩
  · rw [htyped]
    cases hleft : (g.argumentWrites a).left? x with
    | none => exact hv
    | some v' =>
      -- the literal holds already what this check leaves
      obtain ⟨huses, hkind⟩ := Graph.uses_of_argumentWrites hleft
      rw [h.left? hg ha huses hkind hv] at hleft
      rw [← hleft]
      rfl
  · rw [htyped, hv]
    rfl

end Workbench

/-! ## The terms of descriptions -/

/-- A construction for a config that requests lead to, with settings that tell the same as those of
the callers for all that it refers to. -/
structure Errand.Meant (g : Graph) (settings : Settings) (ids : List NodeId) (e : Errand) :
    Prop where
  reached : g.LeadsTo ids e.config
  constructs : Factory.Constructs g settings e.config e.key
  same : ∀ y, TransGen g.RefersTo e.config y → Settings.Same g y settings e.settings

/-- Results are descriptions. -/
def Terms.describing (g : Graph) (settings : Settings) (ids : List NodeId) : Terms where
  inv w := w.Honest g ids
  change w w' := w.Settles g ids w'
  admits _ e := e.Meant g settings ids
  asks e d := g.RefersTo e.config d
  answer _ d result := Describes g settings d result
  result e result := Describes g settings e.config result
  waits e other := g.RefersTo e.config other.config

theorem Terms.cumulative_describing (g : Graph) (settings : Settings) (ids : List NodeId) :
    (Terms.describing g settings ids).Cumulative where
  refl _ := ⟨id, fun _ _ => id⟩
  trans h₁ h₂ := ⟨h₂.honest ∘ h₁.honest, fun x v hv => h₂.keeps x v (h₁.keeps x v hv)⟩

/-- A parameter that is not checked has no constraint. -/
theorem Parameter.range_of_not_isChecked {p : Parameter} (h : ¬ p.isChecked = true) :
    p.range = .any := by
  cases hr : p.range with
  | any => rfl
  | _ => exact absurd (by rw [isChecked, hr]; rfl) h

/-! ## Builds compute descriptions -/

namespace Describe

variable {g : Graph} {settings : Settings} {ids : List NodeId} {e : Errand} {a : NodeId}
  {describe : NodeId → Recursion Json} {w : Workbench}

/-- A function gives the descriptions of all nodes that have one. -/
def Gives (g : Graph) (settings : Settings) (describe : NodeId → Recursion Json) : Prop :=
  ∀ d r, Describes g settings d r → (describe d).run = some r

/-- What a checked argument stands for is resolved as if nothing else had been checked. -/
theorem computes_resolveWithin (hg : g.Isolated ids) (he : e.Meant g settings ids)
    (ha : a ∈ arguments g e.config) (hdescribe : Gives g settings describe) {limit : Nat}
    {id : NodeId} (huses : g.Uses a id) (hw : w.Checked g ids a) :
    (resolveWithin limit (some id)).Computes (.describing g settings ids) e
      (valueWithin g ((∅ : TypedValues).replay (g.argumentWrites a)) describe limit (some id)) w := by
  have hT := Terms.cumulative_describing g settings ids
  have hargues : g.Argues ids a := ⟨e.config, he.reached, he.constructs.notVariable, ha⟩
  induction limit generalizing id w with
  | zero => trivial
  | succ limit ih =>
    rw [resolveWithin, valueWithin]
    refine Build.computes_workbench ?_
    dsimp only
    rw [hw.honest.graph]
    cases ht : g.term? id with
    | none => exact rfl
    | some t =>
      have hkind : g.kind? id = some t.kind := by rw [Graph.kind?, ht]; rfl
      -- any other node than a literal or a list has a description of its own, or is its text
      have hother : t.kind ≠ .literal → t.kind ≠ .list →
          (if g.isVariable id || isComponent g id then Build.ask id
            else pure (.str t.value)).Computes (.describing g settings ids) e
          (if g.isVariable id || isComponent g id then describe id else pure (.str t.value)) w := by
        intro hliteral hlist
        split
        · rename_i hdescribed
          exact Build.computes_ask (T := .describing g settings ids)
            ⟨he.constructs.notVariable, ⟨a, ha, huses⟩, t, ht, hliteral, hlist, hdescribed⟩
            (hdescribe id) w
        · exact Build.computes_pure hT _ w
      dsimp only
      cases hk : t.kind with
      | literal =>
        have hvalue : w.store.literalValue id t = ({
            graph := g, typed := (∅ : TypedValues).replay (g.argumentWrites a) } : Store).literalValue
            id t := by
          rw [Store.literalValue, hw.typed? hg hargues huses (hk ▸ hkind)]
          rfl
        rw [hvalue]
        exact Build.computes_pure hT _ w
      | list =>
        refine (Build.computes_each hT fun item hitem w' hw' => ?_).map hT _
        refine ih ?_ (hw.settles hw')
        obtain ⟨root, hroot, hpath⟩ := huses
        cases hitems : g.listItems? id with
        | none =>
          rw [hitems] at hitem
          cases hitem
        | some items =>
          rw [hitems] at hitem
          exact ⟨root, hroot, hpath.tail ⟨items, hitems, hitem⟩⟩
      | _ => exact hother (by rw [hk]; decide) (by rw [hk]; decide)

/-- What a checked argument stands for is computed. -/
theorem computes_resolve (hg : g.Isolated ids) (he : e.Meant g settings ids)
    (ha : a ∈ arguments g e.config) (hdescribe : Gives g settings describe)
    (hw : w.Checked g ids a) :
    (resolve (g.bound? a)).Computes (.describing g settings ids) e
      (valueWithin g ((∅ : TypedValues).replay (g.argumentWrites a)) describe (g.size + 1)
        (g.bound? a)) w := by
  refine Build.computes_graph ?_
  rw [hw.honest.graph]
  cases hbound : g.bound? a with
  | none => exact Build.computes_pure (Terms.cumulative_describing g settings ids) Json.null w
  | some root => exact computes_resolveWithin hg he ha hdescribe ⟨root, hbound, .refl⟩ hw

/-- Binding the value of an argument gives the verdict on it, and leaves the argument checked. -/
theorem assures_capture (hg : g.Isolated ids) (hargues : g.Argues ids a) (hw : w.Honest g ids)
    {p : Parameter} (hwrites : g.argumentWrites a =
      (p.range.trial g (g.property? a Components.value)).writes) :
    (Build.capture p (g.property? a Components.value)).Assures (.describing g settings ids) e
      (fun u w' => ((ofExcept ((p.capture { graph := g }
          (g.property? a Components.value)).1.mapError .range) : Recursion Unit).run = some (.ok u) ∧
        w.Settles g ids w') ∧ w'.Checked g ids a)
      (fun x => (ofExcept ((p.capture { graph := g }
          (g.property? a Components.value)).1.mapError .range) : Recursion Unit).run =
        some (.error x)) w := by
  have hcapture : p.capture w.store (g.property? a Components.value) =
      ((p.capture { graph := g } (g.property? a Components.value)).1,
        { graph := g, typed := w.store.typed.replay (g.argumentWrites a) }) := by
    rw [Parameter.capture_eq, Parameter.capture_eq, hw.graph, hwrites]
  rw [Build.assures_capture, hcapture]
  have hcheck : ∀ w' : Workbench,
      w'.store = { graph := g, typed := w.store.typed.replay (g.argumentWrites a) } →
      w.Settles g ids w' ∧ w'.Checked g ids a := fun _ => hw.check hg hargues
  obtain ⟨hsettles, hchecked⟩ := hcheck { w with
    store := { graph := g, typed := w.store.typed.replay (g.argumentWrites a) } } rfl
  refine ⟨hsettles, ?_⟩
  cases (p.capture { graph := g } (g.property? a Components.value)).1 with
  | ok u => exact ⟨⟨rfl, hsettles⟩, hchecked⟩
  | error x => exact rfl

/-- The build of an argument computes what it stands for. -/
theorem computes_resolveArgument (hg : g.Isolated ids) (he : e.Meant g settings ids)
    (ha : a ∈ arguments g e.config) (hdescribe : Gives g settings describe)
    (hw : w.Honest g ids) :
    (resolveArgument a).Computes (.describing g settings ids) e (argumentValue g describe a) w := by
  have hT := Terms.cumulative_describing g settings ids
  have hargues : g.Argues ids a := ⟨e.config, he.reached, he.constructs.notVariable, ha⟩
  have hresolve := fun {w} => computes_resolve (w := w) hg he ha hdescribe
  rw [argumentValue]
  refine Build.computes_graph ?_
  rw [hw.graph]
  cases hparameter : g.property? a Components.parameter with
  | none =>
    have hbound : g.bound? a = some a := by rw [Graph.bound?, hparameter]
    have hnone : g.argumentWrites a = [] := by rw [Graph.argumentWrites, hparameter]
    have h := hresolve (hw.checked hnone)
    rw [hbound, hnone] at h
    exact h
  | some parameter =>
    have hbound : g.bound? a = g.property? a Components.value := by rw [Graph.bound?, hparameter]
    rw [hbound] at hresolve
    refine (Build.computes_ofLowered hT _ w).bind hT fun p w₁ hp hw₁ => ?_
    have hw₁ := hw₁.honest hw
    have hwrites := Graph.argumentWrites_eq hparameter (Recursion.ofLowered_eq_ok hp)
    dsimp only
    by_cases hchecked : p.isChecked = true
    · rw [if_pos hchecked, if_pos hchecked]
      refine Build.computes_bind hT (assures_capture hg hargues hw₁ hwrites)
        fun _ w₂ _ _ hw₂ => ?_
      have htyped : (p.capture { graph := g } (g.property? a Components.value)).2.typed =
          (∅ : TypedValues).replay (g.argumentWrites a) := by
        rw [Parameter.capture_eq, hwrites]
      rw [htyped]
      exact hresolve hw₂
    · rw [if_neg hchecked, if_neg hchecked]
      have hnone : g.argumentWrites a = [] := by
        rw [hwrites, Parameter.range_of_not_isChecked hchecked]
        rfl
      have h := hresolve (hw₁.checked hnone)
      rw [hnone] at h
      exact h

/-- **The build of a component computes its description**, whatever has been checked before. -/
theorem computes_build (hg : g.Isolated ids) (he : e.Meant g settings ids)
    (hdescribe : Gives g settings describe) (hw : w.Honest g ids) :
    (Describe.build e.config).Computes (.describing g settings ids) e
      (component g describe e.config e.key) w := by
  have hT := Terms.cumulative_describing g settings ids
  rw [component]
  refine Build.computes_graph ?_
  rw [hw.graph, he.constructs.value]
  dsimp only
  cases g.propertyValue? e.config Components.requireName with
  | none => exact rfl
  | some name =>
    dsimp only
    rw [map_eq_pure_bind]
    have hargs : (Build.each resolveArgument (arguments g e.config)).Computes
        (.describing g settings ids) e ((arguments g e.config).mapM (argumentValue g describe)) w :=
      Build.computes_each hT fun a ha w' hw' =>
        computes_resolveArgument hg he ha hdescribe (hw'.honest hw)
    refine hargs.bind hT fun args w' _ hw' => ?_
    refine Build.computes_graph ?_
    rw [(hw'.honest hw).graph]
    exact Build.computes_pure hT (json g e.config name args) w'

end Describe

end Wiring

import Wiring.Factory.Polling
import Wiring.Proofs.Nestings
import Wiring.Proofs.Ranks

/-!
# Arguments that are checked without strings

What a checked argument stands for may depend on earlier checks, since literals keep what those have
left. It does not where the range has no strings and the value consists of nested lists of literals:
then the check of the argument itself leaves a value on every literal, right before these are read.

- `Build.alone?` carries out a plan that asks for nothing, away from any pool. A pool does the same
  (`Factory.drive_alone`).
- `Describe.resolveArgument_alone`: an argument comes to an outcome that the parameter and the nesting
  decide.
- `Describe.arguments_independent`: so it does in all states of all pools.
-/

namespace Wiring

/-! ## Plans that ask for nothing -/

namespace Build

variable {α β : Type}

/-- What a plan comes to, and the workbench afterwards, if it ends without asking for anything and
without suspending itself. -/
def alone? : Build α → Workbench → Option (Except BuildError α × Workbench)
  | .done a, w => some (.ok a, w)
  | .fail e, w => some (.error e, w)
  | .read next, w => (next w).alone? w
  | .write w next, _ => next.alone? w
  | _, _ => none

variable {w w' : Workbench} {b : Build α}

theorem alone?_ofExcept (a : Except BuildError α) : (ofExcept a).alone? w = some (a, w) := by
  cases a <;> rfl

theorem alone?_bind {a : α} (h : b.alone? w = some (.ok a, w')) (f : α → Build β) :
    (b >>= f).alone? w = (f a).alone? w' := by
  induction b generalizing w with
  | done a' =>
    cases h
    rfl
  | read next ih => exact ih w h
  | write bench next ih => exact ih h
  | _ => cases h

theorem alone?_bind_error {e : BuildError} (h : b.alone? w = some (.error e, w'))
    (f : α → Build β) : (b >>= f).alone? w = some (.error e, w') := by
  induction b generalizing w with
  | fail e' =>
    cases h
    rfl
  | read next ih => exact ih w h
  | write bench next ih => exact ih h
  | _ => cases h

theorem alone?_map {a : α} (h : b.alone? w = some (.ok a, w')) (f : α → β) :
    (f <$> b).alone? w = some (.ok (f a), w') := by
  rw [map_eq_pure_bind, alone?_bind h]
  rfl

/-- Plans that leave the workbench as it is do so one after the other. -/
theorem alone?_each {γ : Type} {f : α → Build β} {key : γ → α} {value : γ → β} {cs : List γ}
    (h : ∀ c ∈ cs, (f (key c)).alone? w = some (.ok (value c), w)) :
    (each f (cs.map key)).alone? w = some (.ok (cs.map value), w) := by
  induction cs with
  | nil => rfl
  | cons c cs ih =>
    rw [List.forall_mem_cons] at h
    rw [List.map_cons, each, alone?_bind h.1, alone?_bind (ih h.2)]
    rfl

end Build

/-- **A pool carries out such a plan as it is carried out alone**, whatever the pool is, and goes on
from there. -/
theorem Factory.drive_alone {o : Factory} {poll : Nat → Job Progress} {number : Nat}
    {settings : Settings} {α : Type} {b : Build α} {f : Floor} {outcome : Except BuildError α}
    {w : Workbench} (h : b.alone? f.bench = some (outcome, w)) (next : α → Build Json) :
    (drive o poll number settings (b >>= next)).run f =
      (drive o poll number settings (Build.ofExcept outcome >>= next)).run { f with bench := w } := by
  induction b generalizing f with
  | done a =>
    cases h
    rfl
  | fail e =>
    cases h
    rfl
  | read next' ih => exact ih f.bench h
  | write bench next' ih =>
    have hwrite : (next'.alone? { f with bench }.bench) = some (outcome, w) := h
    exact ih hwrite
  | _ => cases h

namespace Describe

open Build

/-! ## Values -/

/-- What a node shows, if it holds a typed value. -/
def typedJson (typed : NodeId → Option TypedValue) (id : NodeId) : Json :=
  ((typed id).map TypedValue.toJson).getD .null

/-- A nesting whose literals hold typed values stands for the array of these values. -/
theorem resolveWithin_nests {w : Workbench} {rank : NodeId → Nat}
    (hrank : ∀ {id t items}, w.store.graph.Nests (.list id t items) → ∀ n ∈ items,
      rank n.root < rank id) {n : Nesting} (hn : w.store.graph.Nests n)
    (htyped : ∀ l ∈ n.leaves, (w.store.typed? l.1).isSome) {limit : Nat}
    (hlimit : rank n.root < limit) :
    (resolveWithin limit (some n.root)).alone? w = some (.ok (n.json (typedJson w.store.typed?)), w) := by
  have hworkbench : workbench.alone? w = some (.ok w, w) := rfl
  induction hn generalizing limit with
  | @leaf id t term kind =>
    obtain ⟨limit, rfl⟩ := Nat.exists_eq_add_one_of_ne_zero (Nat.ne_zero_of_lt hlimit)
    obtain ⟨v, hv⟩ := Option.isSome_iff_exists.mp (htyped (id, t) (List.mem_singleton.mpr rfl))
    have hv : w.store.typed? id = some v := hv
    rw [Nesting.root, resolveWithin, alone?_bind hworkbench]
    simp [term, kind, Store.literalValue, Nesting.json, typedJson, hv, alone?]
  | @list id t items term kind untyped listed each ih =>
    obtain ⟨limit, rfl⟩ := Nat.exists_eq_add_one_of_ne_zero (Nat.ne_zero_of_lt hlimit)
    have hlist : w.store.graph.Nests (.list id t items) := .list term kind untyped listed each
    have hitems : ∀ m ∈ items, (resolveWithin limit (some m.root)).alone? w =
        some (.ok (m.json (typedJson w.store.typed?)), w) := by
      intro m hm
      refine ih m hm (fun l hl => htyped l (Nesting.mem_eachLeaves.mpr ⟨m, hm, hl⟩)) ?_
      have := hrank hlist m hm
      rw [Nesting.root] at hlimit
      omega
    have heach : (Build.each (fun item => resolveWithin limit (some item))
        (items.map Nesting.root)).alone? w =
          some (.ok (items.map (Nesting.json (typedJson w.store.typed?))), w) := alone?_each hitems
    rw [Nesting.root, resolveWithin, alone?_bind hworkbench]
    simp only [term, kind, listed, Option.getD_some]
    rw [alone?_map heach, Nesting.json, Nesting.jsonEach_eq_map]

theorem resolve_nests {w : Workbench} {n : Nesting} (hn : w.store.graph.Nests n)
    (htyped : ∀ l ∈ n.leaves, (w.store.typed? l.1).isSome) :
    (resolve (some n.root)).alone? w = some (.ok (n.json (typedJson w.store.typed?)), w) := by
  obtain ⟨rank, hle, hfalls⟩ := w.store.graph.exists_rank_nests
  have hgraph : Build.graph.alone? w = some (.ok w.store.graph, w) := rfl
  rw [resolve, alone?_bind hgraph]
  exact resolveWithin_nests hfalls hn htyped (Nat.lt_succ_of_le (hle n.root))

end Describe

/-! ## Arguments -/

/-- An argument binds a value, a nesting of literals, to a parameter. -/
structure Graph.BindsNesting (g : Graph) (argument : NodeId) (p : Parameter) (n : Nesting) :
    Prop where
  parameter : ∃ node, g.property? argument Components.parameter = some node ∧
    (Parameter.ofNode g node).run = some (.ok p)
  value : g.property? argument Components.value = some n.root
  nests : g.Nests n

namespace Graph.Nests

variable {g : Graph} {n : Nesting}

/-- The JSON of a nesting depends on what is shown for its literals. -/
theorem json_congr (h : g.Nests n) {leaf leaf' : NodeId → Json}
    (hleaf : ∀ l ∈ n.leaves, leaf l.1 = leaf' l.1) : n.json leaf = n.json leaf' := by
  induction h with
  | @leaf id t => exact hleaf (id, t) (List.mem_singleton.mpr rfl)
  | @list id t items _ _ _ _ _ ih =>
    rw [Nesting.json, Nesting.json, Nesting.jsonEach_eq_map, Nesting.jsonEach_eq_map]
    congr 1
    refine List.map_congr_left fun m hm => ih m hm fun l hl => ?_
    exact hleaf l (Nesting.mem_eachLeaves.mpr ⟨m, hm, hl⟩)

/-- Messages show a nesting by its own terms. -/
theorem showValue_eq (h : g.Nests n) : g.showValue (some n.root) = n.shown := by
  cases n with
  | leaf id t =>
    have hterm : g.term? id = some t := h.term?_eq
    simp [showValue, Nesting.root, h.listItems?_leaf, value?, hterm, Nesting.shown]
  | list id t items =>
    have hvalues : (items.map Nesting.root).filterMap g.value? = items.map (·.term.value) := by
      rw [List.filterMap_map, ← List.filterMap_eq_map]
      refine List.filterMap_congr fun m hm => ?_
      simp [value?, (h.each m hm).term?_eq]
    simp only [showValue, Nesting.root, h.listItems?_list, hvalues, Nesting.shown]

end Graph.Nests

namespace Describe

open Build

variable {g : Graph} {w : Workbench} {p : Parameter} {n : Nesting} {argument : NodeId}

/-- What is shown for the literals of a nesting after they have been checked. -/
def checkedJson (p : Parameter) (n : Nesting) (g : Graph) : NodeId → Json :=
  typedJson (p.range.trial g (some n.root)).writes.left?

/-- What an argument comes to that binds a nesting to a parameter: the description of the nesting, if the
check succeeds, or else the violation. -/
def outcome (p : Parameter) (n : Nesting) (g : Graph) : Except BuildError Json :=
  if (p.range.trial g (some n.root)).verdict then .ok (n.json (checkedJson p n g))
  else .error (.range (.violation n.shown [] p.id p.range.display))

/-- The workbench after a check. -/
def checked (w : Workbench) (p : Parameter) (n : Nesting) : Workbench :=
  { w with store := (p.capture w.store (some n.root)).2 }

/-- A check that succeeds puts its own values on all literals. -/
theorem typed?_checked (hp : p.range.isStringFree = true) (hn : w.store.graph.Nests n)
    (h : (p.range.trial w.store.graph (some n.root)).verdict = true) : ∀ l ∈ n.leaves,
    (checked w p n).store.typed? l.1 =
      (p.range.trial w.store.graph (some n.root)).writes.left? l.1 := by
  intro l hl
  obtain ⟨v, hv, -⟩ := Range.left?_trial hp hn h l hl
  rw [checked, Parameter.capture_eq, Store.typed?, TypedValues.getElem?_replay, hv]
  rfl

/-- **An argument comes to what its parameter and its value decide.** -/
theorem resolveArgument_alone (hp : p.range.isStringFree = true)
    (h : w.store.graph.BindsNesting argument p n) :
    (resolveArgument argument).alone? w =
      some (outcome p n w.store.graph, checked w p n) := by
  obtain ⟨node, hnode, hlower⟩ := h.parameter
  have hn := h.nests
  have hgraph : Build.graph.alone? w = some (.ok w.store.graph, w) := rfl
  have hlowered : (Build.ofLowered (Parameter.ofNode w.store.graph node)).alone? w =
      some (.ok p, w) := by
    rw [show Parameter.ofNode w.store.graph node = some (.ok p) from hlower]
    rfl
  have hchecked : p.isChecked = true := by
    cases hrange : p.range <;> simp_all [Parameter.isChecked, Range.isAny, Range.isStringFree]
  have hcapture : (Build.capture p (some n.root)).alone? w =
      some ((p.capture w.store (some n.root)).1.mapError .range, checked w p n) :=
    alone?_ofExcept _
  rw [resolveArgument, alone?_bind hgraph]
  simp only [hnode]
  rw [alone?_bind hlowered, if_pos hchecked, h.value, outcome]
  rw [Parameter.capture_eq] at hcapture
  cases hverdict : (p.range.trial w.store.graph (some n.root)).verdict with
  | false =>
    have hviolation : p.violation w.store.graph (some n.root) =
        .violation n.shown [] p.id p.range.display := by
      rw [Parameter.violation, hn.showValue_eq, Option.elim_some, hn.types_eq]
    rw [hverdict, if_neg Bool.false_ne_true, hviolation] at hcapture
    exact alone?_bind_error hcapture _
  | true =>
    rw [hverdict, if_pos rfl] at hcapture
    have htyped := typed?_checked hp hn hverdict
    have hresolve := resolve_nests (w := checked w p n) (n := n) hn fun l hl => by
      obtain ⟨v, hv, -⟩ := Range.left?_trial hp hn hverdict l hl
      rw [htyped l hl, hv]
      rfl
    have hjson : n.json (typedJson (checked w p n).store.typed?) =
        n.json (checkedJson p n w.store.graph) := by
      refine hn.json_congr fun l hl => ?_
      rw [checkedJson, typedJson, typedJson, htyped l hl]
    rw [hjson] at hresolve
    exact (alone?_bind hcapture _).trans hresolve

/-- An outcome does not depend on the graph that shows the nesting. -/
theorem outcome_congr {g' : Graph} (p : Parameter) (hn : g.Nests n) (hn' : g'.Nests n) :
    outcome p n g' = outcome p n g := by
  unfold outcome checkedJson
  rw [Range.trial_congr p.range hn hn']

/-- A check that succeeds reads every literal as a primitive of the range. -/
theorem readsAs_outcome (hp : p.range.isStringFree = true) (hn : g.Nests n)
    (h : (p.range.trial g (some n.root)).verdict = true) :
    n.ReadsAs p.range.primitives (n.json (checkedJson p n g)) := by
  refine ⟨checkedJson p n g, rfl, fun l hl => ?_⟩
  obtain ⟨v, hv, q, hq, hcoerce⟩ := Range.left?_trial hp hn h l hl
  refine ⟨q, hq, v, hcoerce, ?_⟩
  rw [checkedJson, typedJson, hv]
  rfl

/-- **Descriptions of arguments do not depend on earlier checks.** Let an argument bind a literal, or
lists that are nested down to literals, to a parameter whose range has no strings. It has one outcome in
all states of all pools, whatever values earlier checks have left on the literals: the violation that
names the value, or arrays that are nested as the lists are, with every literal read as a primitive of
the range. If the range is made of arrays around one primitive, and the lists are nested as deep as the
arrays, then the argument succeeds just if the primitive accepts all literals, and they are read as this
primitive. -/
theorem arguments_independent (hp : p.range.isStringFree = true) {f : Floor}
    (h : f.graph.BindsNesting argument p n) :
    ∃ outcome : Except BuildError Json,
      (outcome = .error (.range (.violation n.shown [] p.id p.range.display)) ∨
        ∃ j, outcome = .ok j ∧ n.ReadsAs p.range.primitives j) ∧
      (∀ level iri q, p.range = .arrays level (.type iri) → Primitive.ofIri? iri = some q →
        n.Uniform level →
          ((∃ j, outcome = .ok j) ↔ ∀ l ∈ n.leaves, (q.coerce l.2.value).isSome) ∧
          ∀ j, outcome = .ok j → n.ReadsAs [q] j) ∧
      ∀ (o : Factory) (poll : Nat → Job Progress) (number : Nat) (settings : Settings)
        (next : Json → Build Json) (f' : Floor), f'.graph.BindsNesting argument p n →
          (o.drive poll number settings (resolveArgument argument >>= next)).run f' =
            (o.drive poll number settings (Build.ofExcept outcome >>= next)).run
              { f' with bench := checked f'.bench p n } := by
  have hn := h.nests
  refine ⟨outcome p n f.graph, ?_, fun level iri q hrange hiri hlevel => ?_,
    fun o poll number settings next f' h' => ?_⟩
  · rw [outcome]
    split
    · rename_i hverdict
      exact .inr ⟨_, rfl, readsAs_outcome hp hn hverdict⟩
    · exact .inl rfl
  · have hprimitives : p.range.primitives = [q] := by
      rw [hrange, Range.primitives_arrays, Range.primitives, hiri]
      rfl
    have hverdict := Range.verdict_arrays hiri hn hlevel
    rw [← hrange] at hverdict
    rw [← hverdict, ← hprimitives, outcome]
    split
    · rename_i h
      refine ⟨⟨fun _ => h, fun _ => ⟨_, rfl⟩⟩, fun j hj => ?_⟩
      cases hj
      exact readsAs_outcome hp hn h
    · rename_i h
      refine ⟨⟨fun hok => ?_, fun hverdict => absurd hverdict h⟩, fun j hj => ?_⟩
      · obtain ⟨j, hj⟩ := hok
        cases hj
      · cases hj
  · have halone := resolveArgument_alone hp h'
    have hsame : outcome p n f'.bench.store.graph = outcome p n f.graph :=
      outcome_congr p hn h'.nests
    rw [hsame] at halone
    exact Factory.drive_alone halone next

/-- An argument whose parameter takes lists of lists of integers. One literal of its value occurs
twice. -/
def grid : Store :=
  [Update.literal "1", .literal "2", .list [0, 1], .list [0], .list [2, 3], .named Xsd.integer,
    .blank, .blank, .named "ex:grid", .blank, .addType 6 Components.rangeArray,
    .addProperty 6 Components.parameterRangeValue 5, .addType 7 Components.rangeArray,
    .addProperty 7 Components.parameterRangeValue 6, .addProperty 8 Rdfs.range 7,
    .addProperty 9 Components.parameter 8, .addProperty 9 Components.value 4].foldl
      (fun s u => (s.apply u).2) {}

/-- The value of the argument. -/
def gridValue : Nesting :=
  .list 4 ⟨.list, "_:l3", none⟩
    [.list 2 ⟨.list, "_:l1", none⟩
      [.leaf 0 (.literal "1" Xsd.string), .leaf 1 (.literal "2" Xsd.string)],
    .list 3 ⟨.list, "_:l2", none⟩ [.leaf 0 (.literal "1" Xsd.string)]]

theorem bindsNesting_grid :
    grid.graph.BindsNesting 9 ⟨"ex:grid", .arrays 2 (.type Xsd.integer)⟩ gridValue where
  parameter := by
    refine ⟨8, by decide +kernel, ?_⟩
    have hlower : ((Parameter.ofNode grid.graph 8).run.any fun
        | .ok ⟨id, .array (.array (.type iri))⟩ => decide (id = "ex:grid" ∧ iri = Xsd.integer)
        | _ => false) = true := by
      decide +kernel
    obtain ⟨result, hresult, hlower⟩ := (Option.any_eq_true _ _).mp hlower
    split at hlower
    · obtain ⟨rfl, rfl⟩ := of_decide_eq_true hlower
      exact hresult
    · cases hlower
  value := by decide +kernel
  nests := by
    have huntyped : ∀ id < 5, grid.graph.types id = [] := by decide +kernel
    have hliteral : ∀ l ∈ gridValue.leaves, grid.graph.term? l.1 = some l.2 := by decide +kernel
    have hone : grid.graph.Nests (.leaf 0 (.literal "1" Xsd.string)) :=
      .leaf (hliteral (0, _) (by decide)) rfl (huntyped 0 (by decide))
    have htwo : grid.graph.Nests (.leaf 1 (.literal "2" Xsd.string)) :=
      .leaf (hliteral (1, _) (by decide)) rfl (huntyped 1 (by decide))
    refine .list (by decide +kernel) rfl (huntyped 4 (by decide)) (by decide +kernel) ?_
    simp only [List.forall_mem_cons, List.not_mem_nil, false_imp_iff, implies_true, and_true]
    constructor
    · refine .list (by decide +kernel) rfl (huntyped 2 (by decide)) (by decide +kernel) ?_
      simp [hone, htwo]
    · refine .list (by decide +kernel) rfl (huntyped 3 (by decide)) (by decide +kernel) ?_
      simp [hone]

/-- The arrays are the same where an earlier check has left a truth value on the literal. -/
theorem arguments_independent_grid : ∃ typed : TypedValues, typed[0]? = some (.boolean true) ∧
    ∀ store ∈ [grid, { grid with typed }], ∃ f',
      (Factory.drive { strategy := .describe } (fun _ => failure) 0 {}
        (resolveArgument 9 >>= pure)).run { bench := { store } } =
          some (.ready (.ok (.arr [.arr [.int 1, .int 2], .arr [.int 1]])), f') := by
  refine ⟨(∅ : TypedValues).insert 0 (.boolean true), rfl, fun store hstore => ?_⟩
  have hbinds : store.graph.BindsNesting 9 ⟨"ex:grid", .arrays 2 (.type Xsd.integer)⟩ gridValue := by
    rcases List.mem_pair.mp hstore with rfl | rfl
    · exact bindsNesting_grid
    · exact bindsNesting_grid
  obtain ⟨outcome, -, harrays, hdrive⟩ :=
    arguments_independent (f := { bench := { store := grid } }) (by decide) bindsNesting_grid
  rw [hdrive _ _ _ _ _ { bench := { store } } hbinds]
  obtain ⟨hok, hreads⟩ := harrays 2 Xsd.integer .integer rfl (by decide)
    (by simp [gridValue, Nesting.Uniform])
  obtain ⟨j, rfl⟩ := hok.mpr (by decide +kernel)
  obtain ⟨leaf, rfl, hleaf⟩ := hreads j rfl
  have hinteger : ∀ l ∈ gridValue.leaves, ∃ v,
      Primitive.integer.coerce l.2.value = some (some v) ∧ leaf l.1 = v.toJson := by
    simpa using hleaf
  have hone : leaf 0 = .int 1 := by
    obtain ⟨v, hv, hone⟩ := hinteger (0, .literal "1" Xsd.string) (by decide)
    cases hv
    exact hone
  have htwo : leaf 1 = .int 2 := by
    obtain ⟨v, hv, htwo⟩ := hinteger (1, .literal "2" Xsd.string) (by decide)
    cases hv
    exact htwo
  simp only [gridValue, Nesting.json, Nesting.jsonEach, hone, htwo]
  exact ⟨_, rfl⟩

end Describe

end Wiring

import Wiring.Graph.Index
import Wiring.Proofs.Persistence

/-!
# Integrity of graphs

What holds of every graph that updates have made, those included that have been refused half-way:

- `Graph.Sound`: links connect nodes, nodes are found again by kind and value unless they are
  literals, and literals are the nodes with a datatype;
- `Graph.find?_eq_some`: looking for a kind and a value finds the one node that has them;
- `Range.lowerWithin_known`: nothing that a range refers to is missing;
- `Graph.Indexed.Mirrors.apply`: a graph with an index comes to the same outcomes as one without, and
  its index finds exactly the same nodes.

`Graph.integrity` is all of this for any sequence of updates.
-/

namespace Wiring

namespace Graph

variable {g g' : Graph}

/-! ## Sequences of updates -/

theorem applyAll_append (g : Graph) (us vs : List Update) :
    g.applyAll (us ++ vs) = (g.applyAll us).applyAll vs :=
  List.foldl_append

/-- Sequences of updates keep what updates keep. -/
theorem applyAll_keeps {K : Graph → Prop} (apply : ∀ {g}, K g → ∀ u, K (g.apply u).2) (h : K g)
    (us : List Update) : K (g.applyAll us) := by
  induction us generalizing g with
  | nil => exact h
  | cons u us ih => exact ih (apply h u)

/-! ## Sound graphs -/

/-- Links connect nodes, no two nodes have one kind and value unless they are literals, and a node has
a datatype if and only if it is a literal. -/
structure Sound (g : Graph) : Prop where
  closed : g.Closed
  distinct : g.Distinct
  datatype : ∀ {id t}, g.term? id = some t → (t.datatype.isSome ↔ t.kind = .literal)

theorem sound_empty : Sound {} where
  closed l hl := by simp at hl
  distinct := distinct_empty
  datatype h := nomatch h

/-- A pushed node has a datatype if and only if it is a literal. -/
theorem datatype_push {t : Term} (ht : t.datatype.isSome ↔ t.kind = .literal)
    (h : ∀ {id u}, g.term? id = some u → (u.datatype.isSome ↔ u.kind = .literal)) {id : NodeId}
    {u : Term} (hu : (g.push t).2.term? id = some u) : u.datatype.isSome ↔ u.kind = .literal := by
  rw [term?_push] at hu
  split at hu
  · cases hu
    exact ht
  · exact h hu

theorem Sound.apply (h : g.Sound) (u : Update) : (g.apply u).2.Sound where
  closed := (extends_apply g u).2 h.closed
  distinct := h.distinct.apply u
  datatype := by
    refine apply_keeps (K := fun g => ∀ {id t}, g.term? id = some t →
      (t.datatype.isSome ↔ t.kind = .literal)) ?_ ?_ ?_ ?_ ?_ h.datatype u
    · intro g kind hkind hg value
      rw [intern]
      cases g.find? kind value with
      | some found => exact hg
      | none => exact fun ht => datatype_push (by rcases hkind with rfl | rfl <;> simp) hg ht
    · intro g hg id t ht
      exact datatype_push (g := { g with labels := g.labels + 1 }) (by simp) hg ht
    · intro g hg id t ht
      exact datatype_push (g := { g with labels := g.labels + 1 }) (by simp) hg ht
    · intro g hg text datatype id t ht
      exact datatype_push (by simp [Term.literal]) hg ht
    · rintro g g' s l o hl hg id t ht
      obtain ⟨-, -, rfl⟩ := link?_eq_some hl
      exact hg ht

theorem Sound.applyAll (h : g.Sound) (us : List Update) : (g.applyAll us).Sound :=
  applyAll_keeps (fun hg u => hg.apply u) h us

/-! ## Finding nodes -/

/-- **A node is found by its kind and value**, if it is not a literal. -/
theorem find?_eq_some (h : g.Distinct) {kind : Kind} {value : String} {id : NodeId} :
    g.find? kind value = some id ↔
      kind ≠ .literal ∧ ∃ t, g.term? id = some t ∧ t.kind = kind ∧ t.value = value := by
  have hfound : ∀ {id}, g.find? kind value = some id →
      kind ≠ .literal ∧ ∃ t, g.term? id = some t ∧ t.kind = kind ∧ t.value = value := by
    intro id hid
    rw [find?] at hid
    split at hid
    · cases hid
    · rename_i hkind
      obtain ⟨hlt, ht, -⟩ := Array.findIdx?_eq_some_iff_getElem.mp hid
      exact ⟨hkind, _, Array.getElem?_eq_getElem hlt, of_decide_eq_true ht⟩
  constructor
  · exact hfound
  · rintro ⟨hkind, t, ht, htkind, htvalue⟩
    cases hfind : g.find? kind value with
    | none =>
      rw [find?, if_neg hkind, Array.findIdx?_eq_none_iff] at hfind
      obtain ⟨hlt, rfl⟩ := Array.getElem?_eq_some_iff.mp ht
      exact absurd ⟨htkind, htvalue⟩ (of_decide_eq_false (hfind _ (Array.getElem_mem hlt)))
    | some other =>
      obtain ⟨-, u, hu, hukind, huvalue⟩ := hfound hfind
      rw [h.unique hu ht (hukind.trans htkind.symm) (hukind ▸ hkind) (huvalue.trans htvalue.symm)]

/-- A new node is found by its kind and value. -/
theorem find?_push_self {t : Term} (h : (g.push t).2.Distinct) (hkind : t.kind ≠ .literal) :
    (g.push t).2.find? t.kind t.value = some g.size :=
  (find?_eq_some h).mpr ⟨hkind, t, by rw [term?_push, if_pos rfl], rfl, rfl⟩

/-- A new node does not change what is found by other kinds and values. -/
theorem find?_push_of_ne {t : Term} {kind : Kind} {value : String}
    (hne : (t.kind, t.value) ≠ (kind, value)) :
    (g.push t).2.find? kind value = g.find? kind value := by
  have ht : ¬ (t.kind = kind ∧ t.value = value) := fun h => hne (by rw [h.1, h.2])
  simp [find?, push, Array.findIdx?_push, ht]

/-- Linking items adds no node. -/
theorem nodes_linkItems (g : Graph) (list : NodeId) (position : Nat) (items : List NodeId) :
    (g.linkItems list position items).2.nodes = g.nodes := by
  induction items generalizing g position with
  | nil => rfl
  | cons item rest ih =>
    rw [linkItems]
    cases hl : g.link? list (.item (UInt32.ofNat position)) item with
    | none => rfl
    | some g' =>
      obtain ⟨-, -, rfl⟩ := link?_eq_some hl
      exact ih _ _

/-! ## Graphs with an index -/

namespace Indexed

/-- A graph with an index stands for a graph without: its index finds the same nodes. -/
structure Mirrors (x : Indexed) (g : Graph) : Prop where
  graph : x.graph = g
  find : ∀ kind value, x.find? kind value = g.find? kind value

variable {x : Indexed}

theorem mirrors_empty : Mirrors {} {} where
  graph := rfl
  find kind value := by simp [find?, Graph.find?]

/-- A node that is entered when it is created is found like all others. -/
theorem Mirrors.push (h : x.Mirrors g) {t : Term} (hdistinct : (g.push t).2.Distinct)
    (hkind : t.kind ≠ .literal) :
    Mirrors { graph := (g.push t).2, index := x.index.insert (t.kind, t.value) g.size }
      (g.push t).2 where
  graph := rfl
  find kind value := by
    rw [find?, Std.HashMap.getElem?_insert]
    split
    · rename_i hkey
      cases eq_of_beq hkey
      exact (find?_push_self hdistinct hkind).symm
    · rename_i hkey
      rw [find?_push_of_ne fun hcon => hkey (by rw [hcon]; exact beq_self_eq_true _)]
      exact h.find kind value

theorem Mirrors.intern (h : x.Mirrors g) (hg : g.Distinct) {kind : Kind} (hkind : kind ≠ .literal)
    (hletter : kind.letter? = none) (value : String) :
    (x.intern kind value).1 = (g.intern kind value).1 ∧
      (x.intern kind value).2.Mirrors (g.intern kind value).2 := by
  have hdistinct := hg.intern hkind hletter value
  obtain rfl := h.graph
  rw [Graph.intern] at hdistinct ⊢
  rw [Indexed.intern, h.find]
  cases hfind : x.graph.find? kind value with
  | some id => exact ⟨rfl, h⟩
  | none =>
    rw [hfind] at hdistinct
    exact ⟨rfl, h.push hdistinct hkind⟩

theorem Mirrors.pushLabelled (h : x.Mirrors g) (hg : g.Distinct) {kind : Kind} {letter : String}
    (hletter : kind.letter? = some letter) :
    (x.pushLabelled kind letter).1 = (g.pushLabelled kind letter).1 ∧
      (x.pushLabelled kind letter).2.Mirrors (g.pushLabelled kind letter).2 := by
  have hkind : kind ≠ .literal := fun hcon => by simp [hcon, Kind.letter?] at hletter
  have hdistinct := hg.pushLabelled hletter
  obtain rfl := h.graph
  have hcount : Mirrors { x with graph := { x.graph with labels := x.graph.labels + 1 } }
      { x.graph with labels := x.graph.labels + 1 } := ⟨rfl, h.find⟩
  exact ⟨rfl, hcount.push hdistinct hkind⟩

/-- Literals are not looked for. -/
theorem Mirrors.pushLiteral (h : x.Mirrors g) (text datatype : String) :
    Mirrors { x with graph := (g.push (.literal text datatype)).2 }
      (g.push (.literal text datatype)).2 where
  graph := rfl
  find kind value := by
    refine (h.find kind value).trans ?_
    by_cases hkind : kind = .literal
    · rw [hkind, find?_literal, find?_literal]
    · exact (find?_push_of_ne fun hcon => hkind (congrArg Prod.fst hcon).symm).symm

/-- Links do not concern the index. -/
theorem Mirrors.links (h : x.Mirrors g) (hnodes : g'.nodes = g.nodes) :
    Mirrors { x with graph := g' } g' where
  graph := rfl
  find kind value := by
    rw [Graph.find?, hnodes]
    exact h.find kind value

/-- **An index changes nothing.** An update of a graph with an index comes to the same outcome as
without, and the index finds the same nodes afterwards. -/
theorem Mirrors.apply (h : x.Mirrors g) (hg : g.Distinct) (u : Update) :
    (x.apply u).1 = (g.apply u).1 ∧ (x.apply u).2.Mirrors (g.apply u).2 := by
  cases u with
  | named iri =>
    obtain ⟨hid, hx⟩ := h.intern hg (by decide : Kind.named ≠ .literal) rfl iri
    exact ⟨congrArg Outcome.node hid, hx⟩
  | placeholder name =>
    obtain ⟨hid, hx⟩ := h.intern hg (by decide : Kind.placeholder ≠ .literal) rfl name
    exact ⟨congrArg Outcome.node hid, hx⟩
  | blank =>
    obtain ⟨hid, hx⟩ := h.pushLabelled hg (rfl : Kind.letter? .blank = some "b")
    exact ⟨congrArg Outcome.node hid, hx⟩
  | literal text =>
    obtain rfl := h.graph
    exact ⟨rfl, h.pushLiteral text _⟩
  | typedLiteral text datatype =>
    obtain rfl := h.graph
    exact ⟨rfl, h.pushLiteral text datatype⟩
  | list items =>
    obtain ⟨hid, hx⟩ := h.pushLabelled hg (rfl : Kind.letter? .list = some "l")
    simp only [Indexed.apply, Graph.apply, hid, hx.graph, true_and]
    exact hx.links (nodes_linkItems _ _ _ _)
  | addProperty subject predicate object =>
    obtain rfl := h.graph
    simp only [Indexed.apply, Graph.apply]
    cases hl : x.graph.addProperty? subject predicate object with
    | none => exact ⟨trivial, h⟩
    | some g' =>
      obtain ⟨-, -, rfl⟩ := link?_eq_some hl
      exact ⟨trivial, h.links rfl⟩
  | addType subject iri =>
    obtain ⟨hid, hx⟩ := h.intern hg (by decide : Kind.named ≠ .literal) rfl iri
    simp only [Indexed.apply, Graph.apply, hid, hx.graph]
    cases hl : (g.intern .named iri).2.addProperty? subject Rdf.type (g.intern .named iri).1 with
    | none => exact ⟨rfl, hx⟩
    | some g' =>
      obtain ⟨-, -, rfl⟩ := link?_eq_some hl
      exact ⟨rfl, hx.links rfl⟩

theorem Mirrors.applyAll (h : x.Mirrors g) (hg : g.Distinct) (us : List Update) :
    (x.applyAll us).Mirrors (g.applyAll us) := by
  induction us generalizing x g with
  | nil => exact h
  | cons u us ih => exact ih (h.apply hg u).2 (hg.apply u)

end Indexed

end Graph

/-! ## Nothing that a range refers to is missing -/

namespace Range

variable {g : Graph} {α β : Type}

theorem error_of_map {a : Lowered α} {f : α → β} {e : Range.Error}
    (h : (f <$> a).run = some (.error e)) : a.run = some (.error e) := by
  match a with
  | some (.ok x) => cases h
  | some (.error x) =>
    cases h
    rfl

/-- The error of several resources is that of one of them. -/
theorem error_of_mapM {next : NodeId → Lowered α} {ids : List NodeId} {e : Range.Error}
    (h : (ids.mapM next).run = some (.error e)) : ∃ id ∈ ids, (next id).run = some (.error e) := by
  induction ids with
  | nil => cases h
  | cons id ids ih =>
    rw [List.mapM_cons, ExceptT.run_bind] at h
    obtain ⟨head, hhead, h⟩ := Option.bind_eq_some_iff.mp h
    cases head with
    | error x =>
      cases h
      exact ⟨id, List.mem_cons_self, hhead⟩
    | ok a =>
      obtain ⟨other, hother, h⟩ := ih (error_of_map (f := (a :: ·)) h)
      exact ⟨other, List.mem_cons_of_mem _ hother, h⟩

/-- **Nothing is missing.** Lowering a node of a closed graph never comes to a node that does not
exist. -/
theorem lowerWithin_known (hclosed : g.Closed) {limit : Nat} {id : NodeId} (hid : id < g.size)
    (missing : NodeId) : (lowerWithin g limit id).run ≠ some (.error (.unknownRange missing)) := by
  induction limit generalizing id with
  | zero => exact fun h => nomatch h
  | succ limit ih =>
    have hpart : ∀ part ∈ g.rangeParts id,
        (lowerWithin g limit part).run ≠ some (.error (.unknownRange missing)) :=
      fun part hmem => ih (Graph.Wraps.lt_size hclosed hmem).2
    have hvalue : g.rangeParts id = (g.property? id Components.parameterRangeValue).toList →
        ∀ t, (lowerValue g (lowerWithin g limit) id t).run ≠
          some (.error (.unknownRange missing)) := by
      intro hparts t h
      rw [lowerValue] at h
      split at h
      · cases h
      · rename_i value hvalue
        exact hpart value (by rw [hparts, hvalue]; exact List.mem_singleton_self value) h
    have helements : g.rangeParts id = g.rangeElements id →
        (lowerElements g (lowerWithin g limit) id).run ≠ some (.error (.unknownRange missing)) := by
      intro hparts h
      obtain ⟨part, hmem, h⟩ := error_of_mapM h
      exact hpart part (hparts ▸ hmem) h
    intro h
    obtain ⟨t, ht⟩ := Option.isSome_iff_exists.mp (Graph.term?_isSome.mpr hid)
    rw [lowerWithin, ht] at h
    dsimp only at h
    split at h
    · cases h
    · cases h
    · rename_i hshape
      exact hvalue (by rw [Graph.rangeParts, hshape]) t (error_of_map h)
    · rename_i hshape
      exact hvalue (by rw [Graph.rangeParts, hshape]) t (error_of_map h)
    · rename_i hshape
      exact helements (by rw [Graph.rangeParts, hshape]) (error_of_map h)
    · rename_i hshape
      exact helements (by rw [Graph.rangeParts, hshape]) (error_of_map h)
    · rename_i hshape
      exact helements (by rw [Graph.rangeParts, hshape]) (error_of_map h)
    · rw [lowerLiteral] at h
      split at h <;> cases h
    · cases h

end Range

/-! ## All sequences of updates -/

/-- **The integrity of graphs.** Whatever updates have made a graph, refused ones included, and whatever
updates come after: both ends of each link exist, so the nodes that are read as properties or as items
exist, and lowering a node never comes to a missing one. What is found by a kind and a value is the node
that has them, and literals are not found; so other nodes differ in kind or value. Later on, every node
still has its term, and all links are there, in order. And a graph that finds nodes through an index,
from the beginning, is the same graph and finds the same nodes, and the next update comes to the same
outcome. -/
theorem Graph.integrity (us : List Update) :
    let g := Graph.applyAll {} us
    let x := Indexed.applyAll {} us
    (∀ l ∈ g.links, l.source < g.size ∧ l.target < g.size) ∧
    (∀ id p, ∀ o ∈ g.properties id p, o < g.size) ∧
    (∀ id p o, g.property? id p = some o → o < g.size) ∧
    (∀ id items, g.listItems? id = some items → ∀ item ∈ items, item < g.size) ∧
    (∀ id missing, id < g.size →
      (Range.lower g id).run ≠ some (.error (.unknownRange missing))) ∧
    (∀ kind value id, g.find? kind value = some id ↔
      kind ≠ .literal ∧ ∃ t, g.term? id = some t ∧ t.kind = kind ∧ t.value = value) ∧
    (∀ value, g.find? .literal value = none) ∧
    (∀ id id' t t', g.term? id = some t → g.term? id' = some t' → t.kind ≠ .literal →
      t.kind = t'.kind → t.value = t'.value → id = id') ∧
    (∀ vs, (∀ id t, g.term? id = some t → (g.applyAll vs).term? id = some t) ∧
      g.links.toList <+: (g.applyAll vs).links.toList) ∧
    x.graph = g ∧ (∀ kind value, x.find? kind value = g.find? kind value) ∧
    ∀ u, (x.apply u).1 = (g.apply u).1 := by
  intro g x
  have hsound : g.Sound := Graph.sound_empty.applyAll us
  have hmirrors : x.Mirrors g := Indexed.mirrors_empty.applyAll Graph.distinct_empty us
  have hlater : ∀ vs, g.Precedes (g.applyAll vs) :=
    fun vs => applyAll_keeps (fun h u => h.apply u) (.refl g) vs
  refine ⟨hsound.closed, fun _ _ _ => hsound.closed.target_lt,
    fun _ _ _ h => hsound.closed.target_lt (List.mem_of_mem_head? h),
    fun _ items hitems _ hitem => Graph.HasItem.lt_size hsound.closed ⟨items, hitems, hitem⟩,
    fun _ missing hid => Range.lowerWithin_known hsound.closed hid missing,
    fun _ _ _ => find?_eq_some hsound.distinct, find?_literal g, ?_, ?_, hmirrors.graph,
    hmirrors.find, fun u => (hmirrors.apply hsound.distinct u).1⟩
  · intro id id' t t' ht ht' hliteral hkind hvalue
    exact hsound.distinct.unique ht ht' hkind hliteral hvalue
  · intro vs
    obtain ⟨added, hlinks, -⟩ := (hlater vs).links
    exact ⟨(hlater vs).term, added, hlinks.symm⟩

/-- A list that is refused at its second item has been created, with the first one, and is found. -/
example :
    let g := Graph.applyAll {} [.literal "1", .list [0, 7], .addType 7 "ex:T"]
    g.listItems? 1 = some [0] ∧ g.find? .list "_:l1" = some 1 ∧ g.find? .named "ex:T" = some 2 ∧
      g.find? .literal "1" = none := by
  decide +kernel

end Wiring

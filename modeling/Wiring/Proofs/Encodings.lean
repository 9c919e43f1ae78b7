import Wiring.Proofs.Resources
import Wiring.Proofs.Shown

/-!
# Lowering undoes writing

A range that has been written into a graph is read from its root again, whatever the graph has held
before and whatever happens to other nodes later on.

- `Writing.Completes`: what all writing does to a graph, however much is written.
- `Writing.Completes.describe`: a resource comes after what it is linked to, and spares it.
- `Range.shows_encode`: so writing shows the range, by induction on it.

`Range.lower_encode` puts this together for all graphs that updates make.
-/

namespace Wiring

/-! ## What has been written -/

namespace Writing

variable {α : Type} {g : Graph}

/-- A writing leaves the nodes of a graph alone, its resources exist, and it adds at least as many nodes
as what is written is deep, less one: a type may have its node already. -/
structure Completes (w : Writing α) (g : Graph) (depth : Nat) : Prop where
  grows : g.Grows (w.after g)
  resources : ∀ id ∈ w.resources, id < (w.after g).size
  size : g.size + depth ≤ (w.after g).size + 1

/-- Nothing has been written. -/
theorem completes_nothing (result : α) (g : Graph) : Completes ⟨[], [], result⟩ g 0 where
  grows := .refl g
  resources _ hid := nomatch hid
  size := Nat.le_succ g.size

/-- The named node of an IRI is there. -/
theorem completes_named (hg : g.Sound) (iri : String) :
    (named iri g).Completes g 1 ∧
      ∃ t, ((named iri g).after g).term? (named iri g).result = some t ∧ t.kind = .named ∧
        t.value = iri := by
  have hafter : (named iri g).after g = (g.intern .named iri).2 := rfl
  constructor
  · refine ⟨?_, fun _ hid => (nomatch hid), ?_⟩
    · rw [hafter]
      exact (Graph.Grows.refl g).intern .named iri
    · rw [hafter]
      exact Nat.succ_le_succ (Graph.extends_intern g .named iri).1.size_le
  · rw [hafter]
    exact Graph.term?_intern hg.distinct .named iri

/-- A node of a term is there. -/
theorem completes_term (hg : g.Sound) (style : Style) {t : Term}
    (ht : (Range.literal t).isWritable = true) :
    (term style t g).Completes g 0 ∧
      ((term style t g).after g).term? (term style t g).result = some t := by
  match t with
  | ⟨.named, iri, none⟩ =>
    obtain ⟨h, t, hterm, hkind, hvalue⟩ := completes_named hg iri
    refine ⟨⟨h.grows, h.resources, ?_⟩, ?_⟩
    · have := h.grows.term.size_le
      exact Nat.le_succ_of_le this
    · -- named nodes have no datatype
      have hdatatype : t.datatype = none := by
        have hiff := (hg.applyAll [.named iri]).datatype hterm
        rw [hkind] at hiff
        rw [← Option.not_isSome_iff_eq_none, hiff]
        simp
      obtain ⟨kind, value, datatype⟩ := t
      cases hkind
      cases hvalue
      cases hdatatype
      exact hterm
  | ⟨.literal, text, some datatype⟩ =>
    rw [term]
    split
    · rename_i id hid
      obtain ⟨-, hterm⟩ := Option.filter_eq_some_iff.mp hid
      exact ⟨completes_nothing id g, of_decide_eq_true hterm⟩
    · have hpush := (Graph.Grows.refl g).push (.literal text datatype)
      refine ⟨⟨hpush, fun _ hid => (nomatch hid), Nat.le_succ_of_le hpush.term.size_le⟩, ?_⟩
      exact (Graph.term?_push g _ _).trans (if_pos rfl)

variable {w : Writing (List NodeId)} {depth : Nat}

/-- **What is written next** spares what has been written before. -/
theorem Completes.cons {first : Writing NodeId} {rest : Writing (List NodeId)} {r : Range}
    {rs : List Range} {depth' : Nat} (h : first.Completes g depth) (hg : (first.after g).Sound)
    (hshows : (first.after g).Shows first.resources r first.result)
    (hrest : rest.Completes (first.after g) depth')
    (heach : (rest.after (first.after g)).ShowsEach rest.resources rs rest.result) :
    let v : Writing (List NodeId) := ⟨first.updates ++ rest.updates,
      first.resources ++ rest.resources, first.result :: rest.result⟩
    v.Completes g (max depth depth') ∧ (v.after g).ShowsEach v.resources (r :: rs) v.result := by
  intro v
  let g₁ := first.after g
  have hafter : v.after g = rest.after g₁ := Graph.applyAll_append g first.updates rest.updates
  have hle : g₁.size ≤ (rest.after g₁).size := hrest.grows.term.size_le
  have hprecedes : g₁.Precedes (rest.after g₁) := (Graph.Precedes.refl g₁).applyAll _
  have hspares : g₁.Spares first.resources (rest.after g₁) :=
    .of_grows hprecedes hrest.grows h.resources
  rw [hafter]
  refine ⟨⟨?_, fun id hid => ?_, ?_⟩, first.result, rest.result, rfl, ?_, ?_⟩
  · rw [hafter]
    exact h.grows.trans hrest.grows
  · rw [hafter]
    rcases List.mem_append.mp hid with hid | hid
    · exact Nat.lt_of_lt_of_le (h.resources id hid) hle
    · exact hrest.resources id hid
  · rw [hafter]
    have hfirst : g.size ≤ g₁.size := h.grows.term.size_le
    have hsize : g.size + depth ≤ g₁.size + 1 := h.size
    have hsize' : g₁.size + depth' ≤ (rest.after g₁).size + 1 := hrest.size
    omega
  · exact hshows.later hspares hg.closed (List.subset_append_left _ _)
  · exact heach.later (.refl _ _) (hg.applyAll _).closed (List.subset_append_right _ _)

/-- **A resource comes after what it is linked to**, and spares it. -/
theorem Completes.describe (h : w.Completes g depth) (hg : g.Sound) {p : String}
    (hp : Rdf.type ≠ p) (hvalues : ∀ value ∈ w.result, value < (w.after g).size) (s : Shape) :
    let v := w.describe s p g
    v.Completes g (depth + 1) ∧ (v.after g).IsResource v.resources s v.result ∧
      (v.after g).properties v.result p = w.result ∧
      (w.after g).Spares w.resources (v.after g) := by
  intro v
  let g₁ := w.after g
  have hafter : v.after g = g₁.applyAll (resourceUpdates s p g₁.size w.result) :=
    Graph.applyAll_append g w.updates _
  obtain ⟨hgrows, hsize, hkind, hshape, hproperties⟩ :=
    Graph.applyAll_resource (hg.applyAll w.updates) hp hvalues (s := s)
  rw [show g.applyAll w.updates = g₁ from rfl, ← hafter] at hgrows hsize hkind hshape hproperties
  have hprecedes : g₁.Precedes (v.after g) := by
    rw [hafter]
    exact (Graph.Precedes.refl g₁).applyAll _
  refine ⟨⟨h.grows.trans hgrows, fun id hid => ?_, ?_⟩, ⟨?_, hkind, hshape⟩, hproperties, ?_⟩
  · rcases List.mem_append.mp hid with hid | hid
    · exact Nat.lt_trans (h.resources id hid) hsize
    · cases List.mem_singleton.mp hid
      exact hsize
  · have hlt : g₁.size < (v.after g).size := hsize
    have hle : g.size + depth ≤ g₁.size + 1 := h.size
    show g.size + (depth + 1) ≤ (v.after g).size + 1
    omega
  · exact List.mem_append_right _ (List.mem_singleton_self _)
  · exact .of_grows hprecedes hgrows h.resources

/-- A resource wraps a node that has been written. -/
theorem Completes.wrap {w : Writing NodeId} (h : w.Completes g depth) (hg : g.Sound)
    (hresult : w.result < (w.after g).size) (s : Shape) :
    let v := w.single.wrap s g
    v.Completes g (depth + 1) ∧ (v.after g).IsResource v.resources s v.result ∧
      (v.after g).property? v.result Components.parameterRangeValue = some w.result ∧
      (w.after g).Spares w.resources (v.after g) := by
  intro v
  have hsingle : w.single.Completes g depth := ⟨h.grows, h.resources, h.size⟩
  have hvalues : ∀ value ∈ w.single.result, value < (w.single.after g).size := by
    intro value hvalue
    cases List.mem_singleton.mp hvalue
    exact hresult
  obtain ⟨hv, hresource, hproperties, hspares⟩ :=
    hsingle.describe hg (p := Components.parameterRangeValue) (by decide +kernel) hvalues s
  refine ⟨hv, hresource, ?_, hspares⟩
  rw [Graph.property?]
  exact congrArg List.head? hproperties

/-- A resource wraps a range. -/
theorem Completes.wrapRange {w : Writing NodeId} {r : Range} (h : w.Completes g depth)
    (hg : g.Sound) (hshows : (w.after g).Shows w.resources r w.result) (s : Shape) :
    let v := w.single.wrap s g
    v.Completes g (depth + 1) ∧ (v.after g).IsResource v.resources s v.result ∧
      ∃ part, (v.after g).property? v.result Components.parameterRangeValue = some part ∧
        (v.after g).Shows v.resources r part := by
  obtain ⟨hv, hresource, hproperty, hspares⟩ := h.wrap hg hshows.lt_size s
  refine ⟨hv, hresource, w.result, hproperty, ?_⟩
  exact hshows.later hspares (hg.applyAll w.updates).closed (List.subset_append_left _ _)

/-- Members that show ranges, arranged so that a resource with these values has them. -/
structure Arranges (v : Writing (List NodeId)) (g : Graph) (depth : Nat) (rs : List Range)
    (members : List NodeId) : Prop where
  completes : v.Completes g depth
  shows : (v.after g).ShowsEach v.resources rs members
  values : ∀ value ∈ v.result, value < (v.after g).size
  read : ∀ {g' : Graph} {id : NodeId}, (v.after g).Precedes g' →
    g'.properties id Components.parameterRangeElements = v.result → g'.rangeElements id = members

variable {rs : List Range}

/-- Members are read as they are: a single one is no list. -/
theorem Completes.values (h : w.Completes g depth)
    (hshows : (w.after g).ShowsEach w.resources rs w.result) : w.Arranges g depth rs w.result where
  completes := h
  shows := hshows
  values value hvalue := by
    obtain ⟨r, hr⟩ := hshows.exists_shows value hvalue
    exact hr.lt_size
  read {g' id} hprecedes hproperties := by
    rw [Graph.rangeElements, hproperties]
    split
    · rename_i single hsingle
      obtain ⟨r, hr⟩ := hshows.exists_shows single (by rw [hsingle]; exact List.mem_cons_self)
      rw [hprecedes.listItems? hr.lt_size, hr.listItems?, hsingle]
      rfl
    · rfl

/-- Members are read as the items of a list. -/
theorem Completes.list (h : w.Completes g depth) (hg : g.Sound)
    (hshows : (w.after g).ShowsEach w.resources rs w.result)
    (hfits : w.result.length ≤ UInt32.size) :
    Arranges { w with updates := w.updates ++ [.list w.result], result := [(w.after g).size] } g depth
      rs w.result := by
  let g₁ := w.after g
  let g₂ := (g₁.apply (.list w.result)).2
  have hafter : g.applyAll (w.updates ++ [.list w.result]) = g₂ :=
    Graph.applyAll_append g w.updates _
  have hsound : g₁.Sound := hg.applyAll w.updates
  have hgrows : g₁.Grows g₂ := (Graph.Grows.refl g₁).apply fun _ hsubject => nomatch hsubject
  have hitems : g₂.listItems? g₁.size = some w.result :=
    Graph.listItems?_apply_list_of_lt hsound.closed (h.values hshows).values hfits
  have hlist : g₁.size < g₂.size := Graph.lt_size_of_listItems? hitems
  have hspares : g₁.Spares w.resources g₂ :=
    .of_grows ((Graph.Precedes.refl g₁).apply _) hgrows h.resources
  rw [← hafter] at hgrows hitems hlist hspares
  constructor
  · refine ⟨h.grows.trans hgrows, fun id hid => Nat.lt_trans (h.resources id hid) hlist, ?_⟩
    exact Nat.le_trans h.size (Nat.succ_le_succ (Nat.le_of_lt hlist))
  · exact hshows.later hspares hsound.closed (List.Subset.refl _)
  · intro value hvalue
    cases List.mem_singleton.mp hvalue
    exact hlist
  · intro g' id hprecedes hproperties
    rw [Graph.rangeElements, hproperties]
    show (g'.listItems? g₁.size).getD [g₁.size] = _
    rw [hprecedes.listItems? hlist]
    exact congrArg (fun items => items.getD [g₁.size]) hitems

/-- However members are arranged, they are read as members again. -/
theorem Completes.arrange (h : w.Completes g depth) (hg : g.Sound)
    (hshows : (w.after g).ShowsEach w.resources rs w.result) (layout : Graph → Layout) :
    (w.arrange layout g).Arranges g depth rs w.result := by
  rw [Writing.arrange]
  split
  · rename_i hlist
    exact h.list hg hshows hlist.2
  · exact h.values hshows

/-- A resource has the members that have been written before it. -/
theorem Completes.compose (h : w.Completes g depth) (hg : g.Sound)
    (hshows : (w.after g).ShowsEach w.resources rs w.result) (style : Style) (s : Shape) :
    let v := w.compose style s g
    v.Completes g (depth + 1) ∧ (v.after g).IsResource v.resources s v.result ∧
      (v.after g).ShowsEach v.resources rs ((v.after g).rangeElements v.result) := by
  intro v
  have harranges := h.arrange hg hshows style.layout
  obtain ⟨hv, hresource, hproperties, hspares⟩ :=
    harranges.completes.describe hg (p := Components.parameterRangeElements) (by decide +kernel)
      harranges.values s
  have hmembers : (v.after g).rangeElements v.result = w.result :=
    harranges.read hspares.precedes hproperties
  refine ⟨hv, hresource, ?_⟩
  rw [hmembers]
  exact harranges.shows.later hspares (hg.applyAll _).closed (List.subset_append_left _ _)

end Writing

namespace Range

open Writing

mutual

/-- **Writing shows the range** that has been written. -/
theorem shows_encode (style : Style) : ∀ {r : Range} {g : Graph}, g.Sound →
    r.isWritable = true →
    (r.encode style g).Completes g r.depth ∧
      ((r.encode style g).after g).Shows (r.encode style g).resources r (r.encode style g).result
  | .any, _, _, hwritable => nomatch hwritable
  | .type iri, g, hg, _ => by
    obtain ⟨h, t, ht, hkind, hvalue⟩ := completes_named hg iri
    refine ⟨⟨h.grows, fun id hid => ?_, h.size⟩, List.mem_singleton_self _, ?_, ?_⟩
    · cases List.mem_singleton.mp hid
      exact Graph.term?_isSome.mp (Option.isSome_of_eq_some ht)
    · exact Option.map_eq_some_iff.mpr ⟨t, ht, hkind⟩
    · exact Option.map_eq_some_iff.mpr ⟨t, ht, hvalue⟩
  | .undefined, g, hg, _ => by
    obtain ⟨h, hresource, -⟩ := (completes_nothing [] g).describe hg
      (p := Components.parameterRangeValue) (by decide +kernel) (fun _ hvalue => nomatch hvalue)
      .undefined
    exact ⟨h, hresource⟩
  | .collectEntries, g, hg, _ => by
    obtain ⟨h, hresource, -⟩ := (completes_nothing [] g).describe hg
      (p := Components.parameterRangeValue) (by decide +kernel) (fun _ hvalue => nomatch hvalue)
      .collectEntries
    exact ⟨h, hresource⟩
  | .literal t, g, hg, hwritable => by
    obtain ⟨h, hterm⟩ := completes_term hg style hwritable
    have hresult := Graph.term?_isSome.mp (Option.isSome_of_eq_some hterm)
    obtain ⟨hv, hresource, hproperty, hspares⟩ := h.wrap hg hresult .literal
    refine ⟨hv, hresource, ?_⟩
    exact Option.bind_eq_some_iff.mpr ⟨_, hproperty, hspares.precedes.term _ t hterm⟩
  | .array element, g, hg, hwritable => by
    have helement : element.isWritable = true := hwritable
    obtain ⟨h, hshows⟩ := shows_encode style hg helement
    exact h.wrapRange hg hshows .array
  | .rest element, g, hg, hwritable => by
    have helement : element.isWritable = true := hwritable
    obtain ⟨h, hshows⟩ := shows_encode style hg helement
    exact h.wrapRange hg hshows .rest
  | .union options, g, hg, hwritable => by
    have heach : eachWritable options = true := hwritable
    obtain ⟨h, hshows⟩ := showsEach_encodeEach style hg heach
    exact h.compose hg hshows style .union
  | .intersection options, g, hg, hwritable => by
    have heach : eachWritable options = true := hwritable
    obtain ⟨h, hshows⟩ := showsEach_encodeEach style hg heach
    exact h.compose hg hshows style .intersection
  | .tuple entries, g, hg, hwritable => by
    have heach : eachWritable entries = true := hwritable
    obtain ⟨h, hshows⟩ := showsEach_encodeEach style hg heach
    exact h.compose hg hshows style .tuple

theorem showsEach_encodeEach (style : Style) : ∀ {rs : List Range} {g : Graph}, g.Sound →
    eachWritable rs = true →
    (encodeEach style rs g).Completes g (eachDepth rs) ∧
      ((encodeEach style rs g).after g).ShowsEach (encodeEach style rs g).resources rs
        (encodeEach style rs g).result
  | [], g, _, _ => ⟨completes_nothing [] g, rfl⟩
  | r :: rs, g, hg, hwritable => by
    rw [eachWritable, Bool.and_eq_true] at hwritable
    obtain ⟨hfirst, hshows⟩ := shows_encode style hg hwritable.1
    have hsound : ((r.encode style g).after g).Sound := hg.applyAll _
    obtain ⟨hrest, heach⟩ := showsEach_encodeEach style hsound hwritable.2
    exact hfirst.cons hsound hshows hrest heach

end

/-! ## All graphs -/

/-- **Lowering undoes writing.** Take any graph that updates have made, and write a range into it that
has no `any` and whose literal terms are named nodes or literals, each composite with its members in a
list or as repeated values. If no named node that stands for a type of the range is tagged as another
kind of range, then lowering the root gives the range: at once, and after any further updates that add
no link from the nodes that describe the range or its parts. So does a parameter whose first range is
the root. -/
theorem lower_encode (style : Style) (us : List Update) {r : Range}
    (hwritable : r.isWritable = true) :
    let g := Graph.applyAll {} us
    let w := r.encode style g
    let g' := w.after g
    (∀ id ∈ w.resources, g'.kind? id = some .named →
      ∀ tag ∈ Shape.tags, g'.isA id tag.1 = false) →
    ∀ vs, (∀ l ∈ (g'.applyAll vs).links.toList.drop g'.links.size, l.source ∉ w.resources) →
      (lower (g'.applyAll vs) w.result).run = some (.ok r) ∧
      ∀ parameter, (g'.applyAll vs).property? parameter Rdfs.range = some w.result →
        (Parameter.ofNode (g'.applyAll vs) parameter).run =
          some (.ok ⟨((g'.applyAll vs).value? parameter).getD "", r⟩) := by
  intro g w g' htags vs hlinks
  have hg : g.Sound := Graph.sound_empty.applyAll us
  have hg' : g'.Sound := hg.applyAll w.updates
  obtain ⟨hcompletes, hshows⟩ := shows_encode style hg hwritable
  have hprecedes : g'.Precedes (g'.applyAll vs) := (Graph.Precedes.refl g').applyAll vs
  have hspares : g'.Spares w.resources (g'.applyAll vs) := .of_links hprecedes hlinks
  have hplain : ∀ id ∈ w.resources, (g'.applyAll vs).kind? id = some .named →
      Shape.ofTypes ((g'.applyAll vs).types id) = none := by
    intro id hid hkind
    rw [hprecedes.kind? (hcompletes.resources id hid)] at hkind
    rw [hspares.types hg'.closed hid, Shape.ofTypes, Option.map_eq_none_iff, List.find?_eq_none]
    intro tag hmem
    exact Bool.eq_false_iff.mp (htags id hid hkind tag hmem)
  have hdepth : r.depth ≤ (g'.applyAll vs).size + 1 := by
    have hsize : g.size + r.depth ≤ g'.size + 1 := hcompletes.size
    have hlater : g'.size ≤ (g'.applyAll vs).size := hprecedes.term.size_le
    omega
  have hlower : lower (g'.applyAll vs) w.result = pure r :=
    lowerWithin_of_shows hplain (hshows.later hspares hg'.closed (List.Subset.refl _)) hdepth
  constructor
  · rw [hlower]
    rfl
  · intro parameter hparameter
    rw [Parameter.ofNode, hparameter]
    simp only [hlower, pure_bind]
    rfl

/-- Lists and repeated values in turn, and literals that are there already. -/
def alternating : Style where
  layout g := if g.size % 2 = 0 then .list else .values
  reuse? g t := g.nodes.findIdx? (· = t)

/-- Options of several shapes, one of them without members. -/
def mixedOptions : Range :=
  .union [.array (.type "ex:A"), .literal (.literal "on" Xsd.string),
    .tuple [.type "ex:A", .rest (.type Xsd.string)], .intersection [.undefined], .intersection []]

/-- The options are read again from a graph that has had one of their types and their literal, after a
parameter has been declared. -/
theorem lower_encode_mixedOptions :
    let g := Graph.applyAll {} [.named "ex:A", .literal "on", .addProperty 0 "ex:label" 1]
    let w := mixedOptions.encode alternating g
    let g' := w.after g
    let later := g'.applyAll [.named "ex:p", .addProperty g'.size Rdfs.range w.result]
    (lower later w.result).run = some (.ok mixedOptions) ∧
      (Parameter.ofNode later g'.size).run = some (.ok ⟨"ex:p", mixedOptions⟩) := by
  intro g w g' later
  have hwritable : mixedOptions.isWritable = true := by decide +kernel
  have h := lower_encode alternating [.named "ex:A", .literal "on", .addProperty 0 "ex:label" 1]
    hwritable (by decide +kernel)
    [.named "ex:p", .addProperty g'.size Rdfs.range w.result] (by decide +kernel)
  have hname : (later.value? g'.size).getD "" = "ex:p" := by decide +kernel
  refine ⟨h.1, ?_⟩
  rw [← hname]
  exact h.2 g'.size (by decide +kernel)

end Range

end Wiring

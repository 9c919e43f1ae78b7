import Mathlib.Data.List.Basic
import Mathlib.Tactic.ByContra
import Wiring.Factory.RawConfig

/-!
# Graphs only grow

Two relations between a graph and a later one. `Extends`: no node is lost or changed. `Grows`:
moreover the nodes that were there have the properties that they had. Updates extend a graph;
finding the raw form of a config grows it, since preprocessors link new nodes only.

A graph is *closed* if its links connect nodes of its own. All graphs that are built by updates
are: updates keep what their steps keep (`Graph.apply_keeps`).
-/

namespace Wiring.Graph

/-- Links connect existing nodes. -/
def Closed (g : Graph) : Prop := ∀ l ∈ g.links, l.source < g.size ∧ l.target < g.size

/-- The nodes of a graph are nodes of the later one. -/
def Extends (g g' : Graph) : Prop := ∀ id t, g.term? id = some t → g'.term? id = some t

/-- A later graph in which the earlier nodes have the same properties. -/
structure Grows (g g' : Graph) : Prop where
  term : g.Extends g'
  properties : ∀ {id}, id < g.size → ∀ p, g'.properties id p = g.properties id p
  closed : g.Closed → g'.Closed

variable {g g₁ g' : Graph}

/-! ## Reads of a later graph -/

theorem Extends.refl (g : Graph) : g.Extends g := fun _ _ h => h

theorem Extends.trans (h₁ : g.Extends g₁) (h₂ : g₁.Extends g') : g.Extends g' :=
  fun id t h => h₂ id t (h₁ id t h)

theorem Extends.size_le (h : g.Extends g') : g.size ≤ g'.size := by
  by_contra hlt
  obtain ⟨t, ht⟩ := Option.isSome_iff_exists.mp (term?_isSome.mpr (Nat.lt_of_not_le hlt))
  have := term?_isSome.mp (Option.isSome_of_eq_some (h _ t ht))
  exact Nat.lt_irrefl _ this

theorem Extends.value (h : g.Extends g') {id : NodeId} {key : String}
    (hv : g.value? id = some key) : g'.value? id = some key := by
  obtain ⟨t, ht, rfl⟩ := Option.map_eq_some_iff.mp hv
  exact Option.map_eq_some_iff.mpr ⟨t, h id t ht, rfl⟩

theorem lt_size_of_value {id : NodeId} {key : String} (h : g.value? id = some key) :
    id < g.size := by
  obtain ⟨t, ht, -⟩ := Option.map_eq_some_iff.mp h
  exact term?_isSome.mp (Option.isSome_of_eq_some ht)

theorem lt_size_of_kind? {id : NodeId} {kind : Kind}
    (h : g.kind? id = some kind) : id < g.size := by
  obtain ⟨t, ht, -⟩ := Option.map_eq_some_iff.mp h
  exact term?_isSome.mp (Option.isSome_of_eq_some ht)

theorem lt_size_of_listItems? {id : NodeId} {items : List NodeId}
    (h : g.listItems? id = some items) : id < g.size := by
  rw [listItems?, Option.ite_none_right_eq_some] at h
  exact lt_size_of_kind? h.1

theorem exists_value {id : NodeId} (h : id < g.size) : ∃ key, g.value? id = some key := by
  obtain ⟨t, ht⟩ := Option.isSome_iff_exists.mp (term?_isSome.mpr h)
  exact ⟨t.value, Option.map_eq_some_iff.mpr ⟨t, ht, rfl⟩⟩

theorem Grows.refl (g : Graph) : g.Grows g := ⟨.refl g, fun _ _ => rfl, id⟩

theorem Grows.trans (h₁ : g.Grows g₁) (h₂ : g₁.Grows g') : g.Grows g' where
  term := h₁.term.trans h₂.term
  properties hid p :=
    (h₂.properties (Nat.lt_of_lt_of_le hid h₁.term.size_le) p).trans (h₁.properties hid p)
  closed hg := h₂.closed (h₁.closed hg)

/-- The targets of a closed graph's links are its nodes. -/
theorem Closed.target_lt (h : g.Closed) {id target : NodeId} {p : String}
    (ht : target ∈ g.properties id p) : target < g.size := by
  obtain ⟨l, hl, rfl⟩ := List.mem_map.mp ht
  exact (h l (Array.mem_toList_iff.mp (List.mem_filter.mp hl).1)).2

/-- Nodes that do not exist have no properties in a closed graph. -/
theorem Closed.properties_eq_nil (h : g.Closed) {id : NodeId} (hid : g.size ≤ id) (p : String) :
    g.properties id p = [] := by
  rw [properties, List.map_eq_nil_iff, List.filter_eq_nil_iff]
  intro l hl hcon
  simp only [decide_eq_true_eq] at hcon
  have := (h l (Array.mem_toList_iff.mp hl)).1
  rw [hcon.1] at this
  exact Nat.not_lt.mpr hid this

/-- A node with the same type links is of the same types. -/
theorem Extends.types (h : g.Extends g') (hc : g.Closed) {id : NodeId}
    (hlinks : g'.properties id Rdf.type = g.properties id Rdf.type) : g'.types id = g.types id := by
  rw [Graph.types, Graph.types, hlinks]
  have hvalue : ∀ target ∈ g.properties id Rdf.type, g'.value? target = g.value? target := by
    intro target ht
    obtain ⟨key, hkey⟩ := exists_value (hc.target_lt ht)
    rw [hkey, h.value hkey]
  exact List.filterMap_congr hvalue

/-- Types of nodes that were there stay. -/
theorem Grows.types (h : g.Grows g') (hc : g.Closed) {id : NodeId} (hid : id < g.size) :
    g'.types id = g.types id :=
  h.term.types hc (h.properties hid Rdf.type)

/-- Whether a node is a variable does not change while the graph grows. -/
theorem Grows.isVariable (h : g.Grows g') (hc : g.Closed) {id : NodeId} (hid : id < g.size) :
    g'.isVariable id = g.isVariable id := by
  obtain ⟨t, ht⟩ := Option.isSome_iff_exists.mp (term?_isSome.mpr hid)
  rw [Graph.isVariable, Graph.isVariable, isA, isA, h.types hc hid, kind?, kind?, ht, h.term id t ht]

/-! ## Single steps -/

theorem extends_push (g : Graph) (t : Term) : g.Extends (g.push t).2 := by
  intro id u h
  rw [term?_push, if_neg (Nat.ne_of_lt (term?_isSome.mp (Option.isSome_of_eq_some h))), h]

theorem Closed.push (h : g.Closed) (t : Term) : (g.push t).2.Closed := by
  intro l hl
  rw [size_push]
  obtain ⟨hs, ht⟩ := h l hl
  exact ⟨Nat.lt_succ_of_lt hs, Nat.lt_succ_of_lt ht⟩

theorem Grows.push (h : g.Grows g₁) (t : Term) : g.Grows (g₁.push t).2 :=
  ⟨h.term.trans (extends_push g₁ t), fun hid p => h.properties hid p, fun hg => (h.closed hg).push t⟩

theorem Grows.pushLabelled (h : g.Grows g₁) (kind : Kind) (letter : String) :
    g.Grows (g₁.pushLabelled kind letter).2 := by
  have hcount : g.Grows { g₁ with labels := g₁.labels + 1 } := ⟨h.term, h.properties, h.closed⟩
  exact hcount.push _

theorem extends_link? {s o : NodeId} {l : Label} (h : g.link? s l o = some g') :
    g.Extends g' := by
  obtain ⟨-, -, rfl⟩ := link?_eq_some h
  exact fun _ _ h => h

theorem Closed.link? (hc : g.Closed) {s o : NodeId} {l : Label}
    (h : g.link? s l o = some g') : g'.Closed := by
  obtain ⟨hs, ho, rfl⟩ := link?_eq_some h
  intro k hk
  rcases Array.mem_push.mp hk with hk | rfl
  · exact hc k hk
  · exact ⟨hs, ho⟩

/-- A link of a new node leaves the properties of the others alone. -/
theorem Grows.link {s : NodeId} (h : g.Grows g₁) (hs : g.size ≤ s) (l : Label) (o : NodeId) :
    g.Grows (g₁.link s l o) := by
  rw [Graph.link]
  cases hl : g₁.link? s l o with
  | none => exact h
  | some g₂ =>
    refine ⟨h.term.trans (extends_link? hl), fun {id} hid p => ?_,
      fun hg => (h.closed hg).link? hl⟩
    have hne : ¬ (s = id ∧ l = .property p) := fun hcon =>
      Nat.lt_irrefl _ (Nat.lt_of_lt_of_le hid (hcon.1 ▸ hs))
    show g₂.properties id p = g.properties id p
    rw [properties_link? hl, if_neg hne, List.append_nil, h.properties hid]

theorem Grows.copyProperties {receiver : NodeId} (h : g.Grows g₁) (hr : g.size ≤ receiver)
    (source : NodeId) (p : String) : g.Grows (g₁.copyProperties source p receiver) := by
  rw [Graph.copyProperties]
  generalize g₁.properties source p = targets
  induction targets generalizing g₁ with
  | nil => exact h
  | cons target rest ih => exact ih (h.link hr (.property p) target)

theorem Grows.copyAll {receiver : NodeId} (h : g.Grows g₁) (hr : g.size ≤ receiver)
    (source : NodeId) (ps : List String) :
    g.Grows (ps.foldl (fun g p => g.copyProperties source p receiver) g₁) := by
  induction ps generalizing g₁ with
  | nil => exact h
  | cons p rest ih => exact ih (h.copyProperties hr source p)

/-! ## Raw configs -/

/-- Expanding a config adds a node and links it, and leaves the rest alone. -/
theorem grows_expand (g : Graph) (config : NodeId) (name : Option String) :
    g.Grows (Preprocessor.expand g config name).2 := by
  have hblank : g.Grows g.pushBlank.2 := (Grows.refl g).pushLabelled _ _
  unfold Preprocessor.expand
  refine Grows.copyAll ?_ (Nat.le_refl g.size) config _
  cases name with
  | none => exact hblank
  | some name => exact (hblank.push (.literal name Xsd.string)).link (Nat.le_refl g.size) _ _

/-- Finding the raw form of a config expands it or leaves the graph as it is. -/
theorem rawConfig_cases (ps : List Preprocessor) (g : Graph) (config : NodeId) :
    (rawConfig ps g config).2 = g ∨
      ∃ name, (rawConfig ps g config).2 = (Preprocessor.expand g config name).2 := by
  rw [rawConfig]
  cases firstHandler ps g config with
  | none => exact .inl rfl
  | some found =>
    obtain ⟨p, handle⟩ := found
    show (p.transform g config handle).2 = g ∨ ∃ name, (p.transform g config handle).2 = _
    rw [Preprocessor.transform]
    cases p.mode with
    | expand =>
      refine .inr ⟨some handle, ?_⟩
      rcases Preprocessor.expand g config (some handle) with ⟨raw, g'⟩
      rfl
    | unnamed =>
      refine .inr ⟨none, ?_⟩
      rcases Preprocessor.expand g config none with ⟨raw, g'⟩
      rfl
    | refuse => exact .inl rfl
    | redirect target => exact .inl rfl

/-- Finding the raw form of a config grows the graph. -/
theorem grows_rawConfig (ps : List Preprocessor) (g : Graph) (config : NodeId) :
    g.Grows (rawConfig ps g config).2 := by
  rcases rawConfig_cases ps g config with h | ⟨name, h⟩
  · rw [h]
    exact .refl g
  · rw [h]
    exact grows_expand g config name

/-! ## Updates -/

theorem extends_intern (g : Graph) (kind : Kind) (value : String) :
    g.Extends (g.intern kind value).2 ∧ (g.Closed → (g.intern kind value).2.Closed) := by
  rw [intern]
  cases g.find? kind value with
  | some id => exact ⟨.refl g, fun hg => hg⟩
  | none => exact ⟨extends_push g _, fun hg => hg.push _⟩

/-- **Updates keep what their steps keep**: looking up a node that is created if there is none, adding
a blank node, a list or a literal, and linking. -/
theorem apply_keeps {K : Graph → Prop}
    (intern : ∀ {g kind}, kind = .named ∨ kind = .placeholder → K g →
      ∀ value, K (g.intern kind value).2)
    (blank : ∀ {g}, K g → K g.pushBlank.2) (list : ∀ {g}, K g → K (g.pushLabelled .list "l").2)
    (literal : ∀ {g}, K g → ∀ text datatype, K (g.push (.literal text datatype)).2)
    (link : ∀ {g g' s l o}, g.link? s l o = some g' → K g → K g') (h : K g) (u : Update) :
    K (g.apply u).2 := by
  cases u with
  | named iri => exact intern (.inl rfl) h iri
  | placeholder name => exact intern (.inr rfl) h name
  | blank => exact blank h
  | literal text => exact literal h text _
  | typedLiteral text datatype => exact literal h text datatype
  | list items =>
    have hitems : ∀ {g : Graph}, K g → ∀ list position, K (g.linkItems list position items).2 := by
      induction items with
      | nil => exact fun hg _ _ => hg
      | cons item rest ih =>
        intro g hg list position
        rw [linkItems]
        cases hl : g.link? list (.item (UInt32.ofNat position)) item with
        | none => exact hg
        | some g' => exact ih (link hl hg) list (position + 1)
    have hlist : K (g.pushLabelled .list "l").2 := list h
    exact hitems hlist _ 0
  | addProperty subject predicate object =>
    rw [apply, addProperty?]
    cases hl : g.link? subject (.property predicate) object with
    | none => exact h
    | some g' => exact link hl h
  | addType subject iri =>
    have hnamed := intern (.inl rfl) h iri
    rcases hi : g.intern .named iri with ⟨object, g₁⟩
    rw [hi] at hnamed
    simp only [apply, hi, addProperty?]
    cases hl : g₁.link? subject (.property Rdf.type) object with
    | none => exact hnamed
    | some g' => exact link hl hnamed

/-- Updates only add to a graph. -/
theorem extends_apply (g : Graph) (u : Update) :
    g.Extends (g.apply u).2 ∧ (g.Closed → (g.apply u).2.Closed) := by
  refine apply_keeps (K := fun g' => g.Extends g' ∧ (g.Closed → g'.Closed)) ?_ ?_ ?_ ?_ ?_
    ⟨.refl g, fun hg => hg⟩ u
  · intro g₁ kind _ h value
    obtain ⟨hext, hclosed⟩ := extends_intern g₁ kind value
    exact ⟨h.1.trans hext, fun hg => hclosed (h.2 hg)⟩
  · intro g₁ h
    have hgrows := (Grows.refl g₁).pushLabelled .blank "b"
    exact ⟨h.1.trans hgrows.term, fun hg => hgrows.closed (h.2 hg)⟩
  · intro g₁ h
    have hgrows := (Grows.refl g₁).pushLabelled .list "l"
    exact ⟨h.1.trans hgrows.term, fun hg => hgrows.closed (h.2 hg)⟩
  · intro g₁ h text datatype
    exact ⟨h.1.trans (extends_push g₁ _), fun hg => (h.2 hg).push _⟩
  · intro g₁ g₂ s l o hl h
    exact ⟨h.1.trans (extends_link? hl), fun hg => (h.2 hg).link? hl⟩

end Wiring.Graph

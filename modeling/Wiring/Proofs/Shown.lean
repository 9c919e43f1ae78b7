import Wiring.Proofs.Growth
import Wiring.Proofs.Persistence
import Wiring.Range.Lowering

/-!
# Ranges that a graph shows

What lowering gives, told without lowering: below a node a graph shows a range if the node is tagged
with the shape of the range and linked to nodes that show its parts.

- `Graph.Shows`: a node shows a range, through nodes that describe it and its parts.
- `Graph.Shows.later`: what is shown does not change as long as these nodes are spared.
- `Range.lowerWithin_of_shows`: what is shown is what lowering gives, along paths as long as the range
  is deep.
-/

namespace Wiring

namespace Graph

/-! ## Ranges that a graph shows -/

/-- A later graph in which some nodes have the same properties. -/
structure Spares (g : Graph) (own : List NodeId) (g' : Graph) : Prop where
  precedes : g.Precedes g'
  properties : ∀ id ∈ own, ∀ p, g'.properties id p = g.properties id p

/-- A blank node that describes a range of a shape. -/
structure IsResource (g : Graph) (own : List NodeId) (s : Shape) (id : NodeId) : Prop where
  own : id ∈ own
  kind : g.kind? id = some .blank
  shape : Shape.ofTypes (g.types id) = some s

mutual

/-- A node shows a range, through nodes of its own. -/
def Shows (g : Graph) (own : List NodeId) : Range → NodeId → Prop
  | .any, _ => False
  | .type iri, id => id ∈ own ∧ g.kind? id = some .named ∧ g.value? id = some iri
  | .undefined, id => g.IsResource own .undefined id
  | .collectEntries, id => g.IsResource own .collectEntries id
  | .literal t, id => g.IsResource own .literal id ∧
      g.propertyTerm? id Components.parameterRangeValue = some t
  | .array element, id => g.IsResource own .array id ∧
      ∃ part, g.property? id Components.parameterRangeValue = some part ∧ g.Shows own element part
  | .rest element, id => g.IsResource own .rest id ∧
      ∃ part, g.property? id Components.parameterRangeValue = some part ∧ g.Shows own element part
  | .union options, id => g.IsResource own .union id ∧ g.ShowsEach own options (g.rangeElements id)
  | .intersection options, id => g.IsResource own .intersection id ∧
      g.ShowsEach own options (g.rangeElements id)
  | .tuple entries, id => g.IsResource own .tuple id ∧ g.ShowsEach own entries (g.rangeElements id)

/-- Nodes show ranges, in order. -/
def ShowsEach (g : Graph) (own : List NodeId) : List Range → List NodeId → Prop
  | [], ids => ids = []
  | r :: rs, ids => ∃ id rest, ids = id :: rest ∧ g.Shows own r id ∧ g.ShowsEach own rs rest

end

variable {g g₁ g' : Graph} {own own' : List NodeId} {id : NodeId}

/-- What shows a range is a named node or a blank one. -/
theorem Shows.kind? {r : Range} (h : g.Shows own r id) :
    g.kind? id = some .named ∨ g.kind? id = some .blank := by
  cases r with
  | any => exact h.elim
  | type iri => exact .inl h.2.1
  | undefined => exact .inr h.kind
  | collectEntries => exact .inr h.kind
  | _ => exact .inr h.1.kind

theorem Shows.lt_size {r : Range} (h : g.Shows own r id) : id < g.size :=
  h.kind?.elim lt_size_of_kind? lt_size_of_kind?

theorem Shows.listItems? {r : Range} (h : g.Shows own r id) : g.listItems? id = none := by
  rw [Graph.listItems?, if_neg]
  rcases h.kind? with hkind | hkind
  · simp [hkind]
  · simp [hkind]

theorem ShowsEach.exists_shows {rs : List Range} {ids : List NodeId} (h : g.ShowsEach own rs ids) :
    ∀ id ∈ ids, ∃ r, g.Shows own r id := by
  induction rs generalizing ids with
  | nil =>
    cases h
    intro id hid
    cases hid
  | cons r rs ih =>
    obtain ⟨first, rest, rfl, hfirst, hrest⟩ := h
    intro id hid
    rcases List.mem_cons.mp hid with rfl | hid
    · exact ⟨r, hfirst⟩
    · exact ih hrest id hid

/-! ### Later graphs -/

namespace Spares

theorem refl (g : Graph) (own : List NodeId) : g.Spares own g := ⟨.refl g, fun _ _ _ => rfl⟩

/-- Nodes that have been there are spared by a graph that grows. -/
theorem of_grows (hprecedes : g.Precedes g') (h : g.Grows g') (hown : ∀ id ∈ own, id < g.size) :
    g.Spares own g' where
  precedes := hprecedes
  properties id hid p := h.properties (hown id hid) p

/-- Nodes from which no link has been added are spared. -/
theorem of_links (hprecedes : g.Precedes g')
    (h : ∀ l ∈ g'.links.toList.drop g.links.size, l.source ∉ own) : g.Spares own g' where
  precedes := hprecedes
  properties id hid p := by
    obtain ⟨added, hlinks, -⟩ := hprecedes.links
    rw [hlinks, ← Array.length_toList, List.drop_left] at h
    have hnone : added.filter (fun l => l.source = id ∧ l.label = .property p) = [] := by
      refine List.filter_eq_nil_iff.mpr fun l hl hcon => h l hl ?_
      rw [(of_decide_eq_true hcon).1]
      exact hid
    rw [Graph.properties, hlinks, List.filter_append, hnone, List.append_nil, ← Graph.properties]

theorem kind? (h : g.Spares own g') {kind : Kind} (hid : g.kind? id = some kind) :
    g'.kind? id = some kind := by
  rw [h.precedes.kind? (lt_size_of_kind? hid), hid]

theorem property? (h : g.Spares own g') (hid : id ∈ own) (p : String) :
    g'.property? id p = g.property? id p := by
  rw [Graph.property?, h.properties id hid, Graph.property?]

theorem propertyTerm? (h : g.Spares own g') (hid : id ∈ own) {p : String} {t : Term}
    (ht : g.propertyTerm? id p = some t) : g'.propertyTerm? id p = some t := by
  obtain ⟨target, htarget, hterm⟩ := Option.bind_eq_some_iff.mp ht
  rw [Graph.propertyTerm?, h.property? hid, htarget]
  exact h.precedes.term target t hterm

theorem types (h : g.Spares own g') (hc : g.Closed) (hid : id ∈ own) : g'.types id = g.types id :=
  h.precedes.term.types hc (h.properties id hid _)

theorem rangeElements (h : g.Spares own g') (hc : g.Closed) (hid : id ∈ own) :
    g'.rangeElements id = g.rangeElements id := by
  rw [Graph.rangeElements, Graph.rangeElements, h.properties id hid]
  split
  · rename_i single hsingle
    have hmem : single ∈ g.properties id Components.parameterRangeElements := by simp [hsingle]
    rw [h.precedes.listItems? (hc.target_lt hmem)]
  · rfl

theorem isResource (h : g.Spares own g') (hc : g.Closed) (hsub : own ⊆ own') {s : Shape}
    (hid : g.IsResource own s id) : g'.IsResource own' s id where
  own := hsub hid.own
  kind := h.kind? hid.kind
  shape := by rw [h.types hc hid.own, hid.shape]

end Spares

mutual

/-- **What is shown does not change** while the nodes that show it are spared. -/
theorem Shows.later (h : g.Spares own g') (hc : g.Closed) (hsub : own ⊆ own') :
    ∀ {r : Range} {id : NodeId}, g.Shows own r id → g'.Shows own' r id
  | .any, _, hid => hid.elim
  | .type _, _, ⟨hown, hkind, hvalue⟩ => ⟨hsub hown, h.kind? hkind, h.precedes.term.value hvalue⟩
  | .undefined, _, hid => h.isResource hc hsub hid
  | .collectEntries, _, hid => h.isResource hc hsub hid
  | .literal _, _, ⟨hid, hterm⟩ => ⟨h.isResource hc hsub hid, h.propertyTerm? hid.own hterm⟩
  | .array _, _, ⟨hid, part, hpart, helement⟩ =>
    ⟨h.isResource hc hsub hid, part, (h.property? hid.own _).trans hpart, helement.later h hc hsub⟩
  | .rest _, _, ⟨hid, part, hpart, helement⟩ =>
    ⟨h.isResource hc hsub hid, part, (h.property? hid.own _).trans hpart, helement.later h hc hsub⟩
  | .union _, _, ⟨hid, heach⟩ =>
    ⟨h.isResource hc hsub hid, h.rangeElements hc hid.own ▸ heach.later h hc hsub⟩
  | .intersection _, _, ⟨hid, heach⟩ =>
    ⟨h.isResource hc hsub hid, h.rangeElements hc hid.own ▸ heach.later h hc hsub⟩
  | .tuple _, _, ⟨hid, heach⟩ =>
    ⟨h.isResource hc hsub hid, h.rangeElements hc hid.own ▸ heach.later h hc hsub⟩

theorem ShowsEach.later (h : g.Spares own g') (hc : g.Closed) (hsub : own ⊆ own') :
    ∀ {rs : List Range} {ids : List NodeId}, g.ShowsEach own rs ids → g'.ShowsEach own' rs ids
  | [], _, hids => hids
  | _ :: _, _, ⟨first, rest, hids, hfirst, hrest⟩ =>
    ⟨first, rest, hids, hfirst.later h hc hsub, hrest.later h hc hsub⟩

end

end Graph

namespace Range

/-! ## Lowering what is shown -/

mutual

/-- How deep the parts of a range are nested. -/
def depth : Range → Nat
  | .array element => element.depth + 1
  | .rest element => element.depth + 1
  | .tuple entries => eachDepth entries + 1
  | .union options => eachDepth options + 1
  | .intersection options => eachDepth options + 1
  | _ => 1

/-- The depth of the deepest member. -/
def eachDepth : List Range → Nat
  | [] => 0
  | r :: rs => max r.depth (eachDepth rs)

end

theorem depth_pos (r : Range) : 0 < r.depth := by
  cases r <;> simp [depth]

variable {g : Graph} {own : List NodeId}

mutual

/-- **A range that is shown is what lowering gives**, if no named node that shows a type is itself
described as another range. -/
theorem lowerWithin_of_shows
    (hplain : ∀ id ∈ own, g.kind? id = some .named → Shape.ofTypes (g.types id) = none) :
    ∀ {r : Range} {id limit : Nat}, g.Shows own r id → r.depth ≤ limit →
      lowerWithin g limit id = pure r
  | r, _, 0, _, hdepth => absurd hdepth (Nat.not_le_of_lt r.depth_pos)
  | .any, _, _, h, _ => h.elim
  | .type iri, id, limit + 1, h, _ => by
    obtain ⟨hown, hkind, hvalue⟩ := h
    obtain ⟨t, ht, rfl⟩ := Option.map_eq_some_iff.mp hvalue
    rw [lowerWithin, ht]
    simp only [hplain id hown hkind]
  | .undefined, id, limit + 1, h, _ => by
    obtain ⟨t, ht, -⟩ := Option.map_eq_some_iff.mp h.kind
    simp only [lowerWithin, ht, h.shape]
  | .collectEntries, id, limit + 1, h, _ => by
    obtain ⟨t, ht, -⟩ := Option.map_eq_some_iff.mp h.kind
    simp only [lowerWithin, ht, h.shape]
  | .literal t, id, limit + 1, h, _ => by
    obtain ⟨hid, hterm⟩ := h
    obtain ⟨u, hu, -⟩ := Option.map_eq_some_iff.mp hid.kind
    simp only [lowerWithin, hu, hid.shape, lowerLiteral, hterm]
  | .array element, id, limit + 1, h, hdepth => by
    obtain ⟨hid, part, hpart, helement⟩ := h
    obtain ⟨t, ht, -⟩ := Option.map_eq_some_iff.mp hid.kind
    have hlower := lowerWithin_of_shows hplain helement (Nat.le_of_succ_le_succ hdepth)
    simp only [lowerWithin, ht, hid.shape, lowerValue, hpart, hlower, map_pure]
  | .rest element, id, limit + 1, h, hdepth => by
    obtain ⟨hid, part, hpart, helement⟩ := h
    obtain ⟨t, ht, -⟩ := Option.map_eq_some_iff.mp hid.kind
    have hlower := lowerWithin_of_shows hplain helement (Nat.le_of_succ_le_succ hdepth)
    simp only [lowerWithin, ht, hid.shape, lowerValue, hpart, hlower, map_pure]
  | .union options, id, limit + 1, h, hdepth => by
    obtain ⟨hid, heach⟩ := h
    obtain ⟨t, ht, -⟩ := Option.map_eq_some_iff.mp hid.kind
    have hlower := mapM_of_showsEach hplain heach (Nat.le_of_succ_le_succ hdepth)
    simp only [lowerWithin, ht, hid.shape, lowerElements, hlower, map_pure]
  | .intersection options, id, limit + 1, h, hdepth => by
    obtain ⟨hid, heach⟩ := h
    obtain ⟨t, ht, -⟩ := Option.map_eq_some_iff.mp hid.kind
    have hlower := mapM_of_showsEach hplain heach (Nat.le_of_succ_le_succ hdepth)
    simp only [lowerWithin, ht, hid.shape, lowerElements, hlower, map_pure]
  | .tuple entries, id, limit + 1, h, hdepth => by
    obtain ⟨hid, heach⟩ := h
    obtain ⟨t, ht, -⟩ := Option.map_eq_some_iff.mp hid.kind
    have hlower := mapM_of_showsEach hplain heach (Nat.le_of_succ_le_succ hdepth)
    simp only [lowerWithin, ht, hid.shape, lowerElements, hlower, map_pure]

theorem mapM_of_showsEach
    (hplain : ∀ id ∈ own, g.kind? id = some .named → Shape.ofTypes (g.types id) = none) :
    ∀ {rs : List Range} {ids : List NodeId} {limit : Nat}, g.ShowsEach own rs ids →
      eachDepth rs ≤ limit → ids.mapM (lowerWithin g limit) = pure rs
  | [], _, _, h, _ => by
    cases h
    rfl
  | r :: rs, _, limit, h, hdepth => by
    obtain ⟨first, rest, rfl, hfirst, hrest⟩ := h
    have hr : r.depth ≤ limit := Nat.le_trans (Nat.le_max_left _ _) hdepth
    have hrs : eachDepth rs ≤ limit := Nat.le_trans (Nat.le_max_right _ _) hdepth
    rw [List.mapM_cons, lowerWithin_of_shows hplain hfirst hr, pure_bind,
      mapM_of_showsEach hplain hrest hrs, pure_bind]

end

end Range

end Wiring

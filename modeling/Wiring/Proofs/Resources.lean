import Mathlib.Data.List.TakeWhile
import Wiring.Proofs.Integrity
import Wiring.Range.Encoding

/-!
# New nodes and their links

Updates that link new nodes only leave the properties of the others alone (`Graph.Grows.applyAll`). So
it is known what a new node has:

- `Graph.listItems?_apply_list`: a new list has the items that it has been made of, in order, up to the
  first that does not exist;
- `Graph.applyAll_resource`: a new resource is of its shape and has the values that it has been given.
-/

namespace Wiring

/-- The node that an update gives a property or a type. -/
def Update.subject? : Update → Option NodeId
  | .addProperty subject _ _ => some subject
  | .addType subject _ => some subject
  | _ => none

namespace Graph

variable {g g₁ g' : Graph} {id : NodeId}

/-! ## Updates of new nodes -/

theorem apply_addProperty (g : Graph) (subject : NodeId) (p : String) (object : NodeId) :
    (g.apply (.addProperty subject p object)).2 = g.link subject (.property p) object := by
  rw [apply, addProperty?, link]
  cases g.link? subject (.property p) object <;> rfl

theorem apply_addType (g : Graph) (subject : NodeId) (iri : String) :
    (g.apply (.addType subject iri)).2 =
      (g.intern .named iri).2.link subject (.property Rdf.type) (g.intern .named iri).1 := by
  rw [link]
  simp only [apply, addProperty?]
  cases (g.intern .named iri).2.link? subject (.property Rdf.type) (g.intern .named iri).1 <;> rfl

theorem Grows.intern (h : g.Grows g₁) (kind : Kind) (value : String) :
    g.Grows (g₁.intern kind value).2 := by
  rw [Graph.intern]
  split
  · exact h
  · exact h.push _

theorem Grows.linkItems (h : g.Grows g₁) {list : NodeId} (hlist : g.size ≤ list) (position : Nat)
    (items : List NodeId) : g.Grows (g₁.linkItems list position items).2 := by
  induction items generalizing g₁ position with
  | nil => exact h
  | cons item rest ih =>
    have hlink := h.link hlist (.item (UInt32.ofNat position)) item
    rw [Graph.link] at hlink
    rw [Graph.linkItems]
    cases hl : g₁.link? list (.item (UInt32.ofNat position)) item with
    | none => exact h
    | some g₂ =>
      rw [hl] at hlink
      exact ih hlink (position + 1)

/-- An update that gives no earlier node a property or a type leaves their properties alone. -/
theorem Grows.apply (h : g.Grows g₁) {u : Update} (hnew : ∀ subject ∈ u.subject?, g.size ≤ subject) :
    g.Grows (g₁.apply u).2 := by
  cases u with
  | named iri => exact h.intern .named iri
  | placeholder name => exact h.intern .placeholder name
  | blank => exact h.pushLabelled _ _
  | literal text => exact h.push _
  | typedLiteral text datatype => exact h.push _
  | list items => exact (h.pushLabelled .list "l").linkItems h.term.size_le 0 items
  | addProperty subject p object =>
    rw [apply_addProperty]
    exact h.link (hnew subject rfl) _ _
  | addType subject iri =>
    rw [apply_addType]
    exact (h.intern .named iri).link (hnew subject rfl) _ _

theorem Grows.applyAll (h : g.Grows g₁) {us : List Update}
    (hnew : ∀ u ∈ us, ∀ subject ∈ u.subject?, g.size ≤ subject) : g.Grows (g₁.applyAll us) := by
  induction us generalizing g₁ with
  | nil => exact h
  | cons u us ih =>
    exact ih (h.apply (hnew u List.mem_cons_self)) fun u hu => hnew u (List.mem_cons_of_mem _ hu)

theorem Precedes.applyAll (h : g.Precedes g₁) (us : List Update) : g.Precedes (g₁.applyAll us) :=
  applyAll_keeps (fun hg u => hg.apply u) h us

/-! ## Terms of nodes -/

/-- The node of a kind and a value has them. -/
theorem term?_intern (h : g.Distinct) (kind : Kind) (value : String) :
    ∃ t, (g.intern kind value).2.term? (g.intern kind value).1 = some t ∧ t.kind = kind ∧
      t.value = value := by
  rw [intern]
  cases hfind : g.find? kind value with
  | some found => exact ((find?_eq_some h).mp hfind).2
  | none => exact ⟨⟨kind, value, none⟩, by rw [term?_push]; exact if_pos rfl, rfl, rfl⟩

/-! ## Lists -/

theorem insertItem_of_le {item : UInt32 × NodeId} {items : List (UInt32 × NodeId)}
    (h : ∀ other ∈ items.head?, item.1 ≤ other.1) : insertItem item items = item :: items := by
  cases items with
  | nil => rfl
  | cons other rest => exact if_pos (h other rfl)

/-- Items in order, with their positions. -/
def numbered (position : Nat) : List NodeId → List (UInt32 × NodeId)
  | [] => []
  | item :: rest => (UInt32.ofNat position, item) :: numbered (position + 1) rest

@[simp] theorem map_numbered (position : Nat) (items : List NodeId) :
    (numbered position items).map (·.2) = items := by
  induction items generalizing position with
  | nil => rfl
  | cons item rest ih => rw [numbered, List.map_cons, ih]

/-- Items that are numbered are in order, as long as positions are enough. -/
theorem sortItems_numbered {position : Nat} {items : List NodeId}
    (hfits : position + items.length ≤ UInt32.size) :
    sortItems (numbered position items) = numbered position items := by
  induction items generalizing position with
  | nil => rfl
  | cons item rest ih =>
    have hrest : position + 1 + rest.length ≤ UInt32.size := by
      rw [List.length_cons] at hfits
      omega
    rw [numbered]
    show insertItem _ (sortItems (numbered (position + 1) rest)) = _
    rw [ih hrest]
    refine insertItem_of_le fun other hother => ?_
    cases rest with
    | nil => cases hother
    | cons next rest =>
      cases hother
      rw [List.length_cons] at hrest
      show UInt32.ofNat position ≤ UInt32.ofNat (position + 1)
      rw [UInt32.le_iff_toNat_le, UInt32.toNat_ofNat_of_lt' (by omega),
        UInt32.toNat_ofNat_of_lt' (by omega)]
      exact Nat.le_succ position

/-- Items are linked to a list, one after the other, up to the first that does not exist. -/
theorem itemLinks_linkItems {list : NodeId} (hlist : list < g.size) (position : Nat)
    (items : List NodeId) : (g.linkItems list position items).2.itemLinks list =
      g.itemLinks list ++ numbered position (items.takeWhile g.contains) := by
  induction items generalizing g position with
  | nil => exact (List.append_nil _).symm
  | cons item rest ih =>
    rw [linkItems]
    by_cases hitem : g.contains item = true
    · have hlink : g.link? list (.item (UInt32.ofNat position)) item =
          some { g with links := g.links.push ⟨list, .item (UInt32.ofNat position), item⟩ } :=
        if_pos ⟨decide_eq_true hlist, hitem⟩
      rw [hlink, List.takeWhile_cons_of_pos hitem]
      refine (ih (g := { g with links := g.links.push _ }) hlist (position + 1)).trans ?_
      show _ = g.itemLinks list ++ numbered position (item :: rest.takeWhile g.contains)
      simp [itemLinks, Label.position?, numbered]
      rfl
    · have hlink : g.link? list (.item (UInt32.ofNat position)) item = none :=
        if_neg fun hcon => hitem hcon.2
      rw [hlink, List.takeWhile_cons_of_neg hitem]
      exact (List.append_nil _).symm

/-- Linking succeeds if and only if all items exist. -/
theorem complete_linkItems {list : NodeId} (hlist : list < g.size) (position : Nat)
    (items : List NodeId) : (g.linkItems list position items).1 = items.all g.contains := by
  induction items generalizing g position with
  | nil => rfl
  | cons item rest ih =>
    rw [linkItems, List.all_cons]
    by_cases hitem : g.contains item = true
    · have hlink : g.link? list (.item (UInt32.ofNat position)) item =
          some { g with links := g.links.push ⟨list, .item (UInt32.ofNat position), item⟩ } :=
        if_pos ⟨decide_eq_true hlist, hitem⟩
      rw [hlink, hitem, Bool.true_and]
      exact ih (g := { g with links := g.links.push _ }) hlist (position + 1)
    · have hlink : g.link? list (.item (UInt32.ofNat position)) item = none :=
        if_neg fun hcon => hitem hcon.2
      rw [hlink, Bool.eq_false_iff.mpr hitem]
      rfl

/-- A new list is the one new node. -/
theorem size_apply_list (g : Graph) (items : List NodeId) :
    (g.apply (.list items)).2.size = g.size + 1 := by
  show ((g.pushLabelled .list "l").2.linkItems g.size 0 items).2.nodes.size = _
  rw [nodes_linkItems]
  exact size_push _ _

/-- **A new list has the items** that it has been made of, in order, up to the first that does not
exist. The list itself does. -/
theorem listItems?_apply_list (hclosed : g.Closed) {items : List NodeId}
    (hfits : items.length ≤ UInt32.size) : (g.apply (.list items)).2.listItems? g.size =
      some (items.takeWhile (g.apply (.list items)).2.contains) := by
  have hterm : (g.pushLabelled .list "l").2.term? g.size =
      some ⟨.list, s!"_:l{g.labels + 1}", none⟩ := by
    rw [pushLabelled, term?_push]
    exact if_pos rfl
  have hsize : (g.pushLabelled .list "l").2.size = g.size + 1 := size_push _ _
  have hcontains : (g.apply (.list items)).2.contains = (g.pushLabelled .list "l").2.contains := by
    funext id
    rw [contains, contains, size_apply_list, hsize]
  have hnone : (g.pushLabelled .list "l").2.itemLinks g.size = [] := by
    -- a link of the new list would have been made before the list
    refine List.filterMap_eq_nil_iff.mpr fun l hl => if_neg fun hsource => ?_
    have hlt := (hclosed l (Array.mem_toList_iff.mp hl)).1
    exact Nat.lt_irrefl _ (hsource ▸ hlt)
  have hkind : (g.apply (.list items)).2.kind? g.size = some .list := by
    show ((g.pushLabelled .list "l").2.linkItems g.size 0 items).2.kind? g.size = _
    rw [kind?, term?, nodes_linkItems, ← term?, hterm]
    rfl
  have hlinks : (g.apply (.list items)).2.itemLinks g.size =
      numbered 0 (items.takeWhile (g.pushLabelled .list "l").2.contains) := by
    show ((g.pushLabelled .list "l").2.linkItems g.size 0 items).2.itemLinks g.size = _
    have hlist : g.size < (g.pushLabelled .list "l").2.size := by omega
    rw [itemLinks_linkItems hlist, hnone, List.nil_append]
  have hlength := (List.takeWhile_prefix (l := items) (g.pushLabelled .list "l").2.contains).length_le
  rw [listItems?, if_pos hkind, hlinks, sortItems_numbered (by omega), map_numbered, hcontains]

/-- A new list has all items that exist already. -/
theorem listItems?_apply_list_of_lt (hclosed : g.Closed) {items : List NodeId}
    (hitems : ∀ item ∈ items, item < g.size) (hfits : items.length ≤ UInt32.size) :
    (g.apply (.list items)).2.listItems? g.size = some items := by
  rw [listItems?_apply_list hclosed hfits, List.takeWhile_eq_self_iff.mpr]
  intro item hitem
  rw [contains, size_apply_list, decide_eq_true_iff]
  exact Nat.lt_succ_of_lt (hitems item hitem)

/-! ## Values -/

theorem nodes_link (g : Graph) (source : NodeId) (l : Label) (target : NodeId) :
    (g.link source l target).nodes = g.nodes := by
  rw [link]
  cases hl : g.link? source l target with
  | none => rfl
  | some g' =>
    obtain ⟨-, -, rfl⟩ := link?_eq_some hl
    rfl

/-- A link between existing nodes comes last. -/
theorem properties_link_of_lt {source target : NodeId} (hsource : source < g.size)
    (htarget : target < g.size) (l : Label) (id : NodeId) (p : String) :
    (g.link source l target).properties id p =
      g.properties id p ++ if source = id ∧ l = .property p then [target] else [] := by
  have hl : g.link? source l target =
      some { g with links := g.links.push ⟨source, l, target⟩ } :=
    if_pos ⟨decide_eq_true hsource, decide_eq_true htarget⟩
  rw [link, hl]
  exact properties_link? hl id p

/-- Several values of a predicate come last, in order. -/
theorem applyAll_values {p : String} {values : List NodeId} (hid : id < g.size)
    (hvalues : ∀ value ∈ values, value < g.size) :
    (g.applyAll (values.map (.addProperty id p))).nodes = g.nodes ∧
    ∀ q, (g.applyAll (values.map (.addProperty id p))).properties id q =
      g.properties id q ++ if p = q then values else [] := by
  induction values generalizing g with
  | nil => exact ⟨rfl, fun q => by simp [applyAll]⟩
  | cons value rest ih =>
    have hvalue := hvalues value List.mem_cons_self
    have hstep : g.applyAll ((value :: rest).map (.addProperty id p)) =
        (g.link id (.property p) value).applyAll (rest.map (.addProperty id p)) := by
      rw [← apply_addProperty]
      rfl
    have hnodes := nodes_link g id (.property p) value
    have hsize : (g.link id (.property p) value).size = g.size := by rw [size, hnodes, size]
    obtain ⟨hrest, hproperties⟩ := ih (g := g.link id (.property p) value) (by rwa [hsize])
      fun other hother => by rw [hsize]; exact hvalues other (List.mem_cons_of_mem _ hother)
    rw [hstep]
    refine ⟨hrest.trans hnodes, fun q => ?_⟩
    rw [hproperties, properties_link_of_lt hid hvalue, List.append_assoc]
    by_cases hq : p = q
    · simp [hq]
    · simp [hq]

/-! ## Resources -/

/-- A new blank node with a tag has this one type, and nothing else. -/
theorem applyAll_tag (hg : g.Sound) (tag : String) :
    let g' := g.applyAll [.blank, .addType g.size tag]
    g.size < g'.size ∧ g'.kind? g.size = some .blank ∧ g'.types g.size = [tag] ∧
      ∀ q, Rdf.type ≠ q → g'.properties g.size q = [] := by
  intro g'
  let blank := (g.apply .blank).2
  have hdef : g' = (blank.apply (.addType g.size tag)).2 := rfl
  have hsize : blank.size = g.size + 1 := size_push _ _
  have hterm : blank.term? g.size = some ⟨.blank, s!"_:b{g.labels + 1}", none⟩ :=
    (term?_push _ _ _).trans (if_pos rfl)
  have hnone : ∀ q, blank.properties g.size q = [] :=
    fun q => hg.closed.properties_eq_nil (Nat.le_refl _) q
  have hlater : blank.Extends g' := (extends_apply blank _).1
  -- the tag is a node, too
  obtain ⟨t, ht, -, htag⟩ := term?_intern (g := blank) (hg.apply .blank).distinct .named tag
  have hnamed : blank.Grows (blank.intern .named tag).2 := (Grows.refl blank).intern _ _
  have hid : g.size < (blank.intern .named tag).2.size := by
    have := hnamed.term.size_le
    omega
  have hproperties : ∀ q, g'.properties g.size q =
      if Rdf.type = q then [(blank.intern .named tag).1] else [] := by
    intro q
    rw [hdef, apply_addType, properties_link_of_lt hid
      (term?_isSome.mp (Option.isSome_of_eq_some ht)), hnamed.properties (by omega), hnone]
    by_cases hq : Rdf.type = q
    · simp [hq]
    · simp [hq]
  refine ⟨?_, ?_, ?_, fun q hq => by rw [hproperties, if_neg hq]⟩
  · have := hlater.size_le
    omega
  · rw [kind?, hlater _ _ hterm]
    rfl
  · have hvalue : g'.value? (blank.intern .named tag).1 = some tag := by
      rw [hdef, apply_addType, value?, term?, nodes_link, ← term?, ht, ← htag]
      rfl
    rw [types, hproperties, if_pos rfl]
    simp [hvalue]

/-- **A new resource** is a blank node of its shape, with the values that it has been given. -/
theorem applyAll_resource (hg : g.Sound) {s : Shape} {p : String} (hp : Rdf.type ≠ p)
    {values : List NodeId} (hvalues : ∀ value ∈ values, value < g.size) :
    let g' := g.applyAll (Writing.resourceUpdates s p g.size values)
    g.Grows g' ∧ g.size < g'.size ∧ g'.kind? g.size = some .blank ∧
      Shape.ofTypes (g'.types g.size) = some s ∧ g'.properties g.size p = values := by
  intro g'
  let tagged := g.applyAll [.blank, .addType g.size s.tag]
  have hdef : g' = tagged.applyAll (values.map (.addProperty g.size p)) := rfl
  have htagged : tagged.Sound := hg.applyAll _
  obtain ⟨hsize, hkind, htypes, hnone⟩ := applyAll_tag hg s.tag
  obtain ⟨hnodes, hproperties⟩ := applyAll_values (g := tagged) (p := p) hsize
    fun value hvalue => Nat.lt_trans (hvalues value hvalue) hsize
  rw [← hdef] at hnodes hproperties
  have hterm : ∀ id, g'.term? id = tagged.term? id := fun id => by rw [term?, hnodes, term?]
  refine ⟨(Grows.refl g).applyAll ?_, ?_, ?_, ?_, ?_⟩
  · intro u hu subject hsubject
    simp only [Writing.resourceUpdates, List.mem_cons, List.mem_map] at hu
    obtain rfl | rfl | ⟨value, -, rfl⟩ := hu
    · cases hsubject
    · cases hsubject
      exact Nat.le_refl _
    · cases hsubject
      exact Nat.le_refl _
  · show _ < g'.nodes.size
    rw [hnodes]
    exact hsize
  · rw [kind?, hterm]
    exact hkind
  · have hsame : g'.types g.size = tagged.types g.size := by
      have hext : tagged.Extends g' := fun id t ht => (hterm id).trans ht
      refine hext.types htagged.closed ?_
      rw [hproperties, if_neg hp.symm, List.append_nil]
    rw [hsame, htypes, Shape.ofTypes_tag]
  · rw [hproperties, hnone p hp, if_pos rfl, List.nil_append]

end Graph

end Wiring

import Mathlib.Data.List.Nodup
import Wiring.Graph.Outgoing
import Wiring.Proofs.Resources

/-!
# What has been written is read

Updates state something of a node, or they do not succeed, or they only make nodes. What they have stated
is read back in the order of the updates, whatever else has been done in between and afterwards.

- `Graph.stated`: the values that updates have given to predicates of nodes.
- `Graph.properties_applyAll`: the values of a predicate are those that have been stated.
- `Graph.values_outgoing`, `Graph.items_outgoing`: the links of a node may be found in any order.

`Graph.reads_replay` is the law for properties, types and lists.
-/

namespace Wiring

/-- A value that has been given to a predicate of a node. -/
structure Statement where
  subject : NodeId
  predicate : String
  object : NodeId
deriving DecidableEq, Repr

namespace Graph

/-! ## What updates state -/

/-- What an update has stated, if it has succeeded. A type stands for the named node with its IRI. -/
def stated? (g : Graph) (u : Update) : Option Statement :=
  if (g.apply u).1 = .done then
    match u with
    | .addProperty subject predicate object => some ⟨subject, predicate, object⟩
    | .addType subject iri =>
      ((g.apply u).2.find? .named iri).map fun object => ⟨subject, Rdf.type, object⟩
    | _ => none
  else none

/-- What updates have stated, in order. -/
def stated (g : Graph) : List Update → List Statement
  | [] => []
  | u :: us => (g.stated? u).toList ++ stated (g.apply u).2 us

/-- The objects of the statements about a predicate of a node. -/
def objects (statements : List Statement) (id : NodeId) (p : String) : List NodeId :=
  (statements.filter fun w => w.subject = id ∧ w.predicate = p).map (·.object)

theorem objects_append (statements statements' : List Statement) (id : NodeId) (p : String) :
    objects (statements ++ statements') id p = objects statements id p ++ objects statements' id p := by
  simp [objects]

theorem objects_singleton (w : Statement) (id : NodeId) (p : String) :
    objects [w] id p = if w.subject = id ∧ w.predicate = p then [w.object] else [] := by
  by_cases h : w.subject = id ∧ w.predicate = p <;> simp [objects, h]

variable {g g' : Graph}

theorem properties_intern (g : Graph) (kind : Kind) (value : String) (id : NodeId) (p : String) :
    (g.intern kind value).2.properties id p = g.properties id p := by
  rw [intern]
  split <;> rfl

/-- Items of a list are no properties. -/
theorem properties_linkItems (g : Graph) (list : NodeId) (position : Nat) (items : List NodeId)
    (id : NodeId) (p : String) :
    (g.linkItems list position items).2.properties id p = g.properties id p := by
  induction items generalizing g position with
  | nil => rfl
  | cons item rest ih =>
    rw [linkItems]
    cases hl : g.link? list (.item (UInt32.ofNat position)) item with
    | none => rfl
    | some g' =>
      show (g'.linkItems list (position + 1) rest).2.properties id p = _
      rw [ih, properties_link? hl]
      simp

/-- The node of a kind and a value is found by them. -/
theorem find?_intern (h : g.Distinct) {kind : Kind} (hkind : kind ≠ .literal)
    (hletter : kind.letter? = none) (value : String) :
    (g.intern kind value).2.find? kind value = some (g.intern kind value).1 :=
  (find?_eq_some (h.intern hkind hletter value)).mpr ⟨hkind, term?_intern h kind value⟩

/-- **An update adds what it states** to the properties, and nothing else. -/
theorem properties_apply (h : g.Distinct) (u : Update) (id : NodeId) (p : String) :
    (g.apply u).2.properties id p = g.properties id p ++ objects (g.stated? u).toList id p := by
  cases u with
  | named iri => exact (properties_intern g .named iri id p).trans (List.append_nil _).symm
  | placeholder name =>
    exact (properties_intern g .placeholder name id p).trans (List.append_nil _).symm
  | blank => exact (List.append_nil _).symm
  | literal text => exact (List.append_nil _).symm
  | typedLiteral text datatype => exact (List.append_nil _).symm
  | list items =>
    have hnone : g.stated? (.list items) = none := ite_self none
    rw [hnone]
    exact (properties_linkItems _ _ 0 items id p).trans (List.append_nil _).symm
  | addProperty subject predicate object =>
    cases hl : g.addProperty? subject predicate object with
    | none => simp [stated?, apply, hl, objects]
    | some g' =>
      have hstated : g.stated? (.addProperty subject predicate object) =
          some ⟨subject, predicate, object⟩ := by simp [stated?, apply, hl]
      have happly : (g.apply (.addProperty subject predicate object)).2 = g' := by simp [apply, hl]
      rw [hstated, happly, properties_link? hl, Option.toList_some, objects_singleton]
      simp
  | addType subject iri =>
    have hfound := find?_intern h (by decide : Kind.named ≠ .literal) rfl iri
    have hsame := properties_intern g .named iri id p
    cases hl : (g.intern .named iri).2.addProperty? subject Rdf.type (g.intern .named iri).1 with
    | none => simp [stated?, apply, hl, objects, hsame]
    | some g' =>
      have hfind : g'.find? .named iri = some (g.intern .named iri).1 := by
        obtain ⟨-, -, rfl⟩ := link?_eq_some hl
        exact hfound
      have hstated : g.stated? (.addType subject iri) =
          some ⟨subject, Rdf.type, (g.intern .named iri).1⟩ := by simp [stated?, apply, hl, hfind]
      have happly : (g.apply (.addType subject iri)).2 = g' := by simp [apply, hl]
      rw [hstated, happly, properties_link? hl, hsame, Option.toList_some, objects_singleton]
      simp

/-- **The values of a predicate are those that have been stated**, after those that there were. -/
theorem properties_applyAll (h : g.Distinct) (us : List Update) (id : NodeId) (p : String) :
    (g.applyAll us).properties id p = g.properties id p ++ objects (g.stated us) id p := by
  induction us generalizing g with
  | nil => exact (List.append_nil _).symm
  | cons u us ih =>
    show ((g.apply u).2.applyAll us).properties id p = _
    rw [ih (h.apply u), properties_apply h, stated, objects_append, List.append_assoc]

/-- In a closed graph, every type is the value of a node. -/
theorem Closed.types_eq (h : g.Closed) (id : NodeId) :
    (g.types id).map some = (g.properties id Rdf.type).map g.value? := by
  have hvalues : ∀ target ∈ g.properties id Rdf.type, (g.value? target).isSome := by
    intro target htarget
    obtain ⟨value, hvalue⟩ := exists_value (h.target_lt htarget)
    exact Option.isSome_of_eq_some hvalue
  rw [types]
  generalize g.properties id Rdf.type = targets at hvalues
  induction targets with
  | nil => rfl
  | cons target targets ih =>
    obtain ⟨value, hvalue⟩ := Option.isSome_iff_exists.mp (hvalues target List.mem_cons_self)
    rw [List.filterMap_cons, hvalue, List.map_cons, List.map_cons, hvalue,
      ih fun other hother => hvalues other (List.mem_cons_of_mem _ hother)]

/-! ## Links in any order -/

/-- Of two links of a node, the earlier one has the lower place. -/
theorem outgoing_ascending (g : Graph) (id : NodeId) :
    (g.outgoing id).Pairwise fun o o' => o.place < o'.place := by
  have hplaces : g.links.toList.zipIdx.Pairwise fun l l' => l.2 < l'.2 := by
    rw [← List.pairwise_map, List.zipIdx_map_snd]
    exact List.pairwise_lt_range'
  refine hplaces.filterMap _ fun l l' hlt o ho o' ho' => ?_
  simp only [Outgoing.ofLink?, Option.ite_none_right_eq_some, Option.some.injEq] at ho ho'
  obtain ⟨-, rfl⟩ := ho
  obtain ⟨-, rfl⟩ := ho'
  exact hlt

/-- No two links of a node have one place. -/
theorem eq_of_place {id : NodeId} {o o' : Outgoing} (ho : o ∈ g.outgoing id)
    (ho' : o' ∈ g.outgoing id) (h : o.place = o'.place) : o = o' := by
  have hnodup : ((g.outgoing id).map (·.place)).Nodup :=
    List.pairwise_map.mpr ((g.outgoing_ascending id).imp Nat.ne_of_lt)
  exact List.inj_on_of_nodup_map hnodup ho ho' h

/-- Sorted by their places, links are in order of creation, in whatever order they have been found. -/
theorem selected_of_perm {id : NodeId} {found : List Outgoing} (h : found.Perm (g.outgoing id))
    (keeps : Label → Bool) :
    Outgoing.selected keeps found = (g.outgoing id).filter fun o => keeps o.label := by
  have hperm : (Outgoing.selected keeps found).Perm ((g.outgoing id).filter fun o => keeps o.label) :=
    (List.mergeSort_perm _ _).trans (h.filter _)
  have hsorted : (Outgoing.selected keeps found).Pairwise fun o o' => decide (o.place ≤ o'.place) := by
    refine List.pairwise_mergeSort ?_ ?_ _
    · intro o₁ o₂ o₃ h h'
      simp only [decide_eq_true_eq] at h h' ⊢
      omega
    · intro o o'
      simp only [Bool.or_eq_true, decide_eq_true_eq]
      omega
  have hcreated : ((g.outgoing id).filter fun o => keeps o.label).Pairwise
      fun o o' => decide (o.place ≤ o'.place) :=
    ((g.outgoing_ascending id).imp fun h => decide_eq_true (Nat.le_of_lt h)).filter _
  refine hperm.eq_of_pairwise ?_ hsorted hcreated
  intro o o' ho ho' hle hle'
  have hmem := List.mem_filter.mp (hperm.subset ho)
  have hmem' := List.mem_filter.mp ho'
  exact eq_of_place hmem.1 hmem'.1 (Nat.le_antisymm (of_decide_eq_true hle) (of_decide_eq_true hle'))

/-- **The values of a predicate** can be read off the links of a node, found in any order. -/
theorem values_outgoing {id : NodeId} {found : List Outgoing} (h : found.Perm (g.outgoing id))
    (p : String) : Outgoing.values p found = g.properties id p := by
  have hlabel : ∀ l : Label, l.predicate? = some p ↔ l = .property p := by
    intro l
    cases l <;> simp [Label.predicate?]
  rw [Outgoing.values, selected_of_perm h, outgoing, properties]
  generalize 0 = start
  induction g.links.toList generalizing start with
  | nil => rfl
  | cons l links ih =>
    rw [List.zipIdx_cons, List.filterMap_cons, List.filter_cons]
    by_cases hsource : l.source = id
    · by_cases hp : l.label = .property p
      · simpa [Outgoing.ofLink?, hsource, hp, hlabel] using ih (start + 1)
      · simpa [Outgoing.ofLink?, hsource, hp, hlabel] using ih (start + 1)
    · simpa [Outgoing.ofLink?, hsource, hlabel] using ih (start + 1)

/-- Sorting by positions puts an item before the first whose position is not smaller. -/
theorem mergeSort_eq_sortItems (items : List (UInt32 × NodeId)) :
    items.mergeSort (fun i j => i.1 ≤ j.1) = sortItems items := by
  have trans : ∀ i j k : UInt32 × NodeId, decide (i.1 ≤ j.1) = true → decide (j.1 ≤ k.1) = true →
      decide (i.1 ≤ k.1) = true := by
    intro i j k h h'
    simp only [decide_eq_true_eq, UInt32.le_iff_toNat_le] at h h' ⊢
    omega
  have total : ∀ i j : UInt32 × NodeId, (decide (i.1 ≤ j.1) || decide (j.1 ≤ i.1)) = true := by
    intro i j
    simp only [Bool.or_eq_true, decide_eq_true_eq, UInt32.le_iff_toNat_le]
    omega
  induction items with
  | nil => exact List.mergeSort_nil
  | cons item items ih =>
    obtain ⟨before, after, hcons, hitems, hbefore⟩ := List.mergeSort_cons trans total item items
    have hsorted := List.pairwise_mergeSort trans total (item :: items)
    rw [hcons] at hsorted
    have hafter : ∀ other ∈ after.head?, item.1 ≤ other.1 := by
      intro other hother
      have hrest := (List.pairwise_append.mp hsorted).2.1
      exact of_decide_eq_true ((List.pairwise_cons.mp hrest).1 other (List.mem_of_mem_head? hother))
    show _ = insertItem item (sortItems items)
    rw [hcons, ← ih, hitems]
    clear hcons hitems hsorted
    induction before with
    | nil => exact (insertItem_of_le hafter).symm
    | cons other before ih =>
      have hother : ¬ item.1 ≤ other.1 := by simpa using hbefore other List.mem_cons_self
      rw [List.cons_append, List.cons_append, insertItem, if_neg hother,
        ih fun o ho => hbefore o (List.mem_cons_of_mem _ ho)]

/-- **The items of a list** can be read off its links, found in any order. -/
theorem items_outgoing {id : NodeId} {found : List Outgoing} (h : found.Perm (g.outgoing id)) :
    Outgoing.items found = (sortItems (g.itemLinks id)).map (·.2) := by
  have hlinks : ((g.outgoing id).filter fun o => o.label.position?.isSome).filterMap Outgoing.item? =
      g.itemLinks id := by
    rw [outgoing, itemLinks]
    generalize 0 = start
    induction g.links.toList generalizing start with
    | nil => rfl
    | cons l links ih =>
      rw [List.zipIdx_cons, List.filterMap_cons, List.filterMap_cons]
      by_cases hsource : l.source = id
      · cases hposition : l.label.position? with
        | none => simpa [Outgoing.ofLink?, hsource, hposition] using ih (start + 1)
        | some n =>
          simpa [Outgoing.ofLink?, hsource, hposition, Outgoing.item?] using ih (start + 1)
      · simpa [Outgoing.ofLink?, hsource] using ih (start + 1)
  rw [Outgoing.items, selected_of_perm h, hlinks, mergeSort_eq_sortItems]

/-! ## All sequences of updates -/

/-- A list is made, and linked to items as far as they exist. -/
theorem apply_list_outcome (g : Graph) (items : List NodeId) :
    (g.apply (.list items)).1 =
      if items.all (g.apply (.list items)).2.contains then .node g.size else .dangling := by
  have hlist : g.size < (g.pushLabelled .list "l").2.size := by
    rw [pushLabelled, size_push]
    exact Nat.lt_succ_self _
  have hcomplete : ((g.pushLabelled .list "l").2.linkItems g.size 0 items).1 =
      items.all (g.apply (.list items)).2.contains := by
    rw [complete_linkItems hlist]
    refine congrArg items.all (funext fun item => ?_)
    rw [contains, contains, size_apply_list, pushLabelled, size_push]
    rfl
  show (if ((g.pushLabelled .list "l").2.linkItems g.size 0 items).1 then _ else _) = _
  rw [hcomplete]
  rfl

/-- **Reads replay what has been written.** Whatever updates have made a graph, those included that have
been refused: the values of a predicate of a node are the objects that successful updates have stated, in
order, where a type counts as the named node with its IRI. The first of them stays the first, whatever
updates come after. The types of a node are the values of these objects. A list that is made of fewer
than `2 ^ 32` items has them for ever, in order, up to the first that does not exist, and in this case
the update is refused; nodes of other kinds have no items. All this may be read off the links of a node
in any order. -/
theorem reads_replay (us : List Update) :
    let g := applyAll {} us
    (∀ id p, g.properties id p = objects (stated {} us) id p) ∧
    (∀ id p, g.property? id p = (objects (stated {} us) id p).head?) ∧
    (∀ id p o vs, g.property? id p = some o → (g.applyAll vs).property? id p = some o) ∧
    (∀ id, (g.types id).map some = (objects (stated {} us) id Rdf.type).map g.value?) ∧
    (∀ items vs, items.length < UInt32.size →
      let made := g.apply (.list items)
      (made.2.applyAll vs).listItems? g.size = some (items.takeWhile made.2.contains) ∧
      made.1 = if items.all made.2.contains then .node g.size else .dangling) ∧
    (∀ id, g.kind? id ≠ some .list → g.listItems? id = none) ∧
    ∀ id found, found.Perm (g.outgoing id) →
      (∀ p, Outgoing.values p found = g.properties id p) ∧
      (g.kind? id = some .list → some (Outgoing.items found) = g.listItems? id) := by
  intro g
  have hsound : g.Sound := sound_empty.applyAll us
  have hproperties : ∀ id p, g.properties id p = objects (stated {} us) id p := by
    intro id p
    rw [properties_applyAll distinct_empty, properties_empty, List.nil_append]
  refine ⟨hproperties, fun id p => congrArg List.head? (hproperties id p),
    fun id p o vs h => ((Precedes.refl g).applyAll vs).property? h, fun id => ?_,
    fun items vs hfits => ⟨?_, apply_list_outcome g items⟩, fun id h => if_neg h,
    fun id found h => ⟨values_outgoing h, fun hkind => ?_⟩⟩
  · rw [hsound.closed.types_eq, hproperties]
  · have hlater := (Precedes.refl (g.apply (.list items)).2).applyAll vs
    have hlt : g.size < (g.apply (.list items)).2.size := by
      rw [size_apply_list]
      exact Nat.lt_succ_self _
    rw [hlater.listItems? hlt]
    exact listItems?_apply_list hsound.closed (Nat.le_of_lt hfits)
  · rw [items_outgoing h, listItems?, if_pos hkind]

/-- A node with two values of a predicate, one value that has been refused, and a type. -/
def statedTwice : List Update :=
  [.named "ex:a", .literal "x", .addProperty 0 "ex:p" 1, .addProperty 0 "ex:p" 7,
    .addType 7 "ex:T", .addProperty 0 "ex:p" 2, .addType 0 "ex:T"]

/-- What has been refused is not read, and a list that contains itself, and then something that does not
exist, keeps what comes before. -/
theorem reads_replay_statedTwice :
    let g := applyAll {} statedTwice
    g.properties 0 "ex:p" = [1, 2] ∧ g.types 0 = ["ex:T"] ∧
    (g.applyAll [.addProperty 0 "ex:p" 0]).property? 0 "ex:p" = some 1 ∧
    (g.apply (.list [1, 3, 1, 9, 0])).1 = .dangling ∧
    ((g.apply (.list [1, 3, 1, 9, 0])).2.applyAll [.literal "y", .addProperty 3 "ex:p" 0]).listItems? 3 =
      some [1, 3, 1] ∧
    g.listItems? 0 = none ∧
    Outgoing.values "ex:p" (g.outgoing 0).reverse = [1, 2] := by
  intro g
  obtain ⟨hproperties, -, hfirst, htypes, hlists, hnone, hfound⟩ := reads_replay statedTwice
  have hvalues : g.properties 0 "ex:p" = [1, 2] := by
    rw [hproperties]
    decide +kernel
  have hsize : (applyAll {} statedTwice).size = 3 := by decide +kernel
  have hlist := hlists [1, 3, 1, 9, 0] [.literal "y", .addProperty 3 "ex:p" 0] (by decide)
  refine ⟨hvalues, ?_, hfirst 0 "ex:p" 1 [.addProperty 0 "ex:p" 0] (by decide +kernel), ?_, ?_,
    hnone 0 (by decide +kernel), ?_⟩
  · refine List.map_injective_iff.mpr (Option.some_injective _) ((htypes 0).trans ?_)
    decide +kernel
  · rw [hlist.2]
    decide +kernel
  · have hkept := hlist.1
    rw [hsize] at hkept
    refine hkept.trans ?_
    decide +kernel
  · rw [(hfound 0 (g.outgoing 0).reverse (List.reverse_perm _)).1, hvalues]

end Graph

end Wiring

import Mathlib.Data.Finset.Card
import Mathlib.Data.Finset.Range
import Mathlib.Logic.Relation
import Wiring.Proofs.Growth
import Wiring.Range.Lowering

/-!
# Ranks

A relation between the nodes of a graph without cycles gives ranks that fall along it and are no
higher than the graph is large (`exists_rank`). So a search along paths of the relation that gives up
beyond the size of the graph never gives up.

- `Graph.HasItem` is the membership of lists.
- `Graph.Wraps` relates a range resource to the resources that it is lowered with; a resource from
  which `Wraps` has no cycles can be lowered (`Range.lower_isSome`).
-/

namespace Wiring

open Relation

/-- **A relation without cycles has ranks**, as high as the number of its targets at most. -/
theorem exists_rank {R : Nat → Nat → Prop} {size : Nat} (hbound : ∀ {x y}, R x y → y < size)
    (hacyclic : ∀ x, ¬ TransGen R x x) :
    ∃ rank : Nat → Nat, (∀ x, rank x ≤ size) ∧ ∀ {x y}, R x y → rank y < rank x := by
  classical
  -- the rank of a node is the number of nodes that can be reached from it
  let reached (x : Nat) : Finset Nat := (Finset.range size).filter (TransGen R x)
  refine ⟨fun x => (reached x).card, fun x => ?_, fun {x y} hxy => ?_⟩
  · have h := Finset.card_filter_le (Finset.range size) (TransGen R x)
    rwa [Finset.card_range] at h
  · refine Finset.card_lt_card ((Finset.ssubset_iff_of_subset ?_).mpr ⟨y, ?_, ?_⟩)
    · intro z hz
      obtain ⟨hlt, hyz⟩ := Finset.mem_filter.mp hz
      exact Finset.mem_filter.mpr ⟨hlt, .head hxy hyz⟩
    · exact Finset.mem_filter.mpr ⟨Finset.mem_range.mpr (hbound hxy), .single hxy⟩
    · exact fun hy => hacyclic y (Finset.mem_filter.mp hy).2

/-- A relation that leads from higher to lower nodes has no cycles. -/
theorem acyclic_of_falls {R : Nat → Nat → Prop} (h : ∀ {x y}, R x y → y < x) (x : Nat) :
    ¬ TransGen R x x := by
  have hfalls : ∀ {y}, TransGen R x y → y < x := by
    intro y hpath
    induction hpath with
    | single hxy => exact h hxy
    | tail _ hyz ih => exact Nat.lt_trans (h hyz) ih
  exact fun hcycle => Nat.lt_irrefl x (hfalls hcycle)

namespace Graph

variable {g : Graph}

/-! ## Lists -/

/-- A list has an item. -/
def HasItem (g : Graph) (list item : NodeId) : Prop :=
  ∃ items, g.listItems? list = some items ∧ item ∈ items

theorem mem_insertItem {x item : UInt32 × NodeId} {items : List (UInt32 × NodeId)} :
    x ∈ insertItem item items ↔ x = item ∨ x ∈ items := by
  induction items with
  | nil => simp [insertItem]
  | cons other rest ih =>
    rw [insertItem]
    split
    · rw [List.mem_cons]
    · rw [List.mem_cons, ih, List.mem_cons]
      exact or_left_comm

theorem mem_sortItems {x : UInt32 × NodeId} {items : List (UInt32 × NodeId)} :
    x ∈ sortItems items ↔ x ∈ items := by
  induction items with
  | nil => rfl
  | cons item rest ih =>
    show x ∈ insertItem item (sortItems rest) ↔ _
    rw [mem_insertItem, ih, List.mem_cons]

/-- The items of a list are linked to it. -/
theorem HasItem.link {list item : NodeId} (h : g.HasItem list item) :
    ∃ position, ⟨list, .item position, item⟩ ∈ g.links := by
  obtain ⟨items, hitems, hmem⟩ := h
  rw [listItems?] at hitems
  split at hitems
  · cases hitems
    obtain ⟨⟨position, target⟩, hsorted, rfl⟩ := List.mem_map.mp hmem
    obtain ⟨⟨source, label, target'⟩, hl, hlabel⟩ :=
      List.mem_filterMap.mp (mem_sortItems.mp hsorted)
    dsimp only at hlabel
    split at hlabel
    · rename_i hsource
      subst hsource
      cases label with
      | property p => cases hlabel
      | item n =>
        cases hlabel
        exact ⟨_, Array.mem_toList_iff.mp hl⟩
    · cases hlabel
  · cases hitems

theorem HasItem.lt_size (hclosed : g.Closed) {list item : NodeId} (h : g.HasItem list item) :
    item < g.size := by
  obtain ⟨position, hl⟩ := h.link
  exact (hclosed _ hl).2

/-- Lists whose items are older than they are have no cycles. -/
theorem hasItem_acyclic
    (h : ∀ l ∈ g.links, ∀ position, l.label = .item position → l.target < l.source) (x : NodeId) :
    ¬ TransGen g.HasItem x x := by
  refine acyclic_of_falls (fun {list item} hitem => ?_) x
  obtain ⟨position, hl⟩ := hitem.link
  exact h _ hl position rfl

/-! ## Ranges -/

/-- The values of a predicate are linked to their subject. -/
theorem link_of_mem_properties {id target : NodeId} {p : String} (h : target ∈ g.properties id p) :
    ⟨id, .property p, target⟩ ∈ g.links := by
  obtain ⟨⟨source, label, _⟩, hl, rfl⟩ := List.mem_map.mp h
  obtain ⟨hmem, hlabel⟩ := List.mem_filter.mp hl
  obtain ⟨rfl, rfl⟩ := of_decide_eq_true hlabel
  exact Array.mem_toList_iff.mp hmem

/-- The resources that a range resource is lowered with. -/
def rangeParts (g : Graph) (id : NodeId) : List NodeId :=
  match Shape.ofTypes (g.types id) with
  | some .array | some .rest => (g.property? id Components.parameterRangeValue).toList
  | some .union | some .intersection | some .tuple => g.rangeElements id
  | _ => []

/-- A range resource is lowered with another one. -/
def Wraps (g : Graph) (id part : NodeId) : Prop := part ∈ g.rangeParts id

/-- The elements of a range are values of its elements predicate, or the items of a list that is the
only value. -/
theorem rangeElements_cases {id element : NodeId} (h : element ∈ g.rangeElements id) :
    ∃ target ∈ g.properties id Components.parameterRangeElements,
      element = target ∨ g.HasItem target element := by
  rw [rangeElements] at h
  split at h
  · rename_i single hsingle
    rw [hsingle]
    refine ⟨single, List.mem_cons_self, ?_⟩
    cases hitems : g.listItems? single with
    | none =>
      rw [hitems] at h
      exact .inl (List.mem_singleton.mp h)
    | some items =>
      rw [hitems] at h
      exact .inr ⟨items, hitems, h⟩
  · exact ⟨element, h, .inl rfl⟩

theorem Wraps.target {id part : NodeId} (h : g.Wraps id part) :
    ∃ p, ∃ target ∈ g.properties id p, part = target ∨ g.HasItem target part := by
  rw [Wraps, rangeParts] at h
  split at h
  · exact ⟨_, part, List.mem_of_mem_head? (Option.mem_toList.mp h), .inl rfl⟩
  · exact ⟨_, part, List.mem_of_mem_head? (Option.mem_toList.mp h), .inl rfl⟩
  · exact ⟨_, rangeElements_cases h⟩
  · exact ⟨_, rangeElements_cases h⟩
  · exact ⟨_, rangeElements_cases h⟩
  · cases h

theorem Wraps.lt_size (hclosed : g.Closed) {id part : NodeId} (h : g.Wraps id part) :
    id < g.size ∧ part < g.size := by
  obtain ⟨p, target, htarget, hpart⟩ := h.target
  obtain ⟨hid, hlt⟩ := hclosed _ (link_of_mem_properties htarget)
  refine ⟨hid, ?_⟩
  rcases hpart with rfl | hitem
  · exact hlt
  · exact hitem.lt_size hclosed

end Graph

namespace Range

variable {g : Graph} {α β : Type}

theorem isSome_map {a : Lowered α} (f : α → β) (h : a.run.isSome) : (f <$> a).run.isSome := by
  match a with
  | some (.ok x) => rfl
  | some (.error e) => rfl

theorem isSome_mapM {next : NodeId → Lowered α} {ids : List NodeId}
    (h : ∀ id ∈ ids, (next id).run.isSome) : (ids.mapM next).run.isSome := by
  induction ids with
  | nil => rfl
  | cons id ids ih =>
    rw [List.mapM_cons, ExceptT.run_bind]
    obtain ⟨head, hhead⟩ := Option.isSome_iff_exists.mp (h id List.mem_cons_self)
    rw [hhead]
    cases head with
    | error e => rfl
    | ok a => exact isSome_map (a :: ·) (ih fun d hd => h d (List.mem_cons_of_mem _ hd))

/-- Lowering gets to an end along paths of falling ranks. -/
theorem lowerWithin_isSome {C : NodeId → Prop} (rank : NodeId → Nat)
    (hC : ∀ {id part}, C id → g.Wraps id part → C part ∧ rank part < rank id) {limit : Nat}
    {id : NodeId} (hid : C id) (hlimit : rank id < limit) : (lowerWithin g limit id).run.isSome := by
  induction limit generalizing id with
  | zero => exact absurd hlimit (Nat.not_lt_zero _)
  | succ limit ih =>
    have hpart : ∀ part ∈ g.rangeParts id, (lowerWithin g limit part).run.isSome := by
      intro part hmem
      obtain ⟨hpart, hless⟩ := hC hid hmem
      exact ih hpart (Nat.lt_of_lt_of_le hless (Nat.le_of_lt_succ hlimit))
    have hvalue : g.rangeParts id = (g.property? id Components.parameterRangeValue).toList →
        ∀ t, (lowerValue g (lowerWithin g limit) id t).run.isSome := by
      intro hparts t
      rw [lowerValue]
      split
      · rfl
      · rename_i value hvalue
        refine hpart value ?_
        rw [hparts, hvalue]
        exact List.mem_singleton_self value
    have helements : g.rangeParts id = g.rangeElements id →
        (lowerElements g (lowerWithin g limit) id).run.isSome :=
      fun hparts => isSome_mapM (hparts ▸ hpart)
    rw [lowerWithin]
    split
    · rfl
    · rename_i t _
      split
      · rfl
      · rfl
      · rename_i hshape
        exact isSome_map _ (hvalue (by rw [Graph.rangeParts, hshape]) t)
      · rename_i hshape
        exact isSome_map _ (hvalue (by rw [Graph.rangeParts, hshape]) t)
      · rename_i hshape
        exact isSome_map _ (helements (by rw [Graph.rangeParts, hshape]))
      · rename_i hshape
        exact isSome_map _ (helements (by rw [Graph.rangeParts, hshape]))
      · rename_i hshape
        exact isSome_map _ (helements (by rw [Graph.rangeParts, hshape]))
      · rw [lowerLiteral]
        split <;> rfl
      · rfl

/-- **A range resource can be lowered** if no cycle of wrapped resources is reached from it. -/
theorem lower_isSome (hclosed : g.Closed) {id : NodeId}
    (hacyclic : ∀ x, ReflTransGen g.Wraps id x → ¬ TransGen g.Wraps x x) :
    (lower g id).run.isSome := by
  let C (x : NodeId) : Prop := ReflTransGen g.Wraps id x
  -- what is not reached from the resource does not matter
  let R (x y : NodeId) : Prop := C x ∧ g.Wraps x y
  have hcycle : ∀ x, ¬ TransGen R x x := by
    intro x hx
    have hreached : C x := by
      obtain ⟨y, hxy, -⟩ := TransGen.head'_iff.mp hx
      exact hxy.1
    exact hacyclic x hreached (hx.lift (fun x => x) fun _ _ h => h.2)
  obtain ⟨rank, hsize, hfalls⟩ := exists_rank (R := R) (fun h => (h.2.lt_size hclosed).2) hcycle
  exact lowerWithin_isSome (C := C) rank (fun hx hxy => ⟨hx.tail hxy, hfalls ⟨hx, hxy⟩⟩) .refl
    (Nat.lt_succ_of_le (hsize id))

end Range

/-- A parameter can be lowered if its range can. -/
theorem Parameter.ofNode_isSome {g : Graph} {id : NodeId}
    (h : ∀ range, g.property? id Rdfs.range = some range → (Range.lower g range).run.isSome) :
    (Parameter.ofNode g id).run.isSome := by
  rw [Parameter.ofNode]
  split
  · rfl
  · rename_i range hrange
    exact Range.isSome_map (Parameter.mk _) (h range hrange)

end Wiring

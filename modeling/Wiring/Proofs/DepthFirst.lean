import Mathlib.Data.List.Nodup
import Mathlib.Data.List.Perm.Subperm
import Mathlib.Tactic.ByContra
import Wiring.Proofs.Agreement

/-!
# Dependencies in depth-first order

Depth-first search through the dependencies of configs, as a relation (`Graph.DepthFirst`): each node
is discovered once, at its first mention, together with the path of nodes whose dependencies are
being searched at that time. The order of discovery is one list (`DepthFirst.unique`), it has no node
twice, and from a node it finds exactly what can be reached (`Graph.exists_depthFirst`).

The search is over the graph alone and says nothing of pools.
-/

namespace Wiring

/-- A node as it is discovered. -/
structure Discovery where
  node : NodeId
  /-- The nodes whose dependencies are being searched, from the nearest to the first. -/
  path : List NodeId
deriving DecidableEq, Repr

/-- The nodes that have been discovered, in order. -/
abbrev discovered (found : List Discovery) : List NodeId := found.map (·.node)

section Discovered

variable {found : List Discovery} {d : NodeId} {path : List NodeId}

theorem forall_discovered_concat {P : NodeId → Prop} (hfound : ∀ x ∈ discovered found, P x)
    (hd : P d) : ∀ x ∈ discovered (found ++ [⟨d, path⟩]), P x := by
  intro x hx
  rw [discovered, List.map_append] at hx
  rcases List.mem_append.mp hx with hx | hx
  · exact hfound x hx
  · exact List.mem_singleton.mp hx ▸ hd

theorem nodup_discovered_concat (hfound : (discovered found).Nodup) (hnew : d ∉ discovered found) :
    (discovered (found ++ [⟨d, path⟩])).Nodup := by
  rw [discovered, List.map_append]
  exact List.Nodup.append hfound (List.nodup_singleton _) (by simpa using hnew)

end Discovered

namespace Graph

/-- Depth-first search among some nodes, and among all that they depend on: what has been found
before, and what has been found in the end. -/
inductive DepthFirst (g : Graph) :
    (path : List NodeId) → List NodeId → List Discovery → List Discovery → Prop
  | nil {path found} : DepthFirst g path [] found found
  | known {path d ds found found'} (seen : d ∈ discovered found)
      (rest : DepthFirst g path ds found found') : DepthFirst g path (d :: ds) found found'
  | new {path d ds found found₁ found'} (unseen : d ∉ discovered found)
      (inner : DepthFirst g (d :: path) (g.properties d Dependency.dep) (found ++ [⟨d, path⟩]) found₁)
      (rest : DepthFirst g path ds found₁ found') : DepthFirst g path (d :: ds) found found'

variable {g : Graph} {path todo : List NodeId} {found found' found₁ : List Discovery}

namespace DepthFirst

/-- The order of discovery is determined. -/
theorem unique (h : g.DepthFirst path todo found found') (h₁ : g.DepthFirst path todo found found₁) :
    found₁ = found' := by
  induction h generalizing found₁ with
  | nil =>
    cases h₁
    rfl
  | known seen _ ih =>
    cases h₁ with
    | known _ rest => exact ih rest
    | new unseen _ _ => exact absurd seen unseen
  | new unseen _ _ ihi ihr =>
    cases h₁ with
    | known seen _ => exact absurd seen unseen
    | new _ inner rest =>
      obtain rfl := ihi inner
      exact ihr rest

/-- Discoveries stay, in their order. -/
theorem isPrefix (h : g.DepthFirst path todo found found') : found <+: found' := by
  induction h with
  | nil => exact List.prefix_refl _
  | known _ _ ih => exact ih
  | new _ _ _ ihi ihr => exact ((List.prefix_append _ _).trans ihi).trans ihr

theorem mono {l l' : List Discovery} (h : l <+: l') {x : NodeId} (hx : x ∈ discovered l) :
    x ∈ discovered l' := by
  obtain ⟨d, hd, rfl⟩ := List.mem_map.mp hx
  exact List.mem_map_of_mem (h.subset hd)

/-- What is searched for is found. -/
theorem todo_subset (h : g.DepthFirst path todo found found') : ∀ d ∈ todo, d ∈ discovered found' := by
  induction h with
  | nil => exact fun d hd => absurd hd List.not_mem_nil
  | known seen rest ih =>
    intro x hx
    rcases List.mem_cons.mp hx with rfl | hx
    · exact mono rest.isPrefix seen
    · exact ih x hx
  | @new path d ds found found₁ found' unseen inner rest _ ih =>
    intro x hx
    rcases List.mem_cons.mp hx with rfl | hx
    · have hlast : x ∈ discovered (found ++ [⟨x, path⟩]) := by simp
      exact mono (inner.isPrefix.trans rest.isPrefix) hlast
    · exact ih x hx

/-- The dependencies of what is found are found. -/
theorem dependencies_subset (h : g.DepthFirst path todo found found') :
    ∀ x ∈ found', x ∉ found → ∀ d ∈ g.properties x.node Dependency.dep, d ∈ discovered found' := by
  induction h with
  | nil => exact fun x hx hnew => absurd hx hnew
  | known _ _ ih => exact ih
  | @new path d ds found found₁ found' _ inner rest ihi ihr =>
    intro x hx hnew e he
    by_cases hinner : x ∈ found₁
    · by_cases hbefore : x ∈ found ++ [⟨d, path⟩]
      · -- the discovery itself, whose dependencies are searched at once
        obtain rfl : x = ⟨d, path⟩ := by simpa [hnew] using hbefore
        exact mono rest.isPrefix (inner.todo_subset e he)
      · exact mono rest.isPrefix (ihi x hinner hbefore e he)
    · exact ihr x hx hinner e he

/-- No node is discovered twice. -/
theorem nodup (h : g.DepthFirst path todo found found') (hfound : (discovered found).Nodup) :
    (discovered found').Nodup := by
  induction h with
  | nil => exact hfound
  | known _ _ ih => exact ih hfound
  | new unseen _ _ ihi ihr => exact ihr (ihi (nodup_discovered_concat hfound unseen))

/-- Only what can be reached is found. -/
theorem sound {P : NodeId → Prop} (h : g.DepthFirst path todo found found')
    (hstep : ∀ x, P x → ∀ d ∈ g.properties x Dependency.dep, P d)
    (hfound : ∀ x ∈ discovered found, P x) (htodo : ∀ d ∈ todo, P d) :
    ∀ x ∈ discovered found', P x := by
  induction h with
  | nil => exact hfound
  | known _ _ ih => exact ih hfound fun d hd => htodo d (List.mem_cons_of_mem _ hd)
  | @new path d ds found found₁ found' _ _ _ ihi ihr =>
    have hd := htodo d List.mem_cons_self
    exact ihr (ihi (forall_discovered_concat hfound hd) (hstep d hd))
      fun d hd => htodo d (List.mem_cons_of_mem _ hd)

end DepthFirst

/-- Nodes that are found are nodes of the graph, and none is found twice, so there are not too many. -/
theorem length_lt_size {size : Nat} {d : NodeId} (hfound : ∀ x ∈ discovered found, x < size)
    (hnodup : (discovered found).Nodup) (hd : d < size) (hnew : d ∉ discovered found) :
    found.length < size := by
  have hsub : d :: discovered found ⊆ List.range size := by
    intro x hx
    rw [List.mem_range]
    rcases List.mem_cons.mp hx with rfl | hx
    · exact hd
    · exact hfound x hx
  have := ((List.nodup_cons.mpr ⟨hnew, hnodup⟩).subperm hsub).length_le
  rwa [List.length_cons, List.length_map, List.length_range] at this

/-- The search ends: there is an order of discovery. -/
theorem exists_depthFirst {P : NodeId → Prop} (hsize : ∀ x, P x → x < g.size)
    (hstep : ∀ x, P x → ∀ d ∈ g.properties x Dependency.dep, P d) (path : List NodeId)
    (hfound : ∀ x ∈ discovered found, P x) (htodo : ∀ d ∈ todo, P d)
    (hnodup : (discovered found).Nodup) : ∃ found', g.DepthFirst path todo found found' := by
  -- by induction on the number of nodes that are not found yet, and then along the list
  obtain ⟨left, hleft⟩ : ∃ left, g.size ≤ found.length + left := ⟨g.size, Nat.le_add_left _ _⟩
  induction left generalizing path todo found with
  | zero =>
    induction todo with
    | nil => exact ⟨found, .nil⟩
    | cons d ds ih =>
      obtain ⟨found', hrest⟩ := ih fun d hd => htodo d (List.mem_cons_of_mem _ hd)
      refine ⟨found', .known ?_ hrest⟩
      by_contra hnew
      have := length_lt_size (fun x hx => hsize x (hfound x hx)) hnodup
        (hsize d (htodo d List.mem_cons_self)) hnew
      omega
  | succ left ihleft =>
    induction todo generalizing found with
    | nil => exact ⟨found, .nil⟩
    | cons d ds ih =>
      have hd := htodo d List.mem_cons_self
      have hds : ∀ d ∈ ds, P d := fun d hd => htodo d (List.mem_cons_of_mem _ hd)
      by_cases hnew : d ∈ discovered found
      · obtain ⟨found', hrest⟩ := ih hfound hds hnodup hleft
        exact ⟨found', .known hnew hrest⟩
      · have hfound₁ : ∀ x ∈ discovered (found ++ [⟨d, path⟩]), P x :=
          forall_discovered_concat hfound hd
        have hnodup₁ : (discovered (found ++ [⟨d, path⟩])).Nodup :=
          nodup_discovered_concat hnodup hnew
        obtain ⟨found₁, hinner⟩ := ihleft (d :: path) hfound₁ (hstep d hd) hnodup₁
          (by rw [List.length_append, List.length_singleton]; omega)
        have hlength := hinner.isPrefix.length_le
        rw [List.length_append, List.length_singleton] at hlength
        obtain ⟨found', hrest⟩ := ih (hinner.sound hstep hfound₁ (hstep d hd)) hds
          (hinner.nodup hnodup₁) (by omega)
        exact ⟨found', .new hnew hinner hrest⟩

/-- From a node all that can be reached is found. -/
theorem DepthFirst.mem_iff {root : NodeId} (h : g.DepthFirst [] [root] [] found) (x : NodeId) :
    x ∈ discovered found ↔ g.Reaches [root] x := by
  constructor
  · refine h.sound (fun x hx d hd => hx.step hd) (fun x hx => absurd hx List.not_mem_nil) ?_ x
    intro d hd
    exact ⟨d, hd, .refl⟩
  · rintro ⟨y, hy, hpath⟩
    induction hpath with
    | refl => exact h.todo_subset y hy
    | tail _ hstep ih =>
      obtain ⟨d, hd, rfl⟩ := List.mem_map.mp ih
      exact h.dependencies_subset d hd List.not_mem_nil _ hstep

end Graph

end Wiring

import Wiring.Proofs.Trials

/-!
# Nested lists of literals

A `Nesting` is what a graph shows below a node, if there are only lists down to literals, and no type
tags (`Graph.Nests`). A node may occur in it more than once, but never below itself, so the lists are
nested less deep than the graph is large (`Graph.exists_rank_nests`).

A range without strings (`Range.isStringFree`) accepts such a value only by its literals:

- `Range.trial_congr`: what a trial does depends on the nesting alone, not on the graph around it;
- `Range.trial_covers`: if it succeeds, it has left a value on every literal, however many options or
  rest entries have been tried and failed before;
- `Range.verdict_arrays`: arrays of arrays of a primitive accept the literals that are nested just as
  deep, if the primitive accepts all of them.
-/

namespace Wiring

open Relation

/-- Lists, nested in each other, down to literals: the nodes with their terms. -/
inductive Nesting where
  | leaf (id : NodeId) (t : Term)
  | list (id : NodeId) (t : Term) (items : List Nesting)

namespace Nesting

/-- The node. -/
def root : Nesting → NodeId
  | .leaf id _ => id
  | .list id _ _ => id

/-- The term of the node. -/
def term : Nesting → Term
  | .leaf _ t => t
  | .list _ t _ => t

mutual

/-- The literals, in order, each as often as it occurs. -/
def leaves : Nesting → List (NodeId × Term)
  | .leaf id t => [(id, t)]
  | .list _ _ items => eachLeaves items

/-- The literals of all members. -/
def eachLeaves : List Nesting → List (NodeId × Term)
  | [] => []
  | n :: ns => n.leaves ++ eachLeaves ns

end

mutual

/-- Arrays that are nested in the same way, with something in the place of each literal. -/
def json (leaf : NodeId → Json) : Nesting → Json
  | .leaf id _ => leaf id
  | .list _ _ items => .arr (jsonEach leaf items)

/-- The JSON of all members. -/
def jsonEach (leaf : NodeId → Json) : List Nesting → List Json
  | [] => []
  | n :: ns => n.json leaf :: jsonEach leaf ns

end

/-- Arrays that are nested in the same way, with every literal read as one of these primitives. -/
def ReadsAs (n : Nesting) (ps : List Primitive) (j : Json) : Prop :=
  ∃ leaf, j = n.json leaf ∧ ∀ l ∈ n.leaves, ∃ p ∈ ps, ∃ v,
    p.coerce l.2.value = some (some v) ∧ leaf l.1 = v.toJson

/-- All nodes at lower levels are lists, and those at this level are literals. -/
def Uniform : (level : Nat) → Nesting → Prop
  | 0, .leaf _ _ => True
  | level + 1, .list _ _ items => ∀ n ∈ items, n.Uniform level
  | _, _ => False

/-- How messages show it: a list by the values of its items. -/
def shown : Nesting → String
  | .leaf _ t => t.value
  | .list _ _ items => "[" ++ ", ".intercalate (items.map (·.term.value)) ++ "]"

theorem mem_eachLeaves {l : NodeId × Term} {ns : List Nesting} :
    l ∈ eachLeaves ns ↔ ∃ n ∈ ns, l ∈ n.leaves := by
  induction ns with
  | nil => simp [eachLeaves]
  | cons n ns ih => simp [eachLeaves, ih]

theorem jsonEach_eq_map (leaf : NodeId → Json) (ns : List Nesting) :
    jsonEach leaf ns = ns.map (json leaf) := by
  induction ns with
  | nil => rfl
  | cons n ns ih => rw [jsonEach, ih, List.map_cons]

/-- Lists of nestings are equal if their nodes are, and nestings of one node are. -/
theorem eq_of_roots {ns ms : List Nesting} (hroots : ns.map root = ms.map root)
    (h : ∀ n ∈ ns, ∀ m ∈ ms, n.root = m.root → n = m) : ns = ms := by
  induction ns generalizing ms with
  | nil => exact (List.map_eq_nil_iff.mp hroots.symm).symm
  | cons n ns ih =>
    cases ms with
    | nil => cases hroots
    | cons m ms =>
      obtain ⟨hhead, htail⟩ := List.cons.inj hroots
      rw [h n List.mem_cons_self m List.mem_cons_self hhead, ih htail fun n hn m hm =>
        h n (List.mem_cons_of_mem _ hn) m (List.mem_cons_of_mem _ hm)]

end Nesting

namespace Graph

/-- The graph shows a nesting: its literals, its lists with their items, and no types. -/
inductive Nests (g : Graph) : Nesting → Prop
  | leaf {id t} (term : g.term? id = some t) (kind : t.kind = .literal)
      (untyped : g.types id = []) : Nests g (.leaf id t)
  | list {id t items} (term : g.term? id = some t) (kind : t.kind = .list)
      (untyped : g.types id = []) (listed : g.listItems? id = some (items.map Nesting.root))
      (each : ∀ n ∈ items, Nests g n) : Nests g (.list id t items)

variable {g g' : Graph} {n m : Nesting}

namespace Nests

theorem term?_eq (h : g.Nests n) : g.term? n.root = some n.term := by
  cases h with
  | leaf term => exact term
  | list term => exact term

theorem types_eq (h : g.Nests n) : g.types n.root = [] := by
  cases h with
  | leaf _ _ untyped => exact untyped
  | list _ _ untyped => exact untyped

theorem isA_eq (h : g.Nests n) (iri : String) : g.isA n.root iri = false := by
  simp [isA, h.types_eq]

theorem isVariable_eq (h : g.Nests n) : g.isVariable n.root = false := by
  have hkind : g.kind? n.root ≠ some .placeholder := by
    cases h with
    | leaf term kind => simp [kind?, Nesting.root, term, kind]
    | list term kind => simp [kind?, Nesting.root, term, kind]
  simp [isVariable, hkind, h.isA_eq]

theorem listItems?_leaf {id : NodeId} {t : Term} (h : g.Nests (.leaf id t)) :
    g.listItems? id = none := by
  cases h with
  | leaf term kind => simp [listItems?, kind?, term, kind]

theorem listItems?_list {id : NodeId} {t : Term} {items : List Nesting}
    (h : g.Nests (.list id t items)) : g.listItems? id = some (items.map Nesting.root) := by
  cases h with
  | list _ _ _ listed => exact listed

theorem each {id : NodeId} {t : Term} {items : List Nesting} (h : g.Nests (.list id t items)) :
    ∀ n ∈ items, g.Nests n := by
  cases h with
  | list _ _ _ _ each => exact each

/-- Literals of the nesting are literals of the graph. -/
theorem term?_leaf (h : g.Nests n) : ∀ l ∈ n.leaves, g.term? l.1 = some l.2 := by
  induction h with
  | leaf term =>
    intro l hl
    cases List.mem_singleton.mp hl
    exact term
  | list _ _ _ _ _ ih =>
    intro l hl
    obtain ⟨n, hn, hl⟩ := Nesting.mem_eachLeaves.mp hl
    exact ih n hn l hl

/-- **A node shows one nesting at most.** -/
theorem unique (h : g.Nests n) (h' : g.Nests m) (hroot : n.root = m.root) : n = m := by
  induction h generalizing m with
  | @leaf id t term kind =>
    cases h' with
    | leaf term' =>
      obtain rfl : id = _ := hroot
      rw [term] at term'
      cases term'
      rfl
    | list term' kind' =>
      obtain rfl : id = _ := hroot
      rw [term] at term'
      cases term'
      rw [kind] at kind'
      cases kind'
  | @list id t items term kind untyped listed each ih =>
    cases h' with
    | leaf term' kind' =>
      obtain rfl : id = _ := hroot
      rw [term] at term'
      cases term'
      rw [kind] at kind'
      cases kind'
    | @list id' t' items' term' kind' untyped' listed' each' =>
      obtain rfl : id = id' := hroot
      rw [term] at term'
      cases term'
      rw [listed, Option.some.injEq] at listed'
      rw [Nesting.eq_of_roots listed' fun n hn m hm => ih n hn (each' m hm)]

end Nests

/-- **Nestings have ranks**, no higher than the graph is large. -/
theorem exists_rank_nests (g : Graph) : ∃ rank : NodeId → Nat, (∀ id, rank id ≤ g.size) ∧
    ∀ {id t items}, g.Nests (.list id t items) → ∀ n ∈ items, rank n.root < rank id := by
  -- a path from a list to an item leads to a smaller nesting
  let R (x y : NodeId) : Prop := ∃ t items, g.Nests (.list x t items) ∧ ∃ n ∈ items, n.root = y
  have hstep : ∀ {m : Nesting} {y}, g.Nests m → R m.root y →
      ∃ n, g.Nests n ∧ n.root = y ∧ sizeOf n < sizeOf m := by
    rintro m y hm ⟨t, items, hlist, n, hn, rfl⟩
    have hsize : sizeOf m = sizeOf (Nesting.list m.root t items) :=
      congrArg sizeOf (hm.unique hlist rfl)
    have hless := List.sizeOf_lt_of_mem hn
    refine ⟨n, hlist.each n hn, rfl, ?_⟩
    simp only [Nesting.list.sizeOf_spec] at hsize
    omega
  have hpath : ∀ {m : Nesting} {y}, g.Nests m → TransGen R m.root y →
      ∃ n, g.Nests n ∧ n.root = y ∧ sizeOf n < sizeOf m := by
    intro m y hm h
    induction h with
    | single h => exact hstep hm h
    | tail _ h ih =>
      obtain ⟨n, hn, rfl, hless⟩ := ih
      obtain ⟨k, hk, hroot, hk'⟩ := hstep hn h
      exact ⟨k, hk, hroot, Nat.lt_trans hk' hless⟩
  have hbound : ∀ {x y}, R x y → y < g.size := by
    rintro x y ⟨t, items, hlist, n, hn, rfl⟩
    exact term?_isSome.mp (by rw [(hlist.each n hn).term?_eq]; rfl)
  obtain ⟨rank, hle, hfalls⟩ := exists_rank hbound fun x hcycle => by
    obtain ⟨y, ⟨t, items, hlist, -⟩, -⟩ := TransGen.head'_iff.mp hcycle
    obtain ⟨n, hn, hroot, hless⟩ := hpath hlist hcycle
    rw [hn.unique hlist hroot] at hless
    exact Nat.lt_irrefl _ hless
  exact ⟨rank, hle, fun hlist n hn => hfalls ⟨_, _, hlist, n, hn, rfl⟩⟩

end Graph

namespace Trial

variable {f f' : NodeId → Trial} {items : List NodeId}

theorem allOf_congr (h : ∀ item ∈ items, f item = f' item) : allOf f items = allOf f' items := by
  induction items with
  | nil => rfl
  | cons item items ih =>
    rw [List.forall_mem_cons] at h
    rw [allOf, allOf, h.1, ih h.2]

theorem dropAccepted_congr (h : ∀ item ∈ items, f item = f' item) :
    dropAccepted f items = dropAccepted f' items := by
  induction items with
  | nil => rfl
  | cons item items ih =>
    rw [List.forall_mem_cons] at h
    rw [dropAccepted, dropAccepted, h.1, ih h.2]

end Trial

namespace Range

/-! ## Ranges without strings -/

mutual

/-- Whether a range is made of primitives other than strings, arrays, tuples, rest entries, unions, and
intersections of something. -/
def isStringFree : Range → Bool
  | .type iri => (Primitive.ofIri? iri).any (· ≠ .string)
  | .array element => element.isStringFree
  | .rest element => element.isStringFree
  | .tuple entries => eachStringFree entries
  | .union options => eachStringFree options
  | .intersection options => !options.isEmpty && eachStringFree options
  | _ => false

/-- Whether all members are. -/
def eachStringFree : List Range → Bool
  | [] => true
  | r :: rs => r.isStringFree && eachStringFree rs

end

/-- Arrays of arrays, so many levels of them. -/
def arrays : (level : Nat) → Range → Range
  | 0, r => r
  | level + 1, r => .array (arrays level r)

theorem primitives_arrays (level : Nat) (r : Range) : (arrays level r).primitives = r.primitives := by
  induction level with
  | zero => rfl
  | succ level ih => rw [arrays, primitives, ih]

/-! ## Trials of nestings -/

variable {g g' : Graph}

/-- Two graphs show the same at some nodes, and the items of lists there are among them. -/
structure Alike (g g' : Graph) (S : NodeId → Prop) : Prop where
  term : ∀ {id}, S id → g'.term? id = g.term? id
  isVariable : ∀ {id}, S id → g'.isVariable id = g.isVariable id
  isA : ∀ {id}, S id → ∀ iri, g'.isA id iri = g.isA id iri
  listItems : ∀ {id}, S id → g'.listItems? id = g.listItems? id
  items : ∀ {id items}, S id → g.listItems? id = some items → ∀ item ∈ items, S item

variable {S : NodeId → Prop}

mutual

theorem trial_alike (h : Alike g g' S) : ∀ (r : Range) {id : NodeId}, S id →
    trial g' r (some id) = trial g r (some id)
  | .any, id, hid => by rw [trial, trial]
  | .collectEntries, id, hid => by rw [trial, trial]
  | .undefined, id, hid => by
    have hsome : (g.term? id).isSome = (g'.term? id).isSome := by rw [h.term hid]
    have hcontains : g'.contains id = g.contains id := by
      rw [Bool.eq_iff_iff]
      simp only [Graph.contains, decide_eq_true_eq, ← Graph.term?_isSome, hsome]
    simp only [trial, Option.all_some, hcontains, h.isVariable hid]
  | .union options, id, hid => by
    simp only [trial, Option.any_some, h.isVariable hid, trialSome_alike h options hid]
  | .intersection options, id, hid => by
    simp only [trial, Option.any_some, h.isVariable hid, trialEvery_alike h options hid]
  | .literal t, id, hid => by simp only [trial, h.isVariable hid, h.term hid]
  | .type iri, id, hid => by simp only [trial, trialType, h.term hid, h.isVariable hid, h.isA hid]
  | .array element, id, hid => by
    simp only [trial, h.isVariable hid, h.listItems hid]
    split
    · rfl
    · split
      · rfl
      · rename_i items hitems
        exact Trial.allOf_congr fun item hitem => trial_alike h element (h.items hid hitems item hitem)
  | .rest _, id, hid => by simp only [trial, Option.any_some, h.isVariable hid]
  | .tuple entries, id, hid => by
    simp only [trial, h.isVariable hid, h.listItems hid]
    split
    · rfl
    · split
      · rfl
      · rename_i items hitems
        exact trialEntries_alike h entries (h.items hid hitems)

theorem trialSome_alike (h : Alike g g' S) : ∀ (rs : List Range) {id : NodeId}, S id →
    trialSome g' rs (some id) = trialSome g rs (some id)
  | [], _, _ => by rw [trialSome, trialSome]
  | r :: rs, id, hid => by rw [trialSome, trialSome, trial_alike h r hid, trialSome_alike h rs hid]

theorem trialEvery_alike (h : Alike g g' S) : ∀ (rs : List Range) {id : NodeId}, S id →
    trialEvery g' rs (some id) = trialEvery g rs (some id)
  | [], _, _ => by rw [trialEvery, trialEvery]
  | r :: rs, id, hid => by rw [trialEvery, trialEvery, trial_alike h r hid, trialEvery_alike h rs hid]

theorem trialEntries_alike (h : Alike g g' S) : ∀ (entries : List Range) {items : List NodeId},
    (∀ item ∈ items, S item) → trialEntries g' entries items = trialEntries g entries items
  | [], _, _ => by rw [trialEntries, trialEntries]
  | entry :: entries, items, hitems => by
    cases hrest : entry.isRest with
    | true =>
      obtain ⟨element, rfl⟩ := eq_rest_of_isRest hrest
      have hdropped : Trial.dropAccepted (fun item => trial g' element (some item)) items =
          Trial.dropAccepted (fun item => trial g element (some item)) items :=
        Trial.dropAccepted_congr fun item hitem => trial_alike h element (hitems item hitem)
      have hleft : ∀ item ∈ (Trial.dropAccepted (fun item => trial g element (some item)) items).1,
          S item := fun item hitem => hitems item (Trial.dropAccepted_subset _ _ hitem)
      rw [trialEntries, trialEntries, hdropped, trialEntries_alike h entries hleft]
    | false =>
      cases items with
      | nil => rw [trialEntries_nil g hrest, trialEntries_nil g' hrest]
      | cons item items =>
        rw [List.forall_mem_cons] at hitems
        rw [trialEntries_cons g hrest, trialEntries_cons g' hrest, trial_alike h entry hitems.1,
          trialEntries_alike h entries hitems.2]

end

/-- Graphs that show the same nestings are alike there. -/
theorem alike_nests (g g' : Graph) :
    Alike g g' fun id => ∃ n, g.Nests n ∧ g'.Nests n ∧ n.root = id where
  term := by
    rintro _ ⟨n, hn, hn', rfl⟩
    rw [hn.term?_eq, hn'.term?_eq]
  isVariable := by
    rintro _ ⟨n, hn, hn', rfl⟩
    rw [hn.isVariable_eq, hn'.isVariable_eq]
  isA := by
    rintro _ ⟨n, hn, hn', rfl⟩ iri
    rw [hn.isA_eq, hn'.isA_eq]
  listItems := by
    rintro _ ⟨n, hn, hn', rfl⟩
    cases n with
    | leaf id t => exact hn'.listItems?_leaf.trans hn.listItems?_leaf.symm
    | list id t items => exact hn'.listItems?_list.trans hn.listItems?_list.symm
  items := by
    rintro _ items ⟨n, hn, hn', rfl⟩ hitems item hitem
    cases n with
    | leaf id t =>
      cases hn.listItems?_leaf.symm.trans hitems
    | list id t members =>
      cases hn.listItems?_list.symm.trans hitems
      obtain ⟨m, hm, rfl⟩ := List.mem_map.mp hitem
      exact ⟨m, hn.each m hm, hn'.each m hm, rfl⟩

/-- **Trials of a nesting do not depend on the graph** that it is shown by. -/
theorem trial_congr (r : Range) {n : Nesting} (hn : g.Nests n) (hn' : g'.Nests n) :
    trial g' r (some n.root) = trial g r (some n.root) :=
  trial_alike (alike_nests g g') r ⟨n, hn, hn', rfl⟩

section

variable {id : NodeId} {t : Term} {items : List Nesting}

theorem trial_type_leaf (hn : g.Nests (.leaf id t)) {iri : String} {p : Primitive}
    (hp : Primitive.ofIri? iri = some p) :
    trial g (.type iri) (some id) = Trial.literalText id p t.value := by
  cases hn with
  | leaf term kind => simp [trial, trialType, term, kind, hp]

theorem trial_type_list (hn : g.Nests (.list id t items)) {iri : String}
    (hiri : (type iri).isStringFree = true) : trial g (.type iri) (some id) = ⟨false, []⟩ := by
  have hvariable : g.isVariable id = false := hn.isVariable_eq
  have hisA : g.isA id iri = false := hn.isA_eq iri
  cases hn with
  | list term kind =>
    obtain ⟨p, hp, hne⟩ := (Option.any_eq_true _ _).mp hiri
    cases p <;> simp_all [trial, trialType]

theorem trial_array_leaf (hn : g.Nests (.leaf id t)) (element : Range) :
    trial g (.array element) (some id) = ⟨false, []⟩ := by
  have hvariable : g.isVariable id = false := hn.isVariable_eq
  simp [trial, hvariable, hn.listItems?_leaf]

theorem trial_array_list (hn : g.Nests (.list id t items)) (element : Range) :
    trial g (.array element) (some id) =
      Trial.allOf (fun item => trial g element (some item)) (items.map Nesting.root) := by
  have hvariable : g.isVariable id = false := hn.isVariable_eq
  simp [trial, hvariable, hn.listItems?_list]

theorem trial_tuple_leaf (hn : g.Nests (.leaf id t)) (entries : List Range) :
    trial g (.tuple entries) (some id) = ⟨false, []⟩ := by
  have hvariable : g.isVariable id = false := hn.isVariable_eq
  simp [trial, hvariable, hn.listItems?_leaf]

theorem trial_tuple_list (hn : g.Nests (.list id t items)) (entries : List Range) :
    trial g (.tuple entries) (some id) = trialEntries g entries (items.map Nesting.root) := by
  have hvariable : g.isVariable id = false := hn.isVariable_eq
  simp [trial, hvariable, hn.listItems?_list]

end

/-! ### Every literal gets a value -/

/-- Something is left on every literal. -/
def Covers (ws : Writes) (n : Nesting) : Prop := ∀ l ∈ n.leaves, ∃ v, (l.1, v) ∈ ws

theorem Covers.mono {ws ws' : Writes} {n : Nesting} (h : Covers ws n) (hsub : ws ⊆ ws') :
    Covers ws' n := by
  intro l hl
  obtain ⟨v, hv⟩ := h l hl
  exact ⟨v, hsub hv⟩

/-- Accepting a literal as anything but a string leaves a value on it. -/
theorem covers_literalText {id : NodeId} {t : Term} {p : Primitive} (hp : p ≠ .string)
    (h : (Trial.literalText id p t.value).verdict = true) :
    Covers (Trial.literalText id p t.value).writes (.leaf id t) := by
  intro l hl
  cases List.mem_singleton.mp hl
  rw [Trial.literalText] at h ⊢
  split at h
  · cases h
  · rename_i hcoerce
    exact absurd (Primitive.eq_string_of_coerce_eq hcoerce) hp
  · rename_i v hv
    exact ⟨v, List.mem_singleton.mpr rfl⟩

mutual

/-- **A trial that succeeds leaves a value on every literal.** -/
theorem trial_covers : ∀ {r : Range} {n : Nesting}, r.isStringFree = true → g.Nests n →
    (trial g r (some n.root)).verdict = true → Covers (trial g r (some n.root)).writes n
  | .type iri, .leaf id t, hr, hn, h => by
    obtain ⟨p, hp, hne⟩ := (Option.any_eq_true _ _).mp hr
    simp only [Nesting.root, trial_type_leaf hn hp] at h ⊢
    exact covers_literalText (of_decide_eq_true hne) h
  | .type iri, .list id t items, hr, hn, h => by
    simp only [Nesting.root, trial_type_list hn hr] at h
    cases h
  | .array element, .leaf id t, _, hn, h => by
    simp only [Nesting.root, trial_array_leaf hn] at h
    cases h
  | .array element, .list id t items, hr, hn, h => by
    simp only [Nesting.root, trial_array_list hn] at h ⊢
    intro l hl
    obtain ⟨n, hmem, hl⟩ := Nesting.mem_eachLeaves.mp hl
    have hroot := List.mem_map_of_mem (f := Nesting.root) hmem
    have hitem : (trial g element (some n.root)).verdict = true := by
      rw [Trial.verdict_allOf, List.all_eq_true] at h
      exact h n.root hroot
    have hcovers := trial_covers (by rwa [isStringFree] at hr) (hn.each n hmem) hitem
    exact hcovers.mono (Trial.subset_writes_allOf h hroot) l hl
  | .rest _, n, _, hn, h => by
    rw [trial, Option.any_some, hn.isVariable_eq] at h
    cases h
  | .tuple entries, .leaf id t, _, hn, h => by
    simp only [Nesting.root, trial_tuple_leaf hn] at h
    cases h
  | .tuple entries, .list id t items, hr, hn, h => by
    simp only [Nesting.root, trial_tuple_list hn] at h ⊢
    intro l hl
    obtain ⟨n, hmem, hl⟩ := Nesting.mem_eachLeaves.mp hl
    exact trialEntries_covers (by rwa [isStringFree] at hr) hn.each h n hmem l hl
  | .union options, n, hr, hn, h => by
    simp only [trial, Option.any_some, hn.isVariable_eq, Bool.false_eq_true, if_false] at h ⊢
    exact trialSome_covers (by rwa [isStringFree] at hr) hn h
  | .intersection options, n, hr, hn, h => by
    simp only [trial, Option.any_some, hn.isVariable_eq, Bool.false_eq_true, if_false] at h ⊢
    rw [isStringFree, Bool.and_eq_true] at hr
    exact trialEvery_covers (by simpa using hr.1) hr.2 hn h

theorem trialSome_covers : ∀ {rs : List Range} {n : Nesting}, eachStringFree rs = true → g.Nests n →
    (trialSome g rs (some n.root)).verdict = true → Covers (trialSome g rs (some n.root)).writes n
  | [], _, _, _, h => by
    rw [trialSome] at h
    cases h
  | r :: rs, n, hr, hn, h => by
    rw [eachStringFree, Bool.and_eq_true] at hr
    rw [trialSome, Trial.verdict_orElse] at h
    rw [trialSome]
    cases hfirst : (trial g r (some n.root)).verdict with
    | true => exact (trial_covers hr.1 hn hfirst).mono (Trial.subset_writes_orElse _ _)
    | false =>
      rw [hfirst, Bool.false_or] at h
      exact (trialSome_covers hr.2 hn h).mono (Trial.subset_writes_orElse_of_verdict hfirst _)

/-- The first of some options is enough. -/
theorem trialEvery_covers : ∀ {rs : List Range} {n : Nesting}, rs ≠ [] → eachStringFree rs = true →
    g.Nests n → (trialEvery g rs (some n.root)).verdict = true →
    Covers (trialEvery g rs (some n.root)).writes n
  | [], _, hne, _, _, _ => absurd rfl hne
  | r :: rs, n, _, hr, hn, h => by
    rw [eachStringFree, Bool.and_eq_true] at hr
    rw [trialEvery, Trial.verdict_andThen, Bool.and_eq_true] at h
    rw [trialEvery]
    exact (trial_covers hr.1 hn h.1).mono (Trial.subset_writes_andThen _ _)

theorem trialEntries_covers : ∀ {entries : List Range} {items : List Nesting},
    eachStringFree entries = true → (∀ n ∈ items, g.Nests n) →
    (trialEntries g entries (items.map Nesting.root)).verdict = true →
    ∀ n ∈ items, Covers (trialEntries g entries (items.map Nesting.root)).writes n
  | [], items, _, _, h, n, hmem => by
    rw [trialEntries] at h
    obtain rfl : items = [] := by simpa using h
    cases hmem
  | entry :: entries, items, hr, hn, h, n, hmem => by
    rw [eachStringFree, Bool.and_eq_true] at hr
    cases hrest : entry.isRest with
    | true =>
      -- an item is among those that the rest entry takes, or among those that it hands over
      obtain ⟨element, rfl⟩ := eq_rest_of_isRest hrest
      obtain ⟨accepted, hsplit, haccepted⟩ :=
        Trial.dropAccepted_split (fun item => trial g element (some item)) (items.map Nesting.root)
      obtain ⟨taken, left, rfl, rfl, hleft⟩ := List.map_eq_append_iff.mp hsplit
      rw [trialEntries] at h ⊢
      rw [← hleft] at h ⊢
      rcases List.mem_append.mp hmem with hmem | hmem
      · obtain ⟨hverdict, hwrites⟩ := haccepted n.root (List.mem_map_of_mem hmem)
        have hcovers := trial_covers (by simpa [isStringFree] using hr.1)
          (hn n (List.mem_append_left _ hmem)) hverdict
        exact (hcovers.mono hwrites).mono (List.subset_append_left _ _)
      · have hne : (left.map Nesting.root).isEmpty = false := by
          cases left with
          | nil => cases hmem
          | cons m left => rfl
        simp only [hne, Bool.false_eq_true, if_false, Trial.verdict_after] at h ⊢
        have hcovers := trialEntries_covers hr.2
          (fun m hm => hn m (List.mem_append_right _ hm)) h n hmem
        exact hcovers.mono (List.subset_append_right _ _)
    | false =>
      cases items with
      | nil => cases hmem
      | cons item items =>
        rw [List.map_cons, trialEntries_cons g hrest, Trial.verdict_andThen, Bool.and_eq_true] at h
        rw [List.map_cons, trialEntries_cons g hrest]
        rcases List.mem_cons.mp hmem with rfl | hmem
        · exact (trial_covers hr.1 (hn _ List.mem_cons_self) h.1).mono
            (Trial.subset_writes_andThen _ _)
        · have hcovers := trialEntries_covers hr.2
            (fun m hm => hn m (List.mem_cons_of_mem _ hm)) h.2 n hmem
          exact hcovers.mono (Trial.subset_writes_andThen_of_verdict h.1 _)

end

/-- What stays on a literal after a trial that succeeds is what its text stands for as a primitive of
the range. -/
theorem left?_trial {r : Range} {n : Nesting} (hr : r.isStringFree = true) (hn : g.Nests n)
    (h : (trial g r (some n.root)).verdict = true) : ∀ l ∈ n.leaves,
    ∃ v, (trial g r (some n.root)).writes.left? l.1 = some v ∧
      ∃ p ∈ r.primitives, p.coerce l.2.value = some (some v) := by
  intro l hl
  obtain ⟨v, hv⟩ := trial_covers hr hn h l hl
  obtain ⟨w, hw⟩ := Writes.exists_left? hv
  obtain ⟨root, -, hreads⟩ := trial_reads g r _ _ (Writes.mem_of_left? hw)
  obtain ⟨t, ht, -, p, hp, hcoerce⟩ := hreads.literal
  obtain rfl : t = l.2 := Option.some.inj (ht.symm.trans (hn.term?_leaf l hl))
  exact ⟨w, hw, p, hp, hcoerce⟩

/-! ### Arrays of arrays -/

theorem verdict_literalText (id : NodeId) (p : Primitive) (text : String) :
    (Trial.literalText id p text).verdict = (p.coerce text).isSome := by
  rw [Trial.literalText]
  split <;> simp_all

/-- **Arrays of arrays of a primitive** accept the literals that are nested just as deep, if the
primitive accepts all of them. -/
theorem verdict_arrays {iri : String} {p : Primitive} (hp : Primitive.ofIri? iri = some p)
    {level : Nat} {n : Nesting} (hn : g.Nests n) (hlevel : n.Uniform level) :
    (trial g (arrays level (.type iri)) (some n.root)).verdict = true ↔
      ∀ l ∈ n.leaves, (p.coerce l.2.value).isSome := by
  induction level generalizing n with
  | zero =>
    cases n with
    | list id t items => exact hlevel.elim
    | leaf id t =>
      rw [arrays, Nesting.root, trial_type_leaf hn hp, verdict_literalText]
      simp [Nesting.leaves]
  | succ level ih =>
    cases n with
    | leaf id t => exact hlevel.elim
    | list id t items =>
      have hitems : ∀ m ∈ items, ((trial g (arrays level (.type iri)) (some m.root)).verdict = true ↔
          ∀ l ∈ m.leaves, (p.coerce l.2.value).isSome) := fun m hm => ih (hn.each m hm) (hlevel m hm)
      rw [arrays, Nesting.root, trial_array_list hn, Trial.verdict_allOf, List.all_eq_true]
      simp only [List.mem_map, forall_exists_index, and_imp, forall_apply_eq_imp_iff₂,
        Nesting.leaves, Nesting.mem_eachLeaves]
      constructor
      · intro h l m hm hl
        exact (hitems m hm).mp (h m hm) l hl
      · intro h m hm
        exact (hitems m hm).mpr fun l hl => h l m hm hl

end Range

end Wiring

import Mathlib.Logic.Relation
import Wiring.Proofs.Ranks
import Wiring.Range.Capture

/-!
# Checks as trials

A check decides by the graph alone. So what it does to the typed values of literals can be told
without them: a `Trial` is a verdict together with what is left on literals on the way to it, in
order. `Range.trial` tries a value for a range, and a check performs its trial on whatever typed
values it finds (`Range.performs_accepts`).

- `TypedValues.replay` leaves values one after the other; of those that are left on one literal the
  last one stays (`Writes.left?`).
- All that a trial leaves is what literals of the value stand for by their own texts, as primitives
  of the range (`Range.trial_reads`, `Range.trial_leaves`).
- `Range.accepts_oblivious`: verdicts do not depend on typed values, and checking again changes
  nothing.
-/

namespace Wiring

open Relation

/-! ## What is left on literals -/

/-- Typed values that are left on literals, in order. -/
abbrev Writes := List (NodeId × TypedValue)

/-- The last value that is left on a node. -/
def Writes.left? : Writes → NodeId → Option TypedValue
  | [], _ => none
  | (other, v) :: ws, id => (left? ws id).or (if other = id then some v else none)

/-- Typed values after further ones have been left. -/
def TypedValues.replay (typed : TypedValues) (ws : Writes) : TypedValues :=
  ws.foldl (fun typed w => typed.insert w.1 w.2) typed

namespace Writes

theorem mem_of_left? {ws : Writes} {id : NodeId} {v : TypedValue} (h : left? ws id = some v) :
    (id, v) ∈ ws := by
  induction ws with
  | nil => cases h
  | cons w ws ih =>
    rw [left?, Option.or_eq_some_iff] at h
    rcases h with h | ⟨-, h⟩
    · exact List.mem_cons_of_mem _ (ih h)
    · split at h
      · rename_i hid
        cases h
        exact hid ▸ List.mem_cons_self
      · cases h

/-- What is left on a node leaves some value there. -/
theorem exists_left? {ws : Writes} {id : NodeId} {v : TypedValue} (h : (id, v) ∈ ws) :
    ∃ w, left? ws id = some w := by
  induction ws with
  | nil => cases h
  | cons w ws ih =>
    rw [left?]
    rcases List.mem_cons.mp h with rfl | h
    · cases left? ws id with
      | none => exact ⟨v, by simp⟩
      | some w => exact ⟨w, rfl⟩
    · obtain ⟨u, hu⟩ := ih h
      exact ⟨u, by rw [hu]; rfl⟩

end Writes

namespace TypedValues

@[simp] theorem replay_nil (typed : TypedValues) : typed.replay [] = typed := rfl

theorem replay_append (typed : TypedValues) (ws ws' : Writes) :
    typed.replay (ws ++ ws') = (typed.replay ws).replay ws' :=
  List.foldl_append

/-- The last value that is left on a literal stays. -/
theorem getElem?_replay (typed : TypedValues) (ws : Writes) (id : NodeId) :
    (typed.replay ws)[id]? = (ws.left? id).or typed[id]? := by
  induction ws generalizing typed with
  | nil => rfl
  | cons w ws ih =>
    show (replay (typed.insert w.1 w.2) ws)[id]? = _
    rw [ih, Writes.left?, Option.or_assoc, Std.ExtTreeMap.getElem?_insert]
    split <;> simp_all

/-- What has been left once is not changed by leaving it again. -/
theorem replay_replay (typed : TypedValues) (ws : Writes) :
    (typed.replay ws).replay ws = typed.replay ws := by
  refine Std.ExtTreeMap.ext_getElem? fun id => ?_
  rw [getElem?_replay, getElem?_replay]
  cases ws.left? id <;> rfl

end TypedValues

/-! ## Trials -/

/-- A verdict, with what is left on literals on the way to it. -/
structure Trial where
  verdict : Bool
  writes : Writes := []

namespace Trial

/-- A trial after something has been left. -/
def after (ws : Writes) (t : Trial) : Trial := ⟨t.verdict, ws ++ t.writes⟩

/-- A second trial follows if the first one succeeds, and decides. -/
def andThen (t u : Trial) : Trial := if t.verdict then after t.writes u else t

/-- A second trial follows if the first one fails, and decides. -/
def orElse (t u : Trial) : Trial := if t.verdict then t else after t.writes u

/-- Tries a literal's text for a primitive. -/
def literalText (id : NodeId) (p : Primitive) (text : String) : Trial :=
  match p.coerce text with
  | none => ⟨false, []⟩
  | some none => ⟨true, []⟩
  | some (some v) => ⟨true, [(id, v)]⟩

/-- Tries items in order, up to the first that fails. -/
def allOf (f : NodeId → Trial) : List NodeId → Trial
  | [] => ⟨true, []⟩
  | item :: items => (f item).andThen (allOf f items)

/-- Tries items in order, up to the first that fails: the items from there on, and what is left on
literals. -/
def dropAccepted (f : NodeId → Trial) : List NodeId → List NodeId × Writes
  | [] => ([], [])
  | item :: items =>
    if (f item).verdict then
      ((dropAccepted f items).1, (f item).writes ++ (dropAccepted f items).2)
    else (item :: items, (f item).writes)

@[simp] theorem verdict_after (ws : Writes) (t : Trial) : (after ws t).verdict = t.verdict := rfl

@[simp] theorem verdict_andThen (t u : Trial) :
    (t.andThen u).verdict = (t.verdict && u.verdict) := by
  rw [andThen]
  split <;> simp_all

@[simp] theorem verdict_orElse (t u : Trial) :
    (t.orElse u).verdict = (t.verdict || u.verdict) := by
  rw [orElse]
  split <;> simp_all

@[simp] theorem verdict_allOf (f : NodeId → Trial) (items : List NodeId) :
    (allOf f items).verdict = items.all fun item => (f item).verdict := by
  induction items with
  | nil => rfl
  | cons item items ih => simp [allOf, ih]

/-- No item is left if all of them are accepted. -/
theorem isEmpty_dropAccepted (f : NodeId → Trial) (items : List NodeId) :
    (dropAccepted f items).1.isEmpty = items.all fun item => (f item).verdict := by
  induction items with
  | nil => rfl
  | cons item items ih =>
    rw [dropAccepted]
    split <;> simp_all

end Trial

namespace Range

/-- Tries a value for a type range. -/
def trialType (g : Graph) (iri : String) (id : NodeId) (t : Term) : Trial :=
  match Primitive.ofIri? iri, t.kind with
  | some p, .literal => Trial.literalText id p t.value
  | some .string, .named => ⟨true, []⟩
  | _, _ => ⟨g.isVariable id || g.isA id iri, []⟩

mutual

/-- Tries a value for a range. -/
def trial (g : Graph) : Range → Option NodeId → Trial
  | .any, _ => ⟨true, []⟩
  | .collectEntries, _ => ⟨true, []⟩
  | .undefined, value => ⟨value.all fun id => !g.contains id || g.isVariable id, []⟩
  | .union options, value =>
    if value.any g.isVariable then ⟨true, []⟩ else trialSome g options value
  | .intersection options, value =>
    if value.any g.isVariable then ⟨true, []⟩ else trialEvery g options value
  | .literal _, none => ⟨false, []⟩
  | .literal t, some id => ⟨g.isVariable id || g.term? id = some t, []⟩
  | .type _, none => ⟨false, []⟩
  | .type iri, some id => match g.term? id with
    | none => ⟨false, []⟩
    | some t => trialType g iri id t
  | .array _, none => ⟨false, []⟩
  | .array element, some id =>
    if g.isVariable id then ⟨true, []⟩
    else match g.listItems? id with
      | none => ⟨false, []⟩
      | some items => Trial.allOf (fun item => trial g element (some item)) items
  | .rest _, value => ⟨value.any g.isVariable, []⟩
  | .tuple _, none => ⟨false, []⟩
  | .tuple entries, some id =>
    if g.isVariable id then ⟨true, []⟩
    else match g.listItems? id with
      | none => ⟨false, []⟩
      | some items => trialEntries g entries items

/-- Tries a value for options, up to the first that takes it. -/
def trialSome (g : Graph) : List Range → Option NodeId → Trial
  | [], _ => ⟨false, []⟩
  | r :: rs, value => (trial g r value).orElse (trialSome g rs value)

/-- Tries a value for options, up to the first that does not take it. -/
def trialEvery (g : Graph) : List Range → Option NodeId → Trial
  | [], _ => ⟨true, []⟩
  | r :: rs, value => (trial g r value).andThen (trialEvery g rs value)

/-- Tries items for the entries of a tuple. -/
def trialEntries (g : Graph) : List Range → List NodeId → Trial
  | [], items => ⟨items.isEmpty, []⟩
  | .rest element :: entries, items =>
    let dropped := Trial.dropAccepted (fun item => trial g element (some item)) items
    Trial.after dropped.2
      (if dropped.1.isEmpty then ⟨entries.isEmpty, []⟩ else trialEntries g entries dropped.1)
  | _ :: _, [] => ⟨false, []⟩
  | entry :: entries, item :: items =>
    (trial g entry (some item)).andThen (trialEntries g entries items)

end

/-- Some option accepts the value. -/
theorem verdict_trialSome (g : Graph) (rs : List Range) (value : Option NodeId) :
    (trialSome g rs value).verdict = true ↔ ∃ r ∈ rs, (trial g r value).verdict = true := by
  induction rs with
  | nil => simp [trialSome]
  | cons r rs ih => simp [trialSome, ih]

/-- Every option accepts the value. -/
theorem verdict_trialEvery (g : Graph) (rs : List Range) (value : Option NodeId) :
    (trialEvery g rs value).verdict = true ↔ ∀ r ∈ rs, (trial g r value).verdict = true := by
  induction rs with
  | nil => simp [trialEvery]
  | cons r rs ih => simp [trialEvery, ih]

end Range

/-! ## Checks perform their trials -/

/-- A check comes to the verdict of a trial and leaves what the trial leaves, whatever typed values
there are. -/
def Check.Performs (c : Check) (t : Trial) : Prop :=
  ∀ typed, c.run typed = (t.verdict, typed.replay t.writes)

namespace Check

theorem performs_pure (b : Bool) : Performs (pure b) ⟨b, []⟩ := fun _ => rfl

theorem performs_literalText (id : NodeId) (p : Primitive) (text : String) :
    (literalText id p text).Performs (Trial.literalText id p text) := by
  rw [literalText, Trial.literalText]
  match p.coerce text with
  | none => exact performs_pure false
  | some none => exact performs_pure true
  | some (some v) => exact fun _ => rfl

/-- A check that is performed after something has been left. -/
theorem Performs.after {c : Check} {t : Trial} (h : c.Performs t) (ws : Writes)
    (typed : TypedValues) :
    c.run (typed.replay ws) =
      ((Trial.after ws t).verdict, typed.replay (Trial.after ws t).writes) := by
  rw [h, Trial.after, TypedValues.replay_append]

theorem Performs.andThen {c d : Check} {t u : Trial} (hc : c.Performs t) (hd : d.Performs u) :
    Performs (do if ← c then d else pure false) (t.andThen u) := by
  intro typed
  rw [StateT.run_bind, hc typed, Trial.andThen]
  cases ht : t.verdict with
  | true => exact hd.after t.writes typed
  | false =>
    rw [if_neg Bool.false_ne_true, ht]
    rfl

theorem Performs.orElse {c d : Check} {t u : Trial} (hc : c.Performs t) (hd : d.Performs u) :
    Performs (do if ← c then pure true else d) (t.orElse u) := by
  intro typed
  rw [StateT.run_bind, hc typed, Trial.orElse]
  cases ht : t.verdict with
  | true =>
    rw [if_pos rfl, ht]
    rfl
  | false => exact hd.after t.writes typed

theorem performs_allOf {accepts : NodeId → Check} {f : NodeId → Trial}
    (h : ∀ item, (accepts item).Performs (f item)) (items : List NodeId) :
    (allOf accepts items).Performs (Trial.allOf f items) := by
  induction items with
  | nil => exact performs_pure true
  | cons item items ih => exact (h item).andThen ih

theorem run_dropAccepted {accepts : NodeId → Check} {f : NodeId → Trial}
    (h : ∀ item, (accepts item).Performs (f item)) (items : List NodeId) (typed : TypedValues) :
    (dropAccepted accepts items).run typed =
      ((Trial.dropAccepted f items).1, typed.replay (Trial.dropAccepted f items).2) := by
  induction items generalizing typed with
  | nil => rfl
  | cons item items ih =>
    rw [dropAccepted, StateT.run_bind, h item typed, Trial.dropAccepted]
    cases hv : (f item).verdict with
    | true =>
      show (dropAccepted accepts items).run (typed.replay (f item).writes) = _
      rw [ih, if_pos rfl, TypedValues.replay_append]
    | false =>
      rw [if_neg Bool.false_ne_true]
      rfl

end Check

namespace Range

variable (g : Graph)

theorem performs_acceptsType (iri : String) (id : NodeId) (t : Term) :
    (acceptsType g iri id t).Performs (trialType g iri id t) := by
  rw [acceptsType, trialType]
  cases Primitive.ofIri? iri with
  | none => exact Check.performs_pure _
  | some p =>
    cases t.kind with
    | literal => exact Check.performs_literalText id p t.value
    | named => cases p <;> exact Check.performs_pure _
    | _ => cases p <;> exact Check.performs_pure _

/-! A tuple entry that is no rest entry needs an item of its own. -/

theorem eq_rest_of_isRest {r : Range} (h : r.isRest = true) : ∃ element, r = .rest element := by
  cases r with
  | rest element => exact ⟨element, rfl⟩
  | _ => cases h

theorem acceptsEntries_nil {entry : Range} (h : entry.isRest = false) (entries : List Range) :
    acceptsEntries g (entry :: entries) [] = pure false := by
  cases entry with
  | rest element => cases h
  | _ => rfl

theorem acceptsEntries_cons {entry : Range} (h : entry.isRest = false) (entries : List Range)
    (item : NodeId) (items : List NodeId) :
    acceptsEntries g (entry :: entries) (item :: items) =
      (do if ← accepts g entry (some item) then acceptsEntries g entries items else pure false) := by
  cases entry with
  | rest element => cases h
  | _ => rfl

theorem trialEntries_nil {entry : Range} (h : entry.isRest = false) (entries : List Range) :
    trialEntries g (entry :: entries) [] = ⟨false, []⟩ := by
  cases entry with
  | rest element => cases h
  | _ => rfl

theorem trialEntries_cons {entry : Range} (h : entry.isRest = false) (entries : List Range)
    (item : NodeId) (items : List NodeId) :
    trialEntries g (entry :: entries) (item :: items) =
      (trial g entry (some item)).andThen (trialEntries g entries items) := by
  cases entry with
  | rest element => cases h
  | _ => rfl

mutual

/-- **A check performs its trial.** -/
theorem performs_accepts : ∀ (r : Range) (value : Option NodeId),
    (accepts g r value).Performs (trial g r value)
  | .any, _ => Check.performs_pure true
  | .collectEntries, _ => Check.performs_pure true
  | .undefined, value => Check.performs_pure _
  | .union options, value => by
    rw [accepts, trial]
    split
    · exact Check.performs_pure true
    · exact performs_acceptsSome options value
  | .intersection options, value => by
    rw [accepts, trial]
    split
    · exact Check.performs_pure true
    · exact performs_acceptsEvery options value
  | .literal _, none => Check.performs_pure false
  | .literal t, some id => Check.performs_pure _
  | .type _, none => Check.performs_pure false
  | .type iri, some id => by
    rw [accepts, trial]
    cases g.term? id with
    | none => exact Check.performs_pure false
    | some t => exact performs_acceptsType g iri id t
  | .array _, none => Check.performs_pure false
  | .array element, some id => by
    rw [accepts, trial]
    split
    · exact Check.performs_pure true
    · cases g.listItems? id with
      | none => exact Check.performs_pure false
      | some items => exact Check.performs_allOf (fun item => performs_accepts element (some item)) items
  | .rest _, value => Check.performs_pure _
  | .tuple _, none => Check.performs_pure false
  | .tuple entries, some id => by
    rw [accepts, trial]
    split
    · exact Check.performs_pure true
    · cases g.listItems? id with
      | none => exact Check.performs_pure false
      | some items => exact performs_acceptsEntries entries items

theorem performs_acceptsSome : ∀ (rs : List Range) (value : Option NodeId),
    (acceptsSome g rs value).Performs (trialSome g rs value)
  | [], _ => Check.performs_pure false
  | r :: rs, value => (performs_accepts r value).orElse (performs_acceptsSome rs value)

theorem performs_acceptsEvery : ∀ (rs : List Range) (value : Option NodeId),
    (acceptsEvery g rs value).Performs (trialEvery g rs value)
  | [], _ => Check.performs_pure true
  | r :: rs, value => (performs_accepts r value).andThen (performs_acceptsEvery rs value)

theorem performs_acceptsEntries : ∀ (entries : List Range) (items : List NodeId),
    (acceptsEntries g entries items).Performs (trialEntries g entries items)
  | [], items => Check.performs_pure _
  | entry :: entries, items => by
    cases hrest : entry.isRest with
    | true =>
      obtain ⟨element, rfl⟩ := eq_rest_of_isRest hrest
      intro typed
      have hdrop := Check.run_dropAccepted (fun item => performs_accepts element (some item)) items
        typed
      rw [acceptsEntries, StateT.run_bind, hdrop, trialEntries]
      refine Check.Performs.after (t := ite _ _ _) ?_ _ typed
      split
      · exact Check.performs_pure _
      · exact performs_acceptsEntries entries _
    | false =>
      cases items with
      | nil =>
        rw [acceptsEntries_nil g hrest, trialEntries_nil g hrest]
        exact Check.performs_pure false
      | cons item items =>
        rw [acceptsEntries_cons g hrest, trialEntries_cons g hrest]
        exact (performs_accepts entry (some item)).andThen (performs_acceptsEntries entries items)

end

end Range

/-! ## What trials leave -/

/-- A typed value that a check below a node may leave: what the text of a literal stands for as a
primitive, where the literal is the node, or lists lead to it from there. -/
structure Graph.Reading (g : Graph) (root : NodeId) (w : NodeId × TypedValue) : Prop where
  path : ReflTransGen g.HasItem root w.1
  literal : ∃ t, g.term? w.1 = some t ∧ t.kind = .literal ∧
    ∃ p : Primitive, p.coerce t.value = some (some w.2)

/-- A typed value that a check below a node may leave where only certain primitives are tried. -/
structure Graph.ReadingAs (g : Graph) (ps : List Primitive) (root : NodeId)
    (w : NodeId × TypedValue) : Prop where
  path : ReflTransGen g.HasItem root w.1
  literal : ∃ t, g.term? w.1 = some t ∧ t.kind = .literal ∧
    ∃ p ∈ ps, p.coerce t.value = some (some w.2)

namespace Graph.ReadingAs

variable {g : Graph} {ps qs : List Primitive} {list item root : NodeId} {w : NodeId × TypedValue}

theorem reading (h : g.ReadingAs ps root w) : g.Reading root w := by
  obtain ⟨t, ht, hkind, p, -, hv⟩ := h.literal
  exact ⟨h.path, t, ht, hkind, p, hv⟩

/-- More primitives may be tried. -/
theorem mono (h : g.ReadingAs ps root w) (hsub : ps ⊆ qs) : g.ReadingAs qs root w := by
  obtain ⟨t, ht, hkind, p, hp, hv⟩ := h.literal
  exact ⟨h.path, t, ht, hkind, p, hsub hp, hv⟩

/-- What may be left below an item may be left below its list. -/
theorem of_item (h : g.ReadingAs ps item w) (hitem : g.HasItem list item) :
    g.ReadingAs ps list w :=
  { h with path := h.path.head hitem }

end Graph.ReadingAs

namespace Trial

theorem mem_writes_andThen {t u : Trial} {w : NodeId × TypedValue}
    (h : w ∈ (t.andThen u).writes) : w ∈ t.writes ∨ w ∈ u.writes := by
  rw [andThen] at h
  split at h
  · exact List.mem_append.mp h
  · exact .inl h

theorem mem_writes_orElse {t u : Trial} {w : NodeId × TypedValue}
    (h : w ∈ (t.orElse u).writes) : w ∈ t.writes ∨ w ∈ u.writes := by
  rw [orElse] at h
  split at h
  · exact .inl h
  · exact List.mem_append.mp h

theorem mem_writes_allOf {f : NodeId → Trial} {items : List NodeId} {w : NodeId × TypedValue}
    (h : w ∈ (allOf f items).writes) : ∃ item ∈ items, w ∈ (f item).writes := by
  induction items with
  | nil => cases h
  | cons item items ih =>
    rcases mem_writes_andThen h with h | h
    · exact ⟨item, List.mem_cons_self, h⟩
    · obtain ⟨other, hother, h⟩ := ih h
      exact ⟨other, List.mem_cons_of_mem _ hother, h⟩

theorem mem_writes_dropAccepted {f : NodeId → Trial} {items : List NodeId}
    {w : NodeId × TypedValue} (h : w ∈ (dropAccepted f items).2) :
    ∃ item ∈ items, w ∈ (f item).writes := by
  induction items with
  | nil => cases h
  | cons item items ih =>
    rw [dropAccepted] at h
    split at h
    · rcases List.mem_append.mp h with h | h
      · exact ⟨item, List.mem_cons_self, h⟩
      · obtain ⟨other, hother, h⟩ := ih h
        exact ⟨other, List.mem_cons_of_mem _ hother, h⟩
    · exact ⟨item, List.mem_cons_self, h⟩

/-! ### What trials that succeed do not lose -/

theorem subset_writes_andThen (t u : Trial) : t.writes ⊆ (t.andThen u).writes := by
  rw [andThen]
  split
  · exact List.subset_append_left _ _
  · exact List.Subset.refl _

theorem subset_writes_andThen_of_verdict {t : Trial} (h : t.verdict = true) (u : Trial) :
    u.writes ⊆ (t.andThen u).writes := by
  rw [andThen, if_pos h]
  exact List.subset_append_right _ _

theorem subset_writes_orElse (t u : Trial) : t.writes ⊆ (t.orElse u).writes := by
  rw [orElse]
  split
  · exact List.Subset.refl _
  · exact List.subset_append_left _ _

theorem subset_writes_orElse_of_verdict {t : Trial} (h : t.verdict = false) (u : Trial) :
    u.writes ⊆ (t.orElse u).writes := by
  rw [orElse, if_neg (by simp [h])]
  exact List.subset_append_right _ _

/-- What items that are all accepted leave stays. -/
theorem subset_writes_allOf {f : NodeId → Trial} {items : List NodeId}
    (h : (allOf f items).verdict = true) {item : NodeId} (hitem : item ∈ items) :
    (f item).writes ⊆ (allOf f items).writes := by
  induction items with
  | nil => cases hitem
  | cons other items ih =>
    rw [allOf, verdict_andThen, Bool.and_eq_true] at h
    rcases List.mem_cons.mp hitem with rfl | hitem
    · exact subset_writes_andThen _ _
    · exact List.Subset.trans (ih h.2 hitem) (subset_writes_andThen_of_verdict h.1 _)

/-- The items up to the first that fails are accepted, and what they leave stays. -/
theorem dropAccepted_split (f : NodeId → Trial) (items : List NodeId) :
    ∃ accepted, items = accepted ++ (dropAccepted f items).1 ∧
      ∀ item ∈ accepted, (f item).verdict = true ∧
        (f item).writes ⊆ (dropAccepted f items).2 := by
  induction items with
  | nil => exact ⟨[], rfl, fun _ h => nomatch h⟩
  | cons item items ih =>
    rw [dropAccepted]
    split
    · rename_i hitem
      obtain ⟨accepted, hsplit, haccepted⟩ := ih
      refine ⟨item :: accepted, congrArg (item :: ·) hsplit, fun other hother => ?_⟩
      rcases List.mem_cons.mp hother with rfl | hother
      · exact ⟨hitem, List.subset_append_left _ _⟩
      · obtain ⟨hverdict, hwrites⟩ := haccepted other hother
        exact ⟨hverdict, List.Subset.trans hwrites (List.subset_append_right _ _)⟩
    · exact ⟨[], rfl, fun _ h => nomatch h⟩

theorem dropAccepted_subset (f : NodeId → Trial) (items : List NodeId) :
    (dropAccepted f items).1 ⊆ items := by
  obtain ⟨accepted, hsplit, -⟩ := dropAccepted_split f items
  intro item hitem
  rw [hsplit]
  exact List.mem_append_right _ hitem

end Trial

namespace Range

mutual

/-- The primitives that the type ranges in a range stand for, at every depth. -/
def primitives : Range → List Primitive
  | .type iri => (Primitive.ofIri? iri).toList
  | .array element => element.primitives
  | .rest element => element.primitives
  | .tuple entries => eachPrimitives entries
  | .union options => eachPrimitives options
  | .intersection options => eachPrimitives options
  | _ => []

/-- The primitives of all members. -/
def eachPrimitives : List Range → List Primitive
  | [] => []
  | r :: rs => r.primitives ++ eachPrimitives rs

end

variable (g : Graph)

theorem trialType_reads {iri : String} {id : NodeId} {t : Term} (ht : g.term? id = some t)
    {w : NodeId × TypedValue} (h : w ∈ (trialType g iri id t).writes) :
    g.ReadingAs (primitives (.type iri)) id w := by
  rw [trialType] at h
  split at h
  · rename_i p hiri hkind
    rw [Trial.literalText] at h
    split at h
    · cases h
    · cases h
    · rename_i v hv
      cases List.mem_singleton.mp h
      have hp : p ∈ primitives (.type iri) := by simp [primitives, hiri]
      exact ⟨.refl, t, ht, hkind, p, hp, hv⟩
  · cases h
  · cases h

mutual

/-- **A trial leaves readings of the value** as primitives of the range. -/
theorem trial_reads : ∀ (r : Range) (value : Option NodeId) (w : NodeId × TypedValue),
    w ∈ (trial g r value).writes → ∃ root ∈ value, g.ReadingAs r.primitives root w
  | .any, _, _, h => nomatch h
  | .collectEntries, _, _, h => nomatch h
  | .undefined, _, _, h => nomatch h
  | .union options, value, w, h => by
    rw [trial] at h
    split at h
    · cases h
    · exact trialSome_reads options value w h
  | .intersection options, value, w, h => by
    rw [trial] at h
    split at h
    · cases h
    · exact trialEvery_reads options value w h
  | .literal _, none, _, h => nomatch h
  | .literal t, some id, _, h => nomatch h
  | .type _, none, _, h => nomatch h
  | .type iri, some id, w, h => by
    rw [trial] at h
    split at h
    · cases h
    · rename_i t ht
      exact ⟨id, rfl, trialType_reads g ht h⟩
  | .array _, none, _, h => nomatch h
  | .array element, some id, w, h => by
    rw [trial] at h
    split at h
    · cases h
    · split at h
      · cases h
      · rename_i items hitems
        obtain ⟨item, hmem, h⟩ := Trial.mem_writes_allOf h
        obtain ⟨root, hroot, hw⟩ := trial_reads element (some item) w h
        cases hroot
        exact ⟨id, rfl, hw.of_item ⟨items, hitems, hmem⟩⟩
  | .rest _, _, _, h => nomatch h
  | .tuple _, none, _, h => nomatch h
  | .tuple entries, some id, w, h => by
    rw [trial] at h
    split at h
    · cases h
    · split at h
      · cases h
      · rename_i items hitems
        obtain ⟨item, hmem, hw⟩ := trialEntries_reads entries items w h
        exact ⟨id, rfl, hw.of_item ⟨items, hitems, hmem⟩⟩

theorem trialSome_reads : ∀ (rs : List Range) (value : Option NodeId) (w : NodeId × TypedValue),
    w ∈ (trialSome g rs value).writes → ∃ root ∈ value, g.ReadingAs (eachPrimitives rs) root w
  | [], _, _, h => nomatch h
  | r :: rs, value, w, h => by
    rcases Trial.mem_writes_orElse h with h | h
    · obtain ⟨root, hroot, hw⟩ := trial_reads r value w h
      exact ⟨root, hroot, hw.mono (List.subset_append_left _ _)⟩
    · obtain ⟨root, hroot, hw⟩ := trialSome_reads rs value w h
      exact ⟨root, hroot, hw.mono (List.subset_append_right _ _)⟩

theorem trialEvery_reads : ∀ (rs : List Range) (value : Option NodeId) (w : NodeId × TypedValue),
    w ∈ (trialEvery g rs value).writes → ∃ root ∈ value, g.ReadingAs (eachPrimitives rs) root w
  | [], _, _, h => nomatch h
  | r :: rs, value, w, h => by
    rcases Trial.mem_writes_andThen h with h | h
    · obtain ⟨root, hroot, hw⟩ := trial_reads r value w h
      exact ⟨root, hroot, hw.mono (List.subset_append_left _ _)⟩
    · obtain ⟨root, hroot, hw⟩ := trialEvery_reads rs value w h
      exact ⟨root, hroot, hw.mono (List.subset_append_right _ _)⟩

theorem trialEntries_reads : ∀ (entries : List Range) (items : List NodeId)
    (w : NodeId × TypedValue), w ∈ (trialEntries g entries items).writes →
    ∃ item ∈ items, g.ReadingAs (eachPrimitives entries) item w
  | [], _, _, h => nomatch h
  | entry :: entries, items, w, h => by
    cases hrest : entry.isRest with
    | true =>
      obtain ⟨element, rfl⟩ := eq_rest_of_isRest hrest
      rw [trialEntries] at h
      rcases List.mem_append.mp h with h | h
      · obtain ⟨item, hmem, h⟩ := Trial.mem_writes_dropAccepted h
        obtain ⟨root, hroot, hw⟩ := trial_reads element (some item) w h
        cases hroot
        exact ⟨item, hmem, hw.mono (List.subset_append_left _ _)⟩
      · split at h
        · cases h
        · obtain ⟨item, hmem, hw⟩ := trialEntries_reads entries _ w h
          exact ⟨item, Trial.dropAccepted_subset _ _ hmem, hw.mono (List.subset_append_right _ _)⟩
    | false =>
      cases items with
      | nil =>
        rw [trialEntries_nil g hrest] at h
        cases h
      | cons item items =>
        rw [trialEntries_cons g hrest] at h
        rcases Trial.mem_writes_andThen h with h | h
        · obtain ⟨root, hroot, hw⟩ := trial_reads entry (some item) w h
          cases hroot
          exact ⟨item, List.mem_cons_self, hw.mono (List.subset_append_left _ _)⟩
        · obtain ⟨other, hmem, hw⟩ := trialEntries_reads entries items w h
          exact ⟨other, List.mem_cons_of_mem _ hmem, hw.mono (List.subset_append_right _ _)⟩

end

/-- A trial leaves readings of the value, and nothing if there is no value. -/
theorem trial_leaves (r : Range) (value : Option NodeId) (w : NodeId × TypedValue)
    (h : w ∈ (trial g r value).writes) : ∃ root ∈ value, g.Reading root w := by
  obtain ⟨root, hroot, hw⟩ := trial_reads g r value w h
  exact ⟨root, hroot, hw.reading⟩

end Range

/-! ## Checks of stores -/

namespace Store

variable (s : Store)

/-- A check of a store performs the trial of its range on the store's typed values. -/
theorem accepts_eq (r : Range) (value : Option NodeId) :
    s.accepts r value =
      ((r.trial s.graph value).verdict,
        { s with typed := s.typed.replay (r.trial s.graph value).writes }) := by
  rw [accepts, r.performs_accepts s.graph value s.typed]

/-- A check changes typed values of literals below the value only. -/
theorem reading_of_typed?_accepts_ne {r : Range} {value : Option NodeId} {id : NodeId}
    (h : (s.accepts r value).2.typed? id ≠ s.typed? id) :
    ∃ root ∈ value, ∃ v, s.graph.Reading root (id, v) := by
  rw [accepts_eq, typed?, TypedValues.getElem?_replay] at h
  cases hleft : (r.trial s.graph value).writes.left? id with
  | none =>
    rw [hleft] at h
    exact absurd rfl h
  | some v =>
    obtain ⟨root, hroot, hw⟩ := r.trial_leaves s.graph value _ (Writes.mem_of_left? hleft)
    exact ⟨root, hroot, v, hw⟩

/-- **Verdicts do not depend on typed values, and checking again changes nothing.** Whatever typed
values a graph's literals hold, a check comes to the verdict of its trial and leaves the values of its
trial, in order. Performed again at once, it comes to the verdict once more, and every literal holds
what it held after the first time. All that it leaves, and so all changes that are seen afterwards, is
on literals that are the value or that lists lead to from it. -/
theorem accepts_oblivious (g : Graph) (r : Range) (value : Option NodeId) :
    (∀ typed, ({ graph := g, typed } : Store).accepts r value =
      ((r.trial g value).verdict, { graph := g, typed := typed.replay (r.trial g value).writes })) ∧
    (∀ typed, (({ graph := g, typed } : Store).accepts r value).2.accepts r value =
      ({ graph := g, typed } : Store).accepts r value) ∧
    (∀ w ∈ (r.trial g value).writes, ∃ root ∈ value, g.Reading root w) ∧
    ∀ typed id, (({ graph := g, typed } : Store).accepts r value).2.typed? id ≠ typed[id]? →
      ∃ root ∈ value, ReflTransGen g.HasItem root id ∧
        ∃ t, g.term? id = some t ∧ t.kind = .literal := by
  refine ⟨fun typed => accepts_eq _ r value, fun typed => ?_, r.trial_leaves g value,
    fun typed id hne => ?_⟩
  · rw [accepts_eq, accepts_eq, TypedValues.replay_replay]
  · obtain ⟨root, hroot, v, hw⟩ := reading_of_typed?_accepts_ne _ hne
    obtain ⟨t, ht, hkind, -⟩ := hw.literal
    exact ⟨root, hroot, hw.path, t, ht, hkind⟩

/-- A list of the texts `1` and `x`. -/
def mixedList : Store :=
  [Update.literal "1", .literal "x", .list [0, 1]].foldl (fun s u => (s.apply u).2) {}

/-- A check for integers fails on the second item and replaces what the first one held. -/
theorem accepts_oblivious_mixedList : ∃ typed : TypedValues, typed[0]? = some (.boolean true) ∧
    ∃ s : Store, ({ mixedList with typed } : Store).accepts (.array (.type Xsd.integer)) (some 2) =
        (false, s) ∧
      s.typed? 0 = some (.integer 1) ∧
      s.accepts (.array (.type Xsd.integer)) (some 2) = (false, s) ∧
      ReflTransGen mixedList.graph.HasItem 2 0 := by
  refine ⟨(∅ : TypedValues).insert 0 (.boolean true), rfl, _, rfl, rfl, ?_, ?_⟩
  · exact (accepts_oblivious mixedList.graph (.array (.type Xsd.integer)) (some 2)).2.1
      ((∅ : TypedValues).insert 0 (.boolean true))
  · obtain ⟨root, hroot, hpath, -⟩ :=
      (accepts_oblivious mixedList.graph (.array (.type Xsd.integer)) (some 2)).2.2.2
        ((∅ : TypedValues).insert 0 (.boolean true)) 0 (by rintro ⟨⟩)
    cases hroot
    exact hpath

end Store

/-- Binding a value to a parameter performs the trial of the range, whose verdict decides. -/
theorem Parameter.capture_eq (p : Parameter) (s : Store) (value : Option NodeId) :
    p.capture s value =
      (if (p.range.trial s.graph value).verdict then .ok ()
        else .error (p.violation s.graph value),
      { s with typed := s.typed.replay (p.range.trial s.graph value).writes }) := by
  rw [capture, Store.accepts_eq]

end Wiring

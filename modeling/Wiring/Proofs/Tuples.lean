import Mathlib.Data.List.Chain
import Wiring.Proofs.Trials

/-!
# Tuples and their segments

A tuple describes a list from left to right: each entry stands for a segment of it, which is one item
that the entry accepts, or, for a rest entry, any number of items that are in its element range.

- `Range.walk` reads the items and the entries side by side, with a cursor on each, in a loop.
  `Range.walk_eq`: the loop ends, and does what `Range.acceptsEntries` does.
- `Store.Segments`: a list can be cut into segments as a tuple describes it. Tuples accept only lists
  that can (`Range.segments_of_trial`).
- A rest entry takes what it can get. Where that is never too much (`Store.HandsOver`), tuples accept
  all lists that can be cut (`Range.trial_of_segments`).

`Store.tuple_segments` puts this together.
-/

namespace Wiring

namespace Range

/-! ## Two cursors -/

/-- Where the walk over a tuple is: at an item and at an entry. -/
structure Cursors where
  item : Nat := 0
  entry : Nat := 0

/-- The last place in a list. There is none in an empty one. -/
def lastIndex? {α : Type} (l : List α) : Option Nat := if l.isEmpty then none else some (l.length - 1)

variable (g : Graph) (entries : List Range) (items : List NodeId)

/-- One turn, at an item and an entry: one of the cursors moves on, or both do, or the item is refused. -/
def turn (entry : Range) (item : NodeId) (c : Cursors) : StateM TypedValues (Option Cursors) :=
  match entry with
  | .rest element => do
    if ← accepts g element (some item) then pure (some { c with item := c.item + 1 })
    else pure (some { c with entry := c.entry + 1 })
  | entry => do
    if ← accepts g entry (some item) then pure (some ⟨c.item + 1, c.entry + 1⟩) else pure none

/-- The verdict where a cursor has come to an end: no item is left, and no entry but a last one that is a
rest entry. There is none if it takes the last place of an empty list to tell. -/
def conclude (c : Cursors) : Option Bool :=
  if c.item = items.length then
    if c.entry = entries.length then some true
    else do
      if c.entry = (← lastIndex? entries) then return (← entries[c.entry]?).isRest else return false
  else some false

/-- Walks over items and entries in a number of turns at most. There is no verdict if they are not
enough. -/
def walk : (limit : Nat) → Cursors → StateM TypedValues (Option Bool)
  | 0, _ => pure none
  | limit + 1, c =>
    match items[c.item]?, entries[c.entry]? with
    | some item, some entry => do
      match ← turn g entry item c with
      | some c => walk limit c
      | none => pure (some false)
    | _, _ => pure (conclude entries items c)

theorem acceptsEntries_rest_cons (element : Range) (item : NodeId) :
    acceptsEntries g (.rest element :: entries) (item :: items) = (do
      if ← accepts g element (some item) then acceptsEntries g (.rest element :: entries) items
      else acceptsEntries g entries (item :: items)) := by
  rw [acceptsEntries, Check.dropAccepted, bind_assoc]
  refine bind_congr fun accepted => ?_
  cases accepted with
  | true => rw [if_pos rfl, if_pos rfl, acceptsEntries]
  | false => rw [if_neg Bool.false_ne_true, if_neg Bool.false_ne_true]; rfl

theorem turn_of_isRest_eq_false {entry : Range} (h : entry.isRest = false) (item : NodeId)
    (c : Cursors) : turn g entry item c = (do
      if ← accepts g entry (some item) then pure (some ⟨c.item + 1, c.entry + 1⟩) else pure none) := by
  cases entry with
  | rest element => cases h
  | _ => rfl

/-- With no item left, only a last entry that is a rest entry may be left. -/
theorem acceptsEntries_no_items (entry : Range) :
    acceptsEntries g (entry :: entries) [] = pure (entry.isRest && entries.isEmpty) := by
  cases hrest : entry.isRest with
  | true =>
    obtain ⟨element, rfl⟩ := eq_rest_of_isRest hrest
    rfl
  | false => exact acceptsEntries_nil g hrest entries

variable {g entries items}

/-- Where a cursor has come to an end, the verdict is that on what is left. -/
theorem conclude_eq {c : Cursors} (hitem : c.item ≤ items.length) (hentry : c.entry ≤ entries.length)
    (hend : items[c.item]? = none ∨ entries[c.entry]? = none) :
    (pure (conclude entries items c) : StateM TypedValues (Option Bool)) =
      some <$> acceptsEntries g (entries.drop c.entry) (items.drop c.item) := by
  rw [List.getElem?_eq_none_iff, List.getElem?_eq_none_iff] at hend
  rw [conclude]
  by_cases hlast : c.item = items.length
  · rw [if_pos hlast, hlast, List.drop_length]
    by_cases hdone : c.entry = entries.length
    · rw [if_pos hdone, hdone, List.drop_length]
      rfl
    · -- An entry is left, so there is a last place.
      have hlt : c.entry < entries.length := by omega
      have hplace : lastIndex? entries = some (entries.length - 1) :=
        if_neg fun hnil => by simp [List.isEmpty_iff.mp hnil] at hlt
      have hempty : (entries.drop (c.entry + 1)).isEmpty = decide (c.entry = entries.length - 1) := by
        rw [Bool.eq_iff_iff, List.isEmpty_iff, List.drop_eq_nil_iff, decide_eq_true_iff]
        omega
      rw [if_neg hdone, hplace, List.getElem?_eq_getElem hlt, List.drop_eq_getElem_cons hlt,
        acceptsEntries_no_items, hempty]
      by_cases hpos : c.entry = entries.length - 1 <;> simp [hpos]
  · have hdone : c.entry = entries.length := by omega
    have hleft : (items.drop c.item).isEmpty = false := by
      rw [Bool.eq_false_iff, Ne, List.isEmpty_iff, List.drop_eq_nil_iff]
      omega
    rw [if_neg hlast, hdone, List.drop_length, acceptsEntries, hleft]
    rfl

/-- **The walk ends**, after no more turns than there are items and entries, and never asks for the last
place of an empty list: it does what `acceptsEntries` does with the items and entries that are left. -/
theorem walk_eq {limit : Nat} {c : Cursors} (hitem : c.item ≤ items.length)
    (hentry : c.entry ≤ entries.length)
    (hlimit : (items.length - c.item) + (entries.length - c.entry) < limit) :
    walk g entries items limit c =
      some <$> acceptsEntries g (entries.drop c.entry) (items.drop c.item) := by
  induction limit generalizing c with
  | zero => exact absurd hlimit (Nat.not_lt_zero _)
  | succ limit ih =>
    rw [walk]
    cases hi : items[c.item]? with
    | none => exact conclude_eq hitem hentry (.inl hi)
    | some item =>
      cases he : entries[c.entry]? with
      | none => exact conclude_eq hitem hentry (.inr he)
      | some entry =>
        obtain ⟨hilt, rfl⟩ := List.getElem?_eq_some_iff.mp hi
        obtain ⟨helt, rfl⟩ := List.getElem?_eq_some_iff.mp he
        have hitems := List.drop_eq_getElem_cons hilt
        have hentries := List.drop_eq_getElem_cons helt
        dsimp only
        rw [hitems, hentries]
        cases hrest : entries[c.entry].isRest with
        | true =>
          obtain ⟨element, hentry⟩ := eq_rest_of_isRest hrest
          rw [hentry, turn, acceptsEntries_rest_cons, map_bind, bind_assoc]
          refine bind_congr fun accepted => ?_
          cases accepted with
          | true =>
            rw [if_pos rfl, if_pos rfl, pure_bind]
            refine (ih (c := { c with item := c.item + 1 }) ?_ ?_ ?_).trans ?_
            · exact hilt
            · exact helt.le
            · show items.length - (c.item + 1) + (entries.length - c.entry) < limit
              omega
            · rw [hentries, hentry]
          | false =>
            rw [if_neg Bool.false_ne_true, if_neg Bool.false_ne_true, pure_bind]
            refine (ih (c := { c with entry := c.entry + 1 }) ?_ ?_ ?_).trans ?_
            · exact hilt.le
            · exact helt
            · show items.length - c.item + (entries.length - (c.entry + 1)) < limit
              omega
            · rw [hitems]
        | false =>
          rw [turn_of_isRest_eq_false g hrest, acceptsEntries_cons g hrest, map_bind, bind_assoc]
          refine bind_congr fun accepted => ?_
          cases accepted with
          | true =>
            rw [if_pos rfl, if_pos rfl, pure_bind]
            refine ih (c := ⟨c.item + 1, c.entry + 1⟩) hilt helt ?_
            show items.length - (c.item + 1) + (entries.length - (c.entry + 1)) < limit
            omega
          | false => rfl

end Range

/-! ## Segments -/

namespace Store

/-- What an entry of a tuple stands for: one item that it accepts, or, for a rest entry, items in its
element range. -/
def Fills (s : Store) : Range → List NodeId → Prop
  | .rest element, segment => ∀ item ∈ segment, (s.accepts element (some item)).1 = true
  | entry, segment => ∃ item, segment = [item] ∧ (s.accepts entry (some item)).1 = true

/-- Items that are cut into one segment for each entry, in order. -/
def Segments (s : Store) (entries : List Range) (items : List NodeId) : Prop :=
  ∃ segments : List (List NodeId), segments.flatten = items ∧ List.Forall₂ s.Fills entries segments

/-- A rest entry never takes an item that the next entry needs: the next one is no rest entry, and none
of the items is for both. -/
def HandsOver (s : Store) (items : List NodeId) : Range → Range → Prop
  | .rest element, next => next.isRest = false ∧ ∀ item ∈ items,
      ¬((s.accepts element (some item)).1 = true ∧ (s.accepts next (some item)).1 = true)
  | _, _ => True

variable {s : Store} {entry : Range} {entries : List Range} {items segment : List NodeId}

theorem fills_of_isRest_eq_false (h : entry.isRest = false) :
    s.Fills entry segment ↔ ∃ item, segment = [item] ∧ (s.accepts entry (some item)).1 = true := by
  cases entry with
  | rest element => cases h
  | _ => rfl

theorem segments_nil : s.Segments [] items ↔ items = [] := by
  constructor
  · rintro ⟨segments, rfl, hsegments⟩
    cases hsegments
    rfl
  · rintro rfl
    exact ⟨[], rfl, .nil⟩

/-- The first segment is that of the first entry. -/
theorem segments_cons : s.Segments (entry :: entries) items ↔
    ∃ segment left, items = segment ++ left ∧ s.Fills entry segment ∧ s.Segments entries left := by
  constructor
  · rintro ⟨segments, rfl, hsegments⟩
    cases hsegments with
    | cons hfills hsegments => exact ⟨_, _, rfl, hfills, _, rfl, hsegments⟩
  · rintro ⟨segment, left, rfl, hfills, segments, rfl, hsegments⟩
    exact ⟨segment :: segments, rfl, .cons hfills hsegments⟩

end Store

namespace Trial

/-- Items that are accepted are not left. -/
theorem dropAccepted_append {f : NodeId → Trial} {accepted left : List NodeId}
    (h : ∀ item ∈ accepted, (f item).verdict = true) :
    (dropAccepted f (accepted ++ left)).1 = (dropAccepted f left).1 := by
  induction accepted with
  | nil => rfl
  | cons item accepted ih =>
    rw [List.cons_append, dropAccepted, if_pos (h item List.mem_cons_self)]
    exact ih fun other hother => h other (List.mem_cons_of_mem _ hother)

end Trial

namespace Range

open Store

variable {s : Store} {entry : Range} {entries : List Range} {items : List NodeId}

theorem verdict_trial (r : Range) (value : Option NodeId) :
    (r.trial s.graph value).verdict = (s.accepts r value).1 := by
  rw [accepts_eq]

/-- **What a tuple accepts can be cut into segments.** -/
theorem segments_of_trial (h : (trialEntries s.graph entries items).verdict = true) :
    s.Segments entries items := by
  induction entries generalizing items with
  | nil => exact segments_nil.mpr (List.isEmpty_iff.mp h)
  | cons entry entries ih =>
    cases hrest : entry.isRest with
    | true =>
      obtain ⟨element, rfl⟩ := eq_rest_of_isRest hrest
      obtain ⟨accepted, hsplit, haccepted⟩ :=
        Trial.dropAccepted_split (fun item => trial s.graph element (some item)) items
      rw [trialEntries, Trial.verdict_after] at h
      refine segments_cons.mpr ⟨accepted, _, hsplit, fun item hitem => ?_, ?_⟩
      · rw [← verdict_trial]
        exact (haccepted item hitem).1
      · split at h
        · rename_i hleft
          rw [List.isEmpty_iff.mp h]
          exact segments_nil.mpr (List.isEmpty_iff.mp hleft)
        · exact ih h
    | false =>
      cases items with
      | nil =>
        rw [trialEntries_nil s.graph hrest] at h
        cases h
      | cons item items =>
        rw [trialEntries_cons s.graph hrest, Trial.verdict_andThen, Bool.and_eq_true,
          verdict_trial] at h
        exact segments_cons.mpr
          ⟨[item], items, rfl, (fills_of_isRest_eq_false hrest).mpr ⟨item, rfl, h.1⟩, ih h.2⟩

/-- **A tuple accepts what can be cut into segments**, if its rest entries hand over. The items that
they are asked about may be more than those that are left. -/
theorem trial_of_segments {all : List NodeId} (hover : entries.IsChain (s.HandsOver all))
    (hsub : items ⊆ all) (h : s.Segments entries items) :
    (trialEntries s.graph entries items).verdict = true := by
  induction entries generalizing items with
  | nil => exact List.isEmpty_iff.mpr (segments_nil.mp h)
  | cons entry entries ih =>
    obtain ⟨segment, left, rfl, hfills, hleft⟩ := segments_cons.mp h
    have hnext : (trialEntries s.graph entries left).verdict = true :=
      ih (List.isChain_cons.mp hover).2 (List.Subset.trans (List.subset_append_right _ _) hsub) hleft
    cases hrest : entry.isRest with
    | false =>
      obtain ⟨item, rfl, hitem⟩ := (fills_of_isRest_eq_false hrest).mp hfills
      rw [List.singleton_append, trialEntries_cons s.graph hrest, Trial.verdict_andThen,
        verdict_trial, hitem, hnext]
      rfl
    | true =>
      obtain ⟨element, rfl⟩ := eq_rest_of_isRest hrest
      rw [trialEntries, Trial.verdict_after,
        Trial.dropAccepted_append fun item hitem => (verdict_trial element _).trans (hfills item hitem)]
      cases entries with
      | nil =>
        rw [segments_nil.mp hleft]
        rfl
      | cons next entries =>
        -- The next entry has an item, and the rest entry gives it away.
        obtain ⟨hsolid, hgives⟩ := (List.isChain_cons_cons.mp hover).1
        obtain ⟨_, left, rfl, hfills, -⟩ := segments_cons.mp hleft
        obtain ⟨item, rfl, hitem⟩ := (fills_of_isRest_eq_false hsolid).mp hfills
        have hrefused : (trial s.graph element (some item)).verdict = false := by
          rw [verdict_trial]
          refine Bool.eq_false_iff.mpr fun hcon => hgives item (hsub ?_) ⟨hcon, hitem⟩
          exact List.mem_append_right _ List.mem_cons_self
        have hkept : (Trial.dropAccepted (fun item => trial s.graph element (some item))
            (item :: left)).1 = item :: left := by
          rw [Trial.dropAccepted, if_neg (by simp [hrefused])]
        rw [List.singleton_append, hkept]
        exact hnext

end Range

/-! ## Tuples of stores -/

namespace Store

/-- **Tuples and segments.** A tuple accepts a list that is not tagged as a variable only if its items
can be cut into segments, one for each entry in order: one item that the entry accepts, or, for a rest
entry, any number of items in its element range. It accepts all such lists if no rest entry follows
another and no item is both for a rest entry and for the one after it. The walk over items and entries
ends, always with a verdict, that of the check, and leaves the typed values of the check; so it never
asks for the last place of a tuple without entries. -/
theorem tuple_segments (s : Store) {id : NodeId} {items : List NodeId}
    (hitems : s.graph.listItems? id = some items) (hvariable : s.graph.isVariable id = false)
    (entries : List Range) :
    ((s.accepts (.tuple entries) (some id)).1 = true → s.Segments entries items) ∧
    (entries.IsChain (s.HandsOver items) → s.Segments entries items →
      (s.accepts (.tuple entries) (some id)).1 = true) ∧
    ∀ limit, items.length + entries.length < limit →
      (Range.walk s.graph entries items limit {}).run s.typed =
        (some (s.accepts (.tuple entries) (some id)).1,
          (s.accepts (.tuple entries) (some id)).2.typed) := by
  have htrial : (Range.tuple entries).trial s.graph (some id) =
      Range.trialEntries s.graph entries items := by
    rw [Range.trial, hvariable, hitems]
    rfl
  have haccepts : (s.accepts (.tuple entries) (some id)).1 =
      (Range.trialEntries s.graph entries items).verdict := by rw [accepts_eq, htrial]
  refine ⟨fun h => Range.segments_of_trial (haccepts ▸ h), fun hover h => ?_, fun limit hlimit => ?_⟩
  · rw [haccepts]
    exact Range.trial_of_segments hover (List.Subset.refl items) h
  · rw [Range.walk_eq (Nat.zero_le _) (Nat.zero_le _) hlimit, accepts_eq, htrial]
    show Prod.map some (fun typed => typed)
      ((Range.acceptsEntries s.graph entries items).run s.typed) = _
    rw [Range.performs_acceptsEntries]
    rfl

/-- A list of the texts `1`, `2` and `true`. -/
def countedList : Store :=
  [Update.literal "1", .literal "2", .literal "true", .list [0, 1, 2]].foldl
    (fun s u => (s.apply u).2) {}

/-- Integers hand over to a boolean, and do not take the third item. -/
theorem tuple_segments_countedList :
    let entries : List Range := [.rest (.type Xsd.integer), .type Xsd.boolean]
    countedList.graph.listItems? 3 = some [0, 1, 2] ∧ countedList.graph.isVariable 3 = false ∧
    entries.IsChain (countedList.HandsOver [0, 1, 2]) ∧ countedList.Segments entries [0, 1, 2] ∧
    (countedList.accepts (.tuple entries) (some 3)).1 = true := by
  intro entries
  have hover : entries.IsChain (countedList.HandsOver [0, 1, 2]) :=
    List.isChain_cons_cons.mpr ⟨⟨rfl, by decide +kernel⟩, .singleton _⟩
  have hcut : countedList.Segments entries [0, 1, 2] :=
    ⟨[[0, 1], [2]], rfl, .cons (by decide +kernel : ∀ item ∈ [0, 1],
      (countedList.accepts (.type Xsd.integer) (some item)).1 = true)
      (.cons ⟨2, rfl, by decide +kernel⟩ .nil)⟩
  have hitems : countedList.graph.listItems? 3 = some [0, 1, 2] := by decide +kernel
  have hvariable : countedList.graph.isVariable 3 = false := by decide +kernel
  have h := tuple_segments countedList hitems hvariable entries
  exact ⟨hitems, hvariable, hover, hcut, h.2.1 hover hcut⟩

/-- A rest entry for strings keeps all items, and none is left for the last entry. -/
example : (countedList.accepts (.tuple [.rest (.type Xsd.string), .type Xsd.boolean])
    (some 3)).1 = false := by
  decide +kernel

end Store

end Wiring

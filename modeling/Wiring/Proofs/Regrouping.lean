import Mathlib.Logic.Relation
import Wiring.Proofs.Trials

/-!
# Options as sets

A union tries its options in order, up to the first that accepts the value, and an intersection up to the
first that does not. What the options that are tried leave on literals depends on their order. The
verdict does not: it is that of a disjunction or of a conjunction.

- `Range.Regroups`: one change of the options of a union or intersection somewhere in a range: another
  order, other repetitions, or the options of an option of the same sort in its place.
- `Range.Interchangeable`: ranges that give the same verdict for every value, and do so as entries of a
  tuple too, where a rest entry is more than what it accepts. The relation is a congruence
  (`Interchangeable.array`, `Interchangeable.entry`, `Interchangeable.option`).
- `Range.interchangeable_of_regrouped`: any number of changes leads to an interchangeable range.

`Store.regrouped_verdict` is the outcome for checks.
-/

namespace Wiring

namespace Trial

/-- The items that are left depend on verdicts only. -/
theorem dropAccepted_left_congr {f f' : NodeId → Trial}
    (h : ∀ item, (f item).verdict = (f' item).verdict) (items : List NodeId) :
    (dropAccepted f items).1 = (dropAccepted f' items).1 := by
  induction items with
  | nil => rfl
  | cons item items ih =>
    rw [dropAccepted, dropAccepted, h item]
    split
    · exact ih
    · rfl

end Trial

namespace Range

/-- How options are taken together. -/
inductive Grouping where
  | union
  | intersection

namespace Grouping

/-- The range with these options. -/
def of : Grouping → List Range → Range
  | .union, options => .union options
  | .intersection, options => .intersection options

/-- Whether it is enough that a condition holds of some option, or it has to hold of every one. -/
def Holds (c : Grouping) (p : Range → Prop) (options : List Range) : Prop :=
  match c with
  | .union => ∃ r ∈ options, p r
  | .intersection => ∀ r ∈ options, p r

variable {c : Grouping} {p q : Range → Prop} {options options' : List Range}

@[simp] theorem isRest_of (c : Grouping) (options : List Range) : (c.of options).isRest = false := by
  cases c <;> rfl

theorem holds_singleton (c : Grouping) (p : Range → Prop) (r : Range) : c.Holds p [r] ↔ p r := by
  cases c <;> simp [Holds]

/-- Only the members count. -/
theorem holds_of_same_members (h : options ⊆ options') (h' : options' ⊆ options) :
    c.Holds p options ↔ c.Holds p options' := by
  cases c with
  | union =>
    constructor
    · rintro ⟨r, hr, hp⟩
      exact ⟨r, h hr, hp⟩
    · rintro ⟨r, hr, hp⟩
      exact ⟨r, h' hr, hp⟩
  | intersection =>
    constructor
    · exact fun hp r hr => hp r (h' hr)
    · exact fun hp r hr => hp r (h hr)

/-- Options may be replaced by others, if those fulfil the condition in the same cases. -/
theorem holds_append_congr (before after : List Range) {inner inner' : List Range}
    (h : c.Holds p inner ↔ c.Holds p inner') :
    c.Holds p (before ++ inner ++ after) ↔ c.Holds p (before ++ inner' ++ after) := by
  cases c with
  | union => simp only [Holds, List.mem_append, or_and_right, exists_or] at h ⊢; rw [h]
  | intersection => simp only [Holds, List.mem_append, or_imp, forall_and] at h ⊢; rw [h]

end Grouping

/-- One change in a range, by which the options of a union or of an intersection in it are regrouped. -/
inductive Regroups : Range → Range → Prop
  /-- The same options, in any order and each of them any number of times. -/
  | members (c : Grouping) {options options' : List Range} (sub : options ⊆ options')
      (sup : options' ⊆ options) : Regroups (c.of options) (c.of options')
  /-- The options of an option of the same sort, possibly none, in its place. -/
  | flatten (c : Grouping) (before inner after : List Range) :
      Regroups (c.of (before ++ c.of inner :: after)) (c.of (before ++ inner ++ after))
  /-- A change in an element range. -/
  | array {r r' : Range} (h : Regroups r r') : Regroups (.array r) (.array r')
  /-- A change in the element range of a rest entry. -/
  | rest {r r' : Range} (h : Regroups r r') : Regroups (.rest r) (.rest r')
  /-- A change in an entry of a tuple. -/
  | entry (before after : List Range) {r r' : Range} (h : Regroups r r') :
      Regroups (.tuple (before ++ r :: after)) (.tuple (before ++ r' :: after))
  /-- A change in an option. -/
  | option (c : Grouping) (before after : List Range) {r r' : Range} (h : Regroups r r') :
      Regroups (c.of (before ++ r :: after)) (c.of (before ++ r' :: after))

/-- Any number of changes, each of them in either direction. -/
abbrev Regrouped : Range → Range → Prop := Relation.EqvGen Regroups

/-! ## Verdicts of options -/

variable {g : Graph} {r r' : Range}

/-- Options accept variables, and else what some or every one of them accepts. -/
theorem verdict_of (c : Grouping) (options : List Range) (value : Option NodeId) :
    (trial g (c.of options) value).verdict = true ↔
      value.any g.isVariable = true ∨ c.Holds (fun r => (trial g r value).verdict = true) options := by
  by_cases hvariable : value.any g.isVariable = true
  · cases c <;> simp [Grouping.of, trial, hvariable]
  · cases c with
    | union => simp [Grouping.of, trial, hvariable, Grouping.Holds, verdict_trialSome]
    | intersection => simp [Grouping.of, trial, hvariable, Grouping.Holds, verdict_trialEvery]

/-! ## Interchangeable ranges -/

/-- Ranges with the same verdict on every value, also in the place of an entry of a tuple. -/
structure Interchangeable (g : Graph) (r r' : Range) : Prop where
  verdict : ∀ value, (trial g r value).verdict = (trial g r' value).verdict
  entry : ∀ entries items, (trialEntries g (r :: entries) items).verdict =
    (trialEntries g (r' :: entries) items).verdict

namespace Interchangeable

theorem refl (g : Graph) (r : Range) : Interchangeable g r r := ⟨fun _ => rfl, fun _ _ => rfl⟩

theorem symm (h : Interchangeable g r r') : Interchangeable g r' r :=
  ⟨fun value => (h.verdict value).symm, fun entries items => (h.entry entries items).symm⟩

theorem trans {r'' : Range} (h : Interchangeable g r r') (h' : Interchangeable g r' r'') :
    Interchangeable g r r'' where
  verdict value := (h.verdict value).trans (h'.verdict value)
  entry entries items := (h.entry entries items).trans (h'.entry entries items)

/-- Entries that take one item each are interchangeable if they accept the same values. -/
theorem of_verdict (hr : r.isRest = false) (hr' : r'.isRest = false)
    (h : ∀ value, (trial g r value).verdict = (trial g r' value).verdict) :
    Interchangeable g r r' where
  verdict := h
  entry entries items := by
    cases items with
    | nil => rw [trialEntries_nil g hr, trialEntries_nil g hr']
    | cons item items =>
      rw [trialEntries_cons g hr, trialEntries_cons g hr', Trial.verdict_andThen,
        Trial.verdict_andThen, h]

theorem array (h : Interchangeable g r r') : Interchangeable g (.array r) (.array r') := by
  refine of_verdict rfl rfl fun value => ?_
  cases value with
  | none => rfl
  | some id =>
    simp only [trial]
    split
    · rfl
    · split
      · rfl
      · simp only [Trial.verdict_allOf, h.verdict]

/-- Rest entries with interchangeable element ranges hand over at the same items. -/
theorem rest (h : Interchangeable g r r') : Interchangeable g (.rest r) (.rest r') where
  verdict _ := rfl
  entry entries items := by
    have hleft := Trial.dropAccepted_left_congr (fun item => h.verdict (some item)) items
    simp only [trialEntries, Trial.verdict_after, hleft]

theorem option (c : Grouping) (before after : List Range) (h : Interchangeable g r r') :
    Interchangeable g (c.of (before ++ r :: after)) (c.of (before ++ r' :: after)) := by
  refine of_verdict (c.isRest_of _) (c.isRest_of _) fun value => Bool.eq_iff_iff.mpr ?_
  rw [verdict_of, verdict_of, List.append_cons before r, List.append_cons before r']
  refine or_congr_right (Grouping.holds_append_congr before after ?_)
  rw [Grouping.holds_singleton, Grouping.holds_singleton, h.verdict]

/-- What comes before an entry does not tell interchangeable ones apart. -/
theorem trialEntries_congr (before after : List Range) (h : Interchangeable g r r')
    (items : List NodeId) : (trialEntries g (before ++ r :: after) items).verdict =
      (trialEntries g (before ++ r' :: after) items).verdict := by
  induction before generalizing items with
  | nil => exact h.entry after items
  | cons first before ih =>
    rw [List.cons_append, List.cons_append]
    cases hrest : first.isRest with
    | true =>
      obtain ⟨element, rfl⟩ := eq_rest_of_isRest hrest
      rw [trialEntries, trialEntries, Trial.verdict_after, Trial.verdict_after]
      split
      · -- No item is left, but both times an entry.
        rw [List.isEmpty_eq_false_iff.mpr (by simp), List.isEmpty_eq_false_iff.mpr (by simp)]
      · exact ih _
    | false =>
      cases items with
      | nil => rw [trialEntries_nil g hrest, trialEntries_nil g hrest]
      | cons item items =>
        rw [trialEntries_cons g hrest, trialEntries_cons g hrest, Trial.verdict_andThen,
          Trial.verdict_andThen, ih]

theorem tuple (before after : List Range) (h : Interchangeable g r r') :
    Interchangeable g (.tuple (before ++ r :: after)) (.tuple (before ++ r' :: after)) := by
  refine of_verdict rfl rfl fun value => ?_
  cases value with
  | none => rfl
  | some id =>
    simp only [trial]
    split
    · rfl
    · split
      · rfl
      · exact h.trialEntries_congr before after _

end Interchangeable

/-- One change leads to an interchangeable range. -/
theorem interchangeable_of_regroups (g : Graph) (h : Regroups r r') : Interchangeable g r r' := by
  induction h with
  | members c sub sup =>
    refine .of_verdict (c.isRest_of _) (c.isRest_of _) fun value => Bool.eq_iff_iff.mpr ?_
    rw [verdict_of, verdict_of, Grouping.holds_of_same_members sub sup]
  | flatten c before inner after =>
    refine .of_verdict (c.isRest_of _) (c.isRest_of _) fun value => Bool.eq_iff_iff.mpr ?_
    rw [verdict_of, verdict_of, List.append_cons before (c.of inner)]
    by_cases hvariable : value.any g.isVariable = true
    · exact iff_of_true (.inl hvariable) (.inl hvariable)
    · -- Of another value than a variable, the inner options decide in the same way as the outer ones.
      refine or_congr_right (Grouping.holds_append_congr before after ?_)
      rw [Grouping.holds_singleton, verdict_of, or_iff_right hvariable]
  | array _ ih => exact ih.array
  | rest _ ih => exact ih.rest
  | entry before after _ ih => exact ih.tuple before after
  | option c before after _ ih => exact ih.option c before after

/-- **Regrouped ranges are interchangeable.** -/
theorem interchangeable_of_regrouped (g : Graph) (h : Regrouped r r') : Interchangeable g r r' := by
  induction h with
  | rel _ _ h => exact interchangeable_of_regroups g h
  | refl r => exact .refl g r
  | symm _ _ _ ih => exact ih.symm
  | trans _ _ _ _ _ ih ih' => exact ih.trans ih'

end Range

/-! ## Checks -/

namespace Store

/-- **Unions and intersections are sets, as far as the verdict goes.** If the options of unions and
intersections at any depth in a range are put in another order, repeated, or replaced by their own
options where they are of the same sort, the verdict of a check stays the same, for every value, present
or not, and whatever typed values there are. What a check leaves on literals may change. -/
theorem regrouped_verdict :
    (∀ {r r' : Range}, Range.Regrouped r r' → ∀ (s : Store) (value : Option NodeId),
      (s.accepts r value).1 = (s.accepts r' value).1) ∧
    ∃ (s : Store) (r r' : Range) (id : NodeId), Range.Regrouped r r' ∧
      (s.accepts r (some id)).2.typed? id ≠ (s.accepts r' (some id)).2.typed? id := by
  constructor
  · intro r r' h s value
    rw [accepts_eq, accepts_eq]
    exact (Range.interchangeable_of_regrouped s.graph h).verdict value
  · refine ⟨(({} : Store).apply (.literal "1")).2, .union [.type Xsd.integer, .type Xsd.float],
      .union [.type Xsd.float, .type Xsd.integer], 0, .rel _ _ (.members .union ?_ ?_), ?_⟩
    · simp
    · simp
    · intro h
      cases h

/-- Numbers and booleans as the items of a rest entry, and then a string, with options to spare. -/
def sparingTuple : Range :=
  .tuple [.rest (.union [.type Xsd.boolean, .union [.type Xsd.integer, .type Xsd.boolean]]),
    .intersection [.type Xsd.string, .intersection []]]

/-- The same with as few options as possible, in another order. -/
def sparseTuple : Range :=
  .tuple [.rest (.union [.type Xsd.integer, .type Xsd.boolean]), .intersection [.type Xsd.string]]

/-- The texts `1` and `x` are accepted in both forms. -/
theorem regrouped_verdict_sparse : Range.Regrouped sparingTuple sparseTuple ∧
    (mixedList.accepts sparingTuple (some 2)).1 = true ∧
    (mixedList.accepts sparseTuple (some 2)).1 = true := by
  have hflat : Range.Regroups sparingTuple (.tuple
      [.rest (.union [.type Xsd.boolean, .type Xsd.integer, .type Xsd.boolean]),
        .intersection [.type Xsd.string, .intersection []]]) :=
    .entry [] _ (.rest (.flatten .union [.type Xsd.boolean] [.type Xsd.integer, .type Xsd.boolean] []))
  have hmembers : Range.Regroups
      (.union [.type Xsd.boolean, .type Xsd.integer, .type Xsd.boolean])
      (.union [.type Xsd.integer, .type Xsd.boolean]) :=
    .members .union (by simp) (by simp)
  have hempty : Range.Regroups (.intersection [.type Xsd.string, .intersection []])
      (.intersection [.type Xsd.string]) :=
    .flatten .intersection [.type Xsd.string] [] []
  have h : Range.Regrouped sparingTuple sparseTuple :=
    .trans _ _ _ (.rel _ _ hflat)
      (.trans _ _ _ (.rel _ _ (.entry [] _ (.rest hmembers))) (.rel _ _ (.entry [_] [] hempty)))
  have haccepted : (mixedList.accepts sparingTuple (some 2)).1 = true := by decide +kernel
  exact ⟨h, haccepted, regrouped_verdict.1 h mixedList (some 2) ▸ haccepted⟩

end Store

end Wiring

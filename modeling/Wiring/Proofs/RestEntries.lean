import Wiring.Proofs.Tuples

/-!
# A further rest entry

The walk over the items and entries of a tuple ends when no item is left. It has succeeded if it has come
to the end of the entries, or to a rest entry that is the last of them. What a rest entry that is added at
the end makes of an accepted list depends on the entry before it:

- behind an entry that takes one item it may stay without any, and takes whatever the entries before
  have left over (`Range.verdict_append_rest`);
- behind another rest entry it needs an item, since the walk rests on the entry before until an item
  comes that this one does not take (`Range.trial_append_rest`).

`Store.added_rest` says this of the checks of a store, and `Store.added_rest_refused` that the second case
occurs.
-/

namespace Wiring

namespace Range

/-- Whether the last entry of a tuple is a rest entry. -/
def endsInRest (entries : List Range) : Bool := entries.getLast?.any isRest

@[simp] theorem endsInRest_cons_cons (entry next : Range) (entries : List Range) :
    endsInRest (entry :: next :: entries) = endsInRest (next :: entries) := by
  simp [endsInRest, List.getLast?_cons_cons]

/-- Before other entries, an entry does not count. -/
theorem endsInRest_cons (entry : Range) {entries : List Range} (h : entries ≠ []) :
    endsInRest (entry :: entries) = endsInRest entries := by
  cases entries with
  | nil => exact absurd rfl h
  | cons next entries => exact endsInRest_cons_cons entry next entries

/-- Before other entries, and before none, an entry that takes one item does not count. -/
theorem endsInRest_cons_of_isRest_eq_false {entry : Range} (h : entry.isRest = false)
    (entries : List Range) : endsInRest (entry :: entries) = endsInRest entries := by
  cases entries with
  | nil => exact h
  | cons next entries => exact endsInRest_cons_cons entry next entries

variable {g : Graph} {entries : List Range} {items : List NodeId}

/-- Without items, only the tuple without entries and single rest entries match. -/
theorem verdict_trialEntries_nil (g : Graph) (entries : List Range) :
    (trialEntries g entries []).verdict = true ↔ entries = [] ∨ ∃ element, entries = [.rest element] := by
  cases entries with
  | nil => simp [trialEntries]
  | cons entry entries =>
    cases hrest : entry.isRest with
    | true =>
      obtain ⟨element, rfl⟩ := eq_rest_of_isRest hrest
      simp [trialEntries, Trial.dropAccepted]
    | false =>
      rw [trialEntries_nil g hrest]
      constructor
      · intro h
        cases h
      · rintro (h | ⟨element, h⟩)
        · cases h
        · cases h
          cases hrest

/-- **Where a tuple has succeeded**, a further rest entry finds no item left. It changes nothing, unless
the last entry before it is a rest entry too: then the verdict turns into a refusal. -/
theorem trial_append_rest (element : Range) (h : (trialEntries g entries items).verdict = true) :
    trialEntries g (entries ++ [.rest element]) items =
      ⟨!endsInRest entries, (trialEntries g entries items).writes⟩ := by
  induction entries generalizing items with
  | nil =>
    obtain rfl : items = [] := List.isEmpty_iff.mp h
    rfl
  | cons entry entries ih =>
    rw [List.cons_append]
    cases hrest : entry.isRest with
    | true =>
      obtain ⟨taken, rfl⟩ := eq_rest_of_isRest hrest
      rw [trialEntries, Trial.verdict_after] at h
      rw [trialEntries, trialEntries]
      by_cases hleft : (Trial.dropAccepted (fun item => trial g taken (some item)) items).1.isEmpty
      · -- The items are used up here, and the walk does not come to the next entry.
        rw [if_pos hleft] at h
        obtain rfl : entries = [] := List.isEmpty_iff.mp h
        rw [if_pos hleft, if_pos hleft]
        rfl
      · rw [if_neg hleft] at h
        have hmore : entries ≠ [] := by
          rintro rfl
          exact hleft h
        rw [if_neg hleft, if_neg hleft, ih h, endsInRest_cons _ hmore]
        rfl
    | false =>
      cases items with
      | nil =>
        rw [trialEntries_nil g hrest] at h
        cases h
      | cons item items =>
        rw [trialEntries_cons g hrest, Trial.verdict_andThen, Bool.and_eq_true] at h
        rw [trialEntries_cons g hrest, trialEntries_cons g hrest, ih h.2, Trial.andThen,
          Trial.andThen, if_pos h.1, if_pos h.1, endsInRest_cons_of_isRest_eq_false hrest]
        rfl

/-- A rest entry passes the items that it accepts, and stops at the first of the others. -/
theorem dropAccepted_eq_of_head {f : NodeId → Trial} {accepted left : List NodeId}
    (haccepted : ∀ item ∈ accepted, (f item).verdict = true)
    (hleft : ∀ item ∈ left.head?, (f item).verdict = false) :
    (Trial.dropAccepted f (accepted ++ left)).1 = left := by
  rw [Trial.dropAccepted_append haccepted]
  cases left with
  | nil => rfl
  | cons item left =>
    have hitem : (f item).verdict = false := hleft item rfl
    rw [Trial.dropAccepted, if_neg (by rw [hitem]; exact Bool.false_ne_true)]

/-- The first of the items that a rest entry leaves is one that it does not accept. -/
theorem verdict_head_dropAccepted (f : NodeId → Trial) (items : List NodeId) :
    ∀ item ∈ (Trial.dropAccepted f items).1.head?, (f item).verdict = false := by
  induction items with
  | nil => exact fun _ h => nomatch h
  | cons item items ih =>
    rw [Trial.dropAccepted]
    by_cases hitem : (f item).verdict = true
    · rw [if_pos hitem]
      exact ih
    · rw [if_neg hitem]
      intro other hother
      cases hother
      exact Bool.eq_false_iff.mpr hitem

/-- A tuple that begins with a rest entry accepts items that begin with some in its element range, if the
next one is not, and the entries further on accept the others. If no others are left, there must be no
entry further on. -/
theorem verdict_trialEntries_rest (g : Graph) (element : Range) (entries : List Range)
    (items : List NodeId) :
    (trialEntries g (.rest element :: entries) items).verdict = true ↔
      ∃ accepted left, items = accepted ++ left ∧
        (∀ item ∈ accepted, (trial g element (some item)).verdict = true) ∧
        (∀ item ∈ left.head?, (trial g element (some item)).verdict = false) ∧
        (if left = [] then entries = [] else (trialEntries g entries left).verdict = true) := by
  rw [trialEntries, Trial.verdict_after]
  constructor
  · intro h
    obtain ⟨accepted, hsplit, haccepted⟩ :=
      Trial.dropAccepted_split (fun item => trial g element (some item)) items
    refine ⟨accepted, _, hsplit, fun item hitem => (haccepted item hitem).1,
      verdict_head_dropAccepted (fun item => trial g element (some item)) items, ?_⟩
    by_cases hleft : (Trial.dropAccepted (fun item => trial g element (some item)) items).1 = []
    · rw [if_pos hleft]
      rw [if_pos (List.isEmpty_iff.mpr hleft)] at h
      exact List.isEmpty_iff.mp h
    · rw [if_neg hleft]
      rwa [if_neg fun hcon => hleft (List.isEmpty_iff.mp hcon)] at h
  · rintro ⟨accepted, left, rfl, haccepted, hhead, h⟩
    rw [dropAccepted_eq_of_head haccepted hhead]
    by_cases hleft : left = []
    · rw [if_pos hleft] at h
      rw [if_pos (List.isEmpty_iff.mpr hleft)]
      exact List.isEmpty_iff.mpr h
    · rw [if_neg hleft] at h
      rwa [if_neg fun hcon => hleft (List.isEmpty_iff.mp hcon)]

/-- A rest entry alone takes items that are all in its element range. -/
theorem verdict_trialEntries_single_rest (g : Graph) (element : Range) (items : List NodeId) :
    (trialEntries g [.rest element] items).verdict = true ↔
      ∀ item ∈ items, (trial g element (some item)).verdict = true := by
  rw [trialEntries, Trial.verdict_after, ← List.all_eq_true,
    ← Trial.isEmpty_dropAccepted fun item => trial g element (some item)]
  split
  · rename_i hleft
    exact iff_of_true rfl hleft
  · rfl

/-- **A further rest entry behind an entry that takes one item** takes what the entries before it leave
over: it may be nothing. -/
theorem verdict_append_rest (element : Range) (hends : endsInRest entries = false) :
    (trialEntries g (entries ++ [.rest element]) items).verdict = true ↔
      ∃ front back, items = front ++ back ∧ (trialEntries g entries front).verdict = true ∧
        ∀ item ∈ back, (trial g element (some item)).verdict = true := by
  induction entries generalizing items with
  | nil =>
    rw [List.nil_append, verdict_trialEntries_single_rest]
    constructor
    · exact fun h => ⟨[], items, rfl, rfl, h⟩
    · rintro ⟨front, back, rfl, hfront, hback⟩
      obtain rfl : front = [] := List.isEmpty_iff.mp hfront
      exact hback
  | cons entry entries ih =>
    rw [List.cons_append]
    cases hrest : entry.isRest with
    | true =>
      obtain ⟨taken, rfl⟩ := eq_rest_of_isRest hrest
      have hmore : entries ≠ [] := by
        rintro rfl
        exact Bool.noConfusion (hends : true = false)
      rw [endsInRest_cons _ hmore] at hends
      -- Something has to be left for the entries further on, since they do not end in a rest entry.
      have hneeds : ∀ {front}, (trialEntries g entries front).verdict = true → front ≠ [] := by
        rintro front hfront rfl
        rcases (verdict_trialEntries_nil g entries).mp hfront with rfl | ⟨other, rfl⟩
        · exact hmore rfl
        · exact Bool.noConfusion (hends : true = false)
      rw [verdict_trialEntries_rest]
      constructor
      · rintro ⟨accepted, left, rfl, haccepted, hhead, h⟩
        by_cases hleft : left = []
        · rw [if_pos hleft] at h
          exact absurd h (by simp)
        · rw [if_neg hleft, ih hends] at h
          obtain ⟨front, back, rfl, hfront, hback⟩ := h
          rw [List.head?_append_of_ne_nil _ (hneeds hfront)] at hhead
          refine ⟨accepted ++ front, back, (List.append_assoc ..).symm, ?_, hback⟩
          refine (verdict_trialEntries_rest ..).mpr ⟨accepted, front, rfl, haccepted, hhead, ?_⟩
          rwa [if_neg (hneeds hfront)]
      · rintro ⟨front, back, rfl, hfront, hback⟩
        obtain ⟨accepted, left, rfl, haccepted, hhead, h⟩ :=
          (verdict_trialEntries_rest ..).mp hfront
        by_cases hleft : left = []
        · rw [if_pos hleft] at h
          exact absurd h hmore
        · rw [if_neg hleft] at h
          refine ⟨accepted, left ++ back, List.append_assoc .., haccepted, ?_, ?_⟩
          · rwa [List.head?_append_of_ne_nil _ hleft]
          · rw [if_neg (by simp [hleft]), ih hends]
            exact ⟨left, back, rfl, h, hback⟩
    | false =>
      rw [endsInRest_cons_of_isRest_eq_false hrest] at hends
      cases items with
      | nil =>
        rw [trialEntries_nil g hrest]
        constructor
        · exact fun h => nomatch h
        · rintro ⟨front, back, hsplit, hfront, -⟩
          obtain ⟨rfl, rfl⟩ := List.append_eq_nil_iff.mp hsplit.symm
          rw [trialEntries_nil g hrest] at hfront
          cases hfront
      | cons item items =>
        rw [trialEntries_cons g hrest, Trial.verdict_andThen, Bool.and_eq_true, ih hends]
        constructor
        · rintro ⟨hitem, front, back, rfl, hfront, hback⟩
          refine ⟨item :: front, back, rfl, ?_, hback⟩
          rw [trialEntries_cons g hrest, Trial.verdict_andThen, hitem, hfront]
          rfl
        · rintro ⟨front, back, hsplit, hfront, hback⟩
          cases front with
          | nil =>
            rw [trialEntries_nil g hrest] at hfront
            cases hfront
          | cons other front =>
            obtain ⟨rfl, rfl⟩ := List.cons.inj hsplit
            rw [trialEntries_cons g hrest, Trial.verdict_andThen, Bool.and_eq_true] at hfront
            exact ⟨hfront.1, front, back, rfl, hfront.2, hback⟩

end Range

namespace Store

variable {s : Store} {id : NodeId} {items : List NodeId}

/-- A list that is not tagged as a variable is tried item by item. -/
theorem accepts_tuple_eq (hitems : s.graph.listItems? id = some items)
    (hvariable : s.graph.isVariable id = false) (entries : List Range) :
    s.accepts (.tuple entries) (some id) =
      ((Range.trialEntries s.graph entries items).verdict,
        { s with typed := s.typed.replay (Range.trialEntries s.graph entries items).writes }) := by
  have htrial : (Range.tuple entries).trial s.graph (some id) =
      Range.trialEntries s.graph entries items := by
    rw [Range.trial, hvariable, hitems]
    rfl
  rw [accepts_eq, htrial]

/-- What a tuple accepts is a variable, or a list. -/
theorem exists_listItems?_of_accepts_tuple {value : Option NodeId} {entries : List Range}
    (h : (s.accepts (.tuple entries) value).1 = true) : ∃ id, value = some id ∧
      (s.graph.isVariable id = true ∨
        s.graph.isVariable id = false ∧ ∃ items, s.graph.listItems? id = some items) := by
  cases value with
  | none => cases h
  | some id =>
    refine ⟨id, rfl, ?_⟩
    cases hvariable : s.graph.isVariable id with
    | true => exact .inl rfl
    | false =>
      refine .inr ⟨rfl, ?_⟩
      cases hitems : s.graph.listItems? id with
      | some items => exact ⟨items, rfl⟩
      | none =>
        rw [accepts_eq, Range.trial, hvariable, hitems] at h
        cases h

/-- **A further rest entry.** Where a tuple accepts a value, the tuple with a rest entry added at its end
leaves the same typed values, and accepts the value if and only if it is a variable or the last entry
before the added one is not a rest entry. In a tuple whose last entry is not a rest entry, the added one
takes what is left over: the items of a list are accepted if and only if they are some that the tuple
accepts without it, followed by any number of items, none included, in its element range. -/
theorem added_rest (s : Store) (value : Option NodeId) (entries : List Range) (element : Range) :
    ((s.accepts (.tuple entries) value).1 = true →
      s.accepts (.tuple (entries ++ [.rest element])) value =
        (value.any s.graph.isVariable || !Range.endsInRest entries,
          (s.accepts (.tuple entries) value).2)) ∧
    ∀ id items, value = some id → s.graph.listItems? id = some items →
      s.graph.isVariable id = false → Range.endsInRest entries = false →
      ((s.accepts (.tuple (entries ++ [.rest element])) value).1 = true ↔
        ∃ front back, items = front ++ back ∧
          ((Range.acceptsEntries s.graph entries front).run s.typed).1 = true ∧
          ∀ item ∈ back, (s.accepts element (some item)).1 = true) := by
  constructor
  · intro h
    obtain ⟨id, rfl, hvariable | ⟨hvariable, items, hitems⟩⟩ := exists_listItems?_of_accepts_tuple h
    · simp [accepts_eq, Range.trial, hvariable]
    · rw [accepts_tuple_eq hitems hvariable] at h
      rw [accepts_tuple_eq hitems hvariable, accepts_tuple_eq hitems hvariable,
        Range.trial_append_rest element h, Option.any_some, hvariable, Bool.false_or]
  · rintro id items rfl hitems hvariable hends
    rw [accepts_tuple_eq hitems hvariable, Range.verdict_append_rest element hends]
    simp only [Range.performs_acceptsEntries s.graph entries _ s.typed, Range.verdict_trial]

/-- A list of one number. -/
def oneNumber : Store :=
  [Update.literal "1", .list [0]].foldl (fun s u => (s.apply u).2) {}

theorem oneNumber_accepted :
    (oneNumber.accepts (.tuple [.rest (.type Xsd.integer)]) (some 1)).1 = true := by
  decide +kernel

/-- A list of one number is accepted as any number of integers, but not if strings may follow. Behind a
single integer strings may follow. -/
theorem added_rest_oneNumber :
    (oneNumber.accepts (.tuple [.rest (.type Xsd.integer)]) (some 1)).1 = true ∧
    (oneNumber.accepts (.tuple [.rest (.type Xsd.integer), .rest (.type Xsd.string)]) (some 1)).1 =
      false ∧
    (oneNumber.accepts (.tuple [.type Xsd.integer, .rest (.type Xsd.string)]) (some 1)).1 = true := by
  have hitems : oneNumber.graph.listItems? 1 = some [0] := by decide +kernel
  have hvariable : oneNumber.graph.isVariable 1 = false := by decide +kernel
  have hfront : ((Range.acceptsEntries oneNumber.graph [.type Xsd.integer] [0]).run
      oneNumber.typed).1 = true := by decide +kernel
  refine ⟨oneNumber_accepted, ?_, ?_⟩
  · have h := (added_rest oneNumber (some 1) [.rest (.type Xsd.integer)] (.type Xsd.string)).1
      oneNumber_accepted
    have hverdict := congrArg Prod.fst h
    rwa [Option.any_some, hvariable] at hverdict
  · exact ((added_rest oneNumber (some 1) [.type Xsd.integer] (.type Xsd.string)).2 1 [0] rfl hitems
      hvariable rfl).mpr ⟨[0], [], rfl, hfront, fun _ h => nomatch h⟩

/-- An accepted list may be refused with a further rest entry. -/
theorem added_rest_refused : ¬ ∀ (us : List Update) (value : Option NodeId) (entries : List Range)
    (element : Range), let s : Store := us.foldl (fun s u => (s.apply u).2) {}
      (s.accepts (.tuple entries) value).1 = true →
        (s.accepts (.tuple (entries ++ [.rest element])) value).1 = true := by
  intro h
  have hrefused : (oneNumber.accepts
      (.tuple [.rest (.type Xsd.integer), .rest (.type Xsd.string)]) (some 1)).1 = false := by
    decide +kernel
  have hboth := h [.literal "1", .list [0]] (some 1) [.rest (.type Xsd.integer)] (.type Xsd.string)
    oneNumber_accepted
  exact Bool.false_ne_true (hrefused.symm.trans hboth)

end Store

end Wiring

import Wiring.Proofs.Reading
import Wiring.Range.Record

/-!
# Terms, ranges and parameters as text

Terms, ranges and parameters are written as compact JSON and read in many forms. What has been
written is read back, as long as its brackets are not nested too deep. And what has been read in any
form has had at least as many brackets around it as what is written for it, so it can be written and
read again.

- `Json.read?_record`: the argument for records of any kind.
- `Term.nesting_le_of_ofJson?`, `Range.nesting_le_of_ofJson?`, `Parameter.nesting_le_of_ofJson?`:
  writing never needs more brackets than have been read.
- `records_round_trip`: the two directions for all three kinds.
-/

namespace Wiring

namespace Json

/-! ## Records -/

theorem nesting_le_items {items : List Json} {j : Json} (h : j ∈ items) :
    j.nesting ≤ nestingItems items := by
  induction items with
  | nil => cases h
  | cons item items ih =>
    rw [nestingItems]
    rcases List.mem_cons.mp h with rfl | h
    · exact Nat.le_max_left _ _
    · exact Nat.le_trans (ih h) (Nat.le_max_right _ _)

theorem nesting_le_fields {fields : List (String × Json)} {f : String × Json} (h : f ∈ fields) :
    f.2.nesting ≤ nestingFields fields := by
  induction fields with
  | nil => cases h
  | cons field fields ih =>
    rw [nestingFields]
    rcases List.mem_cons.mp h with rfl | h
    · exact Nat.le_max_left _ _
    · exact Nat.le_trans (ih h) (Nat.le_max_right _ _)

theorem mem_of_field? {key : String} {fields : List (String × Json)} {value : Json}
    (h : field? key fields = some (some value)) : ∃ f ∈ fields, f.2 = value := by
  unfold field? at h
  split at h
  · cases h
  · rename_i v hvalues
    cases h
    have hmem : value ∈ valuesOf key fields := by simp [hvalues]
    obtain ⟨f, hf, hvalue⟩ := List.mem_map.mp hmem
    exact ⟨f, (List.mem_filter.mp hf).1, hvalue⟩
  · cases h

/-- The values of a record are inside of its bracket. -/
theorem nesting_lt_of_record? {keys : List String} {j : Json} {values : List (Option Json)}
    (h : record? keys j = some values) :
    0 < j.nesting ∧ ∀ value, some value ∈ values → value.nesting < j.nesting := by
  cases j with
  | obj fields =>
    refine ⟨Nat.succ_pos _, ?_⟩
    have h : keys.mapM (field? · fields) = some values := h
    induction keys generalizing values with
    | nil =>
      cases h
      exact fun _ hv => nomatch hv
    | cons key keys ih =>
      simp only [List.mapM_cons, Option.bind_eq_bind, Option.bind_eq_some_iff, Option.pure_def,
        Option.some.injEq] at h
      obtain ⟨found, hfound, rest, hrest, rfl⟩ := h
      intro value hvalue
      rcases List.mem_cons.mp hvalue with rfl | hvalue
      · obtain ⟨f, hf, rfl⟩ := mem_of_field? hfound
        exact Nat.lt_succ_of_le (nesting_le_fields hf)
      · exact ih hrest hrest value hvalue
  | arr items =>
    refine ⟨Nat.succ_pos _, ?_⟩
    simp only [record?] at h
    split at h
    · cases h
      intro value hvalue
      have hitem : value ∈ items := by simpa using hvalue
      exact Nat.lt_succ_of_le (nesting_le_items hitem)
    · cases h
  | _ => cases h

section

variable {α : Type} {toJson : α → Json} {ofJson? : Json → Option α}
  (verbal : ∀ a, (toJson a).isVerbal = true) (back : ∀ a, ofJson? (toJson a) = some a)
  (nesting_le : ∀ {j a}, ofJson? j = some a → (toJson a).nesting ≤ j.nesting)
include verbal back nesting_le

/-- A record is read back from its text exactly if its brackets are not nested too deep, and what is
read from any text is such a record. -/
theorem read?_record :
    (∀ a, (read? (toJson a).text).bind ofJson? = some a ↔ (toJson a).nesting ≤ nestingLimit) ∧
    ∀ s a, (read? s).bind ofJson? = some a → (toJson a).nesting ≤ nestingLimit := by
  have hread : ∀ s a, (read? s).bind ofJson? = some a → (toJson a).nesting ≤ nestingLimit := by
    intro s a h
    obtain ⟨j, hj, ha⟩ := Option.bind_eq_some_iff.mp h
    exact Nat.le_trans (nesting_le ha) (nesting_le_of_read? hj)
  refine ⟨fun a => ⟨hread _ a, fun hnesting => ?_⟩, hread⟩
  rw [read?_text (verbal a) hnesting, Option.bind_some, back]

end

end Json

/-! ## Terms -/

namespace Term

theorem isVerbal_toJson (t : Term) : t.toJson.isVerbal = true := by
  obtain ⟨kind, value, datatype⟩ := t
  cases datatype <;> rfl

theorem nesting_toJson (t : Term) : t.toJson.nesting = 1 := by
  obtain ⟨kind, value, datatype⟩ := t
  cases datatype <;> rfl

theorem nesting_le_of_ofJson? {j : Json} {t : Term} (h : ofJson? j = some t) :
    t.toJson.nesting ≤ j.nesting := by
  rw [nesting_toJson]
  unfold ofJson? at h
  split at h
  · rename_i hrecord
    exact (Json.nesting_lt_of_record? hrecord).1
  · cases h

end Term

/-! ## Ranges -/

namespace Range

mutual

theorem isVerbal_toJson : ∀ r : Range, r.toJson.isVerbal = true
  | .any => rfl
  | .undefined => rfl
  | .literal t => by simp [toJson, Json.isVerbal, Json.fieldsVerbal, t.isVerbal_toJson]
  | .type _ => rfl
  | .array r => by simp [toJson, Json.isVerbal, Json.fieldsVerbal, isVerbal_toJson r]
  | .rest r => by simp [toJson, Json.isVerbal, Json.fieldsVerbal, isVerbal_toJson r]
  | .tuple rs => by simp [toJson, Json.isVerbal, Json.fieldsVerbal, itemsVerbal_toJsonEach rs]
  | .union rs => by simp [toJson, Json.isVerbal, Json.fieldsVerbal, itemsVerbal_toJsonEach rs]
  | .intersection rs => by
    simp [toJson, Json.isVerbal, Json.fieldsVerbal, itemsVerbal_toJsonEach rs]
  | .collectEntries => rfl

theorem itemsVerbal_toJsonEach : ∀ rs : List Range, Json.itemsVerbal (toJsonEach rs) = true
  | [] => rfl
  | r :: rs => by
    simp [toJsonEach, Json.itemsVerbal, isVerbal_toJson r, itemsVerbal_toJsonEach rs]

end

/-- A range without content is written without brackets. -/
theorem nesting_of_ofName? {name : String} {r : Range} (h : ofName? name = some r) :
    r.toJson.nesting = 0 := by
  unfold ofName? at h
  split at h
  · cases h
    rfl
  · split at h
    · cases h
      rfl
    · split at h
      · cases h
        rfl
      · cases h

/-- A field adds one bracket on both sides. -/
theorem nesting_field_le {name name' : String} {content content' : Json}
    (h : content.nesting ≤ content'.nesting) :
    (Json.obj [(name, content)]).nesting ≤ (Json.obj [(name', content')]).nesting := by
  simp only [Json.nesting, Json.nestingFields]
  omega

mutual

/-- **What is written for a range has no more brackets around it than what it has been read from.** -/
theorem nesting_le_of_ofJson? : ∀ {j : Json} {r : Range}, ofJson? j = some r →
    r.toJson.nesting ≤ j.nesting
  | .str name, r, h => by
    rw [ofJson?] at h
    rw [nesting_of_ofName? h]
    exact Nat.zero_le _
  | .obj [(name, content)], r, h => by
    unfold ofJson? at h
    split at h
    · obtain ⟨t, ht, rfl⟩ := Option.map_eq_some_iff.mp h
      exact nesting_field_le (Term.nesting_le_of_ofJson? ht)
    · obtain ⟨iri, -, rfl⟩ := Option.map_eq_some_iff.mp h
      exact nesting_field_le (Nat.zero_le _)
    · obtain ⟨r, hr, rfl⟩ := Option.map_eq_some_iff.mp h
      exact nesting_field_le (nesting_le_of_ofJson? hr)
    · obtain ⟨r, hr, rfl⟩ := Option.map_eq_some_iff.mp h
      exact nesting_field_le (nesting_le_of_ofJson? hr)
    · obtain ⟨rs, hrs, rfl⟩ := Option.map_eq_some_iff.mp h
      exact nesting_field_le (nesting_le_of_ofMembers? hrs)
    · obtain ⟨rs, hrs, rfl⟩ := Option.map_eq_some_iff.mp h
      exact nesting_field_le (nesting_le_of_ofMembers? hrs)
    · obtain ⟨rs, hrs, rfl⟩ := Option.map_eq_some_iff.mp h
      exact nesting_field_le (nesting_le_of_ofMembers? hrs)
    · split at h
      · rw [nesting_of_ofName? h]
        exact Nat.zero_le _
      · cases h

theorem nesting_le_of_ofMembers? : ∀ {j : Json} {rs : List Range}, ofMembers? j = some rs →
    (Json.arr (toJsonEach rs)).nesting ≤ j.nesting
  | .arr _, _, h => Nat.succ_le_succ (nesting_le_of_ofJsonEach? h)

theorem nesting_le_of_ofJsonEach? : ∀ {js : List Json} {rs : List Range},
    ofJsonEach? js = some rs → Json.nestingItems (toJsonEach rs) ≤ Json.nestingItems js
  | [], _, h => by
    cases h
    exact Nat.le_refl _
  | j :: js, _, h => by
    obtain ⟨r, hr, h⟩ := Option.bind_eq_some_iff.mp h
    obtain ⟨rs, hrs, h⟩ := Option.bind_eq_some_iff.mp h
    cases h
    rw [toJsonEach, Json.nestingItems, Json.nestingItems]
    have hhead := nesting_le_of_ofJson? hr
    have htail := nesting_le_of_ofJsonEach? hrs
    omega

end

end Range

/-! ## Parameters -/

namespace Parameter

theorem isVerbal_toJson (p : Parameter) : p.toJson.isVerbal = true := by
  simp [toJson, Json.isVerbal, Json.fieldsVerbal, p.range.isVerbal_toJson]

theorem nesting_toJson (p : Parameter) : p.toJson.nesting = p.range.toJson.nesting + 1 := by
  simp [toJson, Json.nesting, Json.nestingFields]

theorem nesting_le_of_ofJson? {j : Json} {p : Parameter} (h : ofJson? j = some p) :
    p.toJson.nesting ≤ j.nesting := by
  unfold ofJson? at h
  split at h
  · rename_i id range hrecord
    obtain ⟨i, -, h⟩ := Option.bind_eq_some_iff.mp h
    obtain ⟨r, hr, h⟩ := Option.bind_eq_some_iff.mp h
    cases h
    rw [nesting_toJson]
    have hinside := (Json.nesting_lt_of_record? hrecord).2 range (by simp)
    have hrange := Range.nesting_le_of_ofJson? hr
    show r.toJson.nesting + 1 ≤ j.nesting
    omega
  · cases h

end Parameter

/-! ## Round trips -/

/-- **Terms, ranges and parameters are read back from their texts.** A range or a parameter is read back
exactly if the brackets of its text are not nested deeper than the reader allows, whatever characters its
strings consist of; a term always is. And whatever form a text has that is read as one of them: its
compact text is read as the same one, and so is written as that text again. -/
theorem records_round_trip :
    (∀ r : Range, Range.read? r.text = some r ↔ r.toJson.nesting ≤ Json.nestingLimit) ∧
    (∀ {s r}, Range.read? s = some r → Range.read? r.text = some r) ∧
    (∀ p : Parameter, Parameter.read? p.text = some p ↔ p.toJson.nesting ≤ Json.nestingLimit) ∧
    (∀ {s p}, Parameter.read? s = some p → Parameter.read? p.text = some p) ∧
    ∀ t : Term, Term.read? t.text = some t := by
  obtain ⟨hrange, hranges⟩ := Json.read?_record Range.isVerbal_toJson Range.ofJson?_toJson
    Range.nesting_le_of_ofJson?
  obtain ⟨hparameter, hparameters⟩ := Json.read?_record Parameter.isVerbal_toJson
    Parameter.ofJson?_toJson Parameter.nesting_le_of_ofJson?
  obtain ⟨hterm, -⟩ := Json.read?_record Term.isVerbal_toJson Term.ofJson?_toJson
    Term.nesting_le_of_ofJson?
  refine ⟨hrange, ?_, hparameter, ?_, ?_⟩
  · intro s r h
    exact (hrange r).mpr (hranges s r h)
  · intro s p h
    exact (hparameter p).mpr (hparameters s p h)
  · intro t
    refine (hterm t).mpr ?_
    rw [t.nesting_toJson]
    decide

/-- A tuple with white space, a name with a null field, and a term with an unknown field that cannot be
read, an escape and a null datatype. -/
def spacedTuple : String :=
  "\x7b \"tuple\": [ \x7b\"any\":null\x7d,\n \x7b\"rest\": \x7b\"literal\": \x7b" ++
    "\"note\":\"\\ud800\", \"kind\":\"Literal\", \"value\":\"\\u00e9\\n\", \"datatype\":null" ++
    "\x7d\x7d\x7d ] \x7d"

/-- The text that it is written as. -/
def compactTuple : String :=
  "\x7b\"tuple\":[\"any\",\x7b\"rest\":\x7b\"literal\":\x7b" ++
    "\"kind\":\"Literal\",\"value\":\"é\\n\"\x7d\x7d\x7d]\x7d"

/-- The tuple is written in one way, and so is a parameter with it that has been read without keys. -/
theorem records_round_trip_spacedTuple : ∃ r p, Range.read? spacedTuple = some r ∧
    r.text = compactTuple ∧ Range.read? r.text = some r ∧
    Parameter.read? ("[\"p\", " ++ spacedTuple ++ "]") = some p ∧
    p.text = "\x7b\"id\":\"p\",\"range\":" ++ r.text ++ "\x7d" ∧ Parameter.read? p.text = some p := by
  have hrange : (Range.read? spacedTuple).map Range.text = some compactTuple := by
    decide +kernel
  have hparameter : (Parameter.read? ("[\"p\", " ++ spacedTuple ++ "]")).map Parameter.text =
      (Range.read? spacedTuple).map fun r => "\x7b\"id\":\"p\",\"range\":" ++ r.text ++ "\x7d" := by
    decide +kernel
  obtain ⟨r, hr, hrtext⟩ := Option.map_eq_some_iff.mp hrange
  rw [hr] at hparameter
  obtain ⟨p, hp, hptext⟩ := Option.map_eq_some_iff.mp hparameter
  exact ⟨r, p, hr, hrtext, records_round_trip.2.1 hr, hp, hptext, records_round_trip.2.2.2.1 hp⟩

end Wiring

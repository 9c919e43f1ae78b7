import Wiring.Proofs.Trials

/-!
# Literals under several checks

A literal may be checked for one primitive datatype after another, and each check may leave a typed
value in place of the one before. Strings are accepted and leave nothing, so after a check for strings
the literal still holds what an earlier check has left.

- `Store.accepts_primitive`: what one check does, whatever typed values there are;
- `Store.typed?_checkTypes_eq`: of several checks, the last that leaves anything stays;
- `Store.last_typed_check`: what a literal holds after any number of checks.
-/

namespace Wiring

namespace Store

/-! ## One check -/

/-- A store with one literal, which has not been checked. -/
def single (text : String) : Store := (({} : Store).apply (.literal text)).2

/-- Whether a literal with a text is accepted. -/
def passes (text iri : String) : Bool := ((single text).accepts (.type iri) (some 0)).1

/-- What the first check of a literal with a text leaves, if anything. -/
def leaves? (text iri : String) : Option TypedValue :=
  ((single text).accepts (.type iri) (some 0)).2.typed? 0

variable {s : Store} {id : NodeId} {t : Term} {iri : String} {iris : List String} {p : Primitive}

/-- **One check of a literal** goes by its text, and leaves what the text stands for. -/
theorem accepts_primitive (ht : s.graph.term? id = some t) (hkind : t.kind = .literal)
    (hp : Primitive.ofIri? iri = some p) :
    (s.accepts (.type iri) (some id)).1 = (p.coerce t.value).isSome ∧
    ∀ other, (s.accepts (.type iri) (some id)).2.typed? other =
      (if other = id then (p.coerce t.value).join else none).or (s.typed? other) := by
  have htrial : (Range.type iri).trial s.graph (some id) = Trial.literalText id p t.value := by
    rw [Range.trial, ht]
    simp only [Range.trialType, hp, hkind]
  rw [accepts_eq, htrial, Trial.literalText]
  cases p.coerce t.value with
  | none => exact ⟨rfl, fun other => by simp [typed?]⟩
  | some v? =>
    cases v? with
    | none => exact ⟨rfl, fun other => by simp [typed?]⟩
    | some v =>
      refine ⟨rfl, fun other => ?_⟩
      rw [typed?, TypedValues.getElem?_replay]
      simp only [Writes.left?, Option.none_or, eq_comm (a := other), Option.join_some]
      rfl

theorem passes_eq (hp : Primitive.ofIri? iri = some p) (text : String) :
    passes text iri = (p.coerce text).isSome :=
  (accepts_primitive (s := single text) (t := .literal text Xsd.string) rfl rfl hp).1

theorem leaves?_eq (hp : Primitive.ofIri? iri = some p) (text : String) :
    leaves? text iri = (p.coerce text).join := by
  rw [leaves?, (accepts_primitive (s := single text) (t := .literal text Xsd.string) rfl rfl hp).2,
    if_pos rfl]
  exact Option.or_none

/-- A text that is accepted leaves nothing only as a string. -/
theorem leaves?_eq_none (hp : (Primitive.ofIri? iri).isSome) {text : String}
    (hpasses : passes text iri = true) :
    leaves? text iri = none ↔ Primitive.ofIri? iri = some .string := by
  obtain ⟨p, hp⟩ := Option.isSome_iff_exists.mp hp
  rw [passes_eq hp, Option.isSome_iff_exists] at hpasses
  obtain ⟨v?, hv⟩ := hpasses
  rw [leaves?_eq hp, hp, hv, Option.join_some, Option.some.injEq]
  constructor
  · rintro rfl
    exact Primitive.eq_string_of_coerce_eq hv
  · rintro rfl
    cases hv
    rfl

/-- A text that is not accepted leaves nothing. -/
theorem leaves?_of_passes_eq_false (hp : (Primitive.ofIri? iri).isSome) {text : String}
    (h : passes text iri = false) : leaves? text iri = none := by
  obtain ⟨p, hp⟩ := Option.isSome_iff_exists.mp hp
  rw [passes_eq hp, Option.isSome_eq_false_iff, Option.isNone_iff_eq_none] at h
  rw [leaves?_eq hp, h]
  rfl

/-! ## Several checks -/

/-- Checks a value for types, one after the other. -/
def checkTypes (s : Store) (id : NodeId) (iris : List String) : Store :=
  iris.foldl (fun s iri => (s.accepts (.type iri) (some id)).2) s

theorem checkTypes_cons (s : Store) (id : NodeId) (iri : String) (iris : List String) :
    s.checkTypes id (iri :: iris) = (s.accepts (.type iri) (some id)).2.checkTypes id iris := rfl

@[simp] theorem graph_checkTypes (s : Store) (id : NodeId) (iris : List String) :
    (s.checkTypes id iris).graph = s.graph := by
  induction iris generalizing s with
  | nil => rfl
  | cons iri iris ih => exact ih _

/-- One check of several leaves what it leaves as the first one, or else what has been there. -/
theorem typed?_accepts_type (ht : s.graph.term? id = some t) (hkind : t.kind = .literal)
    (hp : (Primitive.ofIri? iri).isSome) (other : NodeId) :
    (s.accepts (.type iri) (some id)).2.typed? other =
      (if other = id then leaves? t.value iri else none).or (s.typed? other) := by
  obtain ⟨p, hp⟩ := Option.isSome_iff_exists.mp hp
  rw [(accepts_primitive ht hkind hp).2, leaves?_eq hp]

/-- **Several checks leave what the last of them leaves** that leaves anything. -/
theorem typed?_checkTypes_eq (ht : s.graph.term? id = some t) (hkind : t.kind = .literal)
    (hprims : ∀ iri ∈ iris, (Primitive.ofIri? iri).isSome) (other : NodeId) :
    (s.checkTypes id iris).typed? other =
      (if other = id then (iris.filterMap (leaves? t.value)).getLast? else none).or
        (s.typed? other) := by
  induction iris generalizing s with
  | nil => simp [checkTypes]
  | cons iri iris ih =>
    have hlater := ih (s := (s.accepts (.type iri) (some id)).2) ht
      fun iri hmem => hprims iri (List.mem_cons_of_mem _ hmem)
    rw [checkTypes_cons, hlater, typed?_accepts_type ht hkind (hprims iri List.mem_cons_self),
      ← Option.or_assoc]
    congr 1
    by_cases hother : other = id
    · rw [if_pos hother, if_pos hother, if_pos hother, List.filterMap_cons]
      cases leaves? t.value iri with
      | none => exact Option.or_none
      | some v =>
        rw [List.getLast?_cons]
        cases (iris.filterMap (leaves? t.value)).getLast? <;> rfl
    · rw [if_neg hother, if_neg hother, if_neg hother]
      rfl

/-- Texts that are not accepted leave nothing. -/
theorem filterMap_leaves?_of_refused (hprims : ∀ iri ∈ iris, (Primitive.ofIri? iri).isSome)
    {text : String} (h : ∀ iri ∈ iris, passes text iri = false) :
    iris.filterMap (leaves? text) = [] :=
  List.filterMap_eq_nil_iff.mpr fun iri hmem =>
    leaves?_of_passes_eq_false (hprims iri hmem) (h iri hmem)

/-- **What a literal holds after several checks** for primitive datatypes, of which each may succeed or
fail. No check depends on typed values, and no other node is concerned. If all checks fail, the literal
holds what it has held. Otherwise it holds what the last successful check leaves on a literal that has
not been checked, or, if that is nothing, what it has held before this check: the last successful check
decides if and only if it is not one for strings, or nothing has been there to be replaced. So in the
end there is no typed value, and the literal stands for its text, if and only if there has been none in
the beginning and no check but those for strings has succeeded. -/
theorem last_typed_check (s : Store) {id : NodeId} {t : Term} (ht : s.graph.term? id = some t)
    (hkind : t.kind = .literal) {iris : List String}
    (hprims : ∀ iri ∈ iris, (Primitive.ofIri? iri).isSome) :
    (s.checkTypes id iris).graph = s.graph ∧
    (∀ other ≠ id, (s.checkTypes id iris).typed? other = s.typed? other) ∧
    (∀ iri ∈ iris, ∀ typed,
      (({ s with typed } : Store).accepts (.type iri) (some id)).1 = passes t.value iri) ∧
    ((∀ iri ∈ iris, passes t.value iri = false) →
      (s.checkTypes id iris).typed? id = s.typed? id) ∧
    (∀ before iri after, iris = before ++ iri :: after → passes t.value iri = true →
      (∀ later ∈ after, passes t.value later = false) →
      (s.checkTypes id iris).typed? id =
        (leaves? t.value iri).or ((s.checkTypes id before).typed? id) ∧
      ((s.checkTypes id iris).typed? id = leaves? t.value iri ↔
        Primitive.ofIri? iri ≠ some .string ∨ (s.checkTypes id before).typed? id = none)) ∧
    ((s.checkTypes id iris).typed? id = none ↔
      s.typed? id = none ∧ ∀ iri ∈ iris, passes t.value iri = true →
        Primitive.ofIri? iri = some .string) := by
  have hself : ∀ {iris : List String}, (∀ iri ∈ iris, (Primitive.ofIri? iri).isSome) →
      (s.checkTypes id iris).typed? id =
        (iris.filterMap (leaves? t.value)).getLast?.or (s.typed? id) := by
    intro iris hprims
    rw [typed?_checkTypes_eq ht hkind hprims, if_pos rfl]
  refine ⟨graph_checkTypes s id iris, fun other hne => ?_, fun iri hmem typed => ?_, fun h => ?_,
    ?_, ?_⟩
  · rw [typed?_checkTypes_eq ht hkind hprims, if_neg hne, Option.none_or]
  · obtain ⟨p, hp⟩ := Option.isSome_iff_exists.mp (hprims iri hmem)
    rw [passes_eq hp]
    exact (accepts_primitive (s := { s with typed }) ht hkind hp).1
  · rw [hself hprims, filterMap_leaves?_of_refused hprims h]
    rfl
  · rintro before iri after rfl hpasses hafter
    have hiri := hprims iri (by simp)
    have hnothing : after.filterMap (leaves? t.value) = [] :=
      filterMap_leaves?_of_refused (fun later hmem => hprims later (by simp [hmem])) hafter
    have hfinal : (s.checkTypes id (before ++ iri :: after)).typed? id =
        (leaves? t.value iri).or ((s.checkTypes id before).typed? id) := by
      rw [hself hprims, hself fun earlier hmem => hprims earlier (by simp [hmem]),
        List.filterMap_append, List.filterMap_cons, hnothing, ← Option.or_assoc]
      cases leaves? t.value iri with
      | none => simp
      | some v => simp
    refine ⟨hfinal, ?_⟩
    rw [hfinal, Ne, ← leaves?_eq_none hiri hpasses]
    cases leaves? t.value iri with
    | none => simp
    | some v => simp
  · rw [hself hprims, Option.or_eq_none_iff, List.getLast?_eq_none_iff, List.filterMap_eq_nil_iff,
      and_comm]
    refine and_congr_right fun _ => forall₂_congr fun iri hmem => ?_
    cases hpasses : passes t.value iri with
    | false => simp [leaves?_of_passes_eq_false (hprims iri hmem) hpasses]
    | true => simp [leaves?_eq_none (hprims iri hmem) hpasses]

/-- A literal that is last accepted as a string still stands for an integer. -/
theorem last_typed_check_string :
    let s := (single "42").checkTypes 0 [Xsd.integer, Xsd.string]
    s.typed? 0 = some (.integer 42) ∧ s.typed? 0 ≠ leaves? "42" Xsd.string ∧
      s.literalValue 0 (.literal "42" Xsd.string) = .int 42 := by
  have ht : (single "42").graph.term? 0 = some (.literal "42" Xsd.string) := rfl
  have hprims : ∀ iri ∈ [Xsd.integer, Xsd.string], (Primitive.ofIri? iri).isSome := by
    decide +kernel
  have h := (last_typed_check (single "42") ht rfl hprims).2.2.2.2.1
    [Xsd.integer] Xsd.string [] rfl (by decide +kernel) (fun _ hmem => nomatch hmem)
  refine ⟨rfl, fun hcon => ?_, rfl⟩
  rcases h.2.mp hcon with hstring | hheld
  · exact hstring rfl
  · cases hheld

end Store

end Wiring

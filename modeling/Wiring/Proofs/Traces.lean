import Wiring.Proofs.Trials

/-!
# Traces of checks that fail

A check leaves typed values on literals as it goes along and takes none of them back when it fails.
So a check that fails after all, or an option of a union that does not take the value, may leave a
trace:

- `Store.union_traces`: a union leaves what the first option that takes the value leaves when it is
  checked after the options before it, not when it is checked alone.
- `Parameter.violation_traces`: a parameter that refuses a value leaves what the refused check left on
  its way.

No trace is left by ranges that look at one node only (`Range.isPlain`).
-/

namespace Wiring

open Relation

/-- A text that is refused leaves nothing. -/
theorem Trial.literalText_writes_of_failed {id : NodeId} {p : Primitive} {text : String} :
    (literalText id p text).verdict = false → (literalText id p text).writes = [] := by
  rw [literalText]
  cases p.coerce text with
  | none => exact fun _ => rfl
  | some accepted =>
    cases accepted with
    | none => exact fun _ => rfl
    | some v =>
      intro h
      cases h

namespace Range

/-! ## Plain ranges -/

mutual

/-- Whether a range decides on the value as a single node: neither on the items of a list, nor in
several steps of which a later one may fail. -/
def isPlain : Range → Bool
  | .array _ => false
  | .tuple _ => false
  | .intersection _ => false
  | .union options => arePlain options
  | _ => true

/-- Whether all ranges are plain. -/
def arePlain : List Range → Bool
  | [] => true
  | r :: rs => isPlain r && arePlain rs

end

variable (g : Graph)

theorem trialType_writes_of_failed {iri : String} {id : NodeId} {t : Term} :
    (trialType g iri id t).verdict = false → (trialType g iri id t).writes = [] := by
  rw [trialType]
  cases Primitive.ofIri? iri with
  | none => exact fun _ => rfl
  | some p =>
    cases t.kind with
    | literal => exact Trial.literalText_writes_of_failed
    | _ => cases p <;> exact fun _ => rfl

mutual

/-- A plain range that does not take a value leaves nothing. -/
theorem writes_of_failed : ∀ {r : Range} {value : Option NodeId}, r.isPlain = true →
    (trial g r value).verdict = false → (trial g r value).writes = []
  | .any, _, _, _ => rfl
  | .collectEntries, _, _, _ => rfl
  | .undefined, _, _, _ => rfl
  | .union options, value, hplain, h => by
    rw [trial] at h ⊢
    split
    · rfl
    · rename_i hvariable
      rw [if_neg hvariable] at h
      exact writes_of_failed_some (by rwa [isPlain] at hplain) h
  | .intersection _, _, hplain, _ => nomatch hplain
  | .literal _, none, _, _ => rfl
  | .literal _, some _, _, _ => rfl
  | .type _, none, _, _ => rfl
  | .type iri, some id, _, h => by
    rw [trial] at h ⊢
    cases ht : g.term? id with
    | none => rfl
    | some t =>
      rw [ht] at h
      exact trialType_writes_of_failed g h
  | .array _, _, hplain, _ => nomatch hplain
  | .rest _, _, _, _ => rfl
  | .tuple _, _, hplain, _ => nomatch hplain

theorem writes_of_failed_some : ∀ {rs : List Range} {value : Option NodeId},
    arePlain rs = true → (trialSome g rs value).verdict = false → (trialSome g rs value).writes = []
  | [], _, _, _ => rfl
  | r :: rs, value, hplain, h => by
    rw [arePlain, Bool.and_eq_true] at hplain
    rw [trialSome, Trial.orElse] at h ⊢
    split
    · rename_i hr
      rw [if_pos hr, hr] at h
      cases h
    · rename_i hr
      rw [if_neg hr] at h
      show (trial g r value).writes ++ (trialSome g rs value).writes = []
      rw [writes_of_failed hplain.1 (Bool.eq_false_iff.mpr hr), writes_of_failed_some hplain.2 h]
      rfl

end

/-! ## Unions -/

/-- What the trials of ranges leave one after the other, whatever they come to. -/
def trail (rs : List Range) (value : Option NodeId) : Writes :=
  rs.flatMap fun r => (trial g r value).writes

/-- Options are tried up to the first one that takes the value. -/
theorem trialSome_append {before : List Range} {r : Range} {value : Option NodeId}
    (hbefore : ∀ o ∈ before, (trial g o value).verdict = false)
    (hr : (trial g r value).verdict = true) (after : List Range) :
    trialSome g (before ++ r :: after) value =
      Trial.after (trail g before value) (trial g r value) := by
  induction before with
  | nil =>
    show (trial g r value).orElse _ = _
    rw [Trial.orElse, if_pos hr]
    rfl
  | cons o before ih =>
    obtain ⟨ho, hbefore⟩ := List.forall_mem_cons.mp hbefore
    show (trial g o value).orElse (trialSome g (before ++ r :: after) value) = _
    rw [Trial.orElse, ho, if_neg Bool.false_ne_true, ih hbefore, Trial.after, Trial.after,
      Trial.after, trail, trail, List.flatMap_cons, List.append_assoc]

end Range

namespace Graph

/-- There is nothing below a node that does not exist. -/
theorem Reading.contains {g : Graph} {root : NodeId} {w : NodeId × TypedValue}
    (h : g.Reading root w) : g.contains root = true := by
  have hterm : (g.term? root).isSome = true := by
    rcases h.path.cases_head with heq | ⟨item, ⟨items, hitems, -⟩, -⟩
    · obtain ⟨t, ht, -⟩ := h.literal
      rw [heq, ht]
      rfl
    · rw [listItems?] at hitems
      split at hitems
      · rename_i hkind
        obtain ⟨t, ht, -⟩ := Option.map_eq_some_iff.mp hkind
        rw [ht]
        rfl
      · cases hitems
  exact decide_eq_true (term?_isSome.mp hterm)

end Graph

namespace Store

variable (s : Store)

/-! ## Unions -/

/-- Checks a value against ranges one after the other, whatever the verdicts are, and keeps what each
check leaves. -/
def trying (s : Store) (value : Option NodeId) (rs : List Range) : Store :=
  rs.foldl (fun s r => (s.accepts r value).2) s

theorem trying_eq (value : Option NodeId) (rs : List Range) :
    s.trying value rs = { s with typed := s.typed.replay (Range.trail s.graph rs value) } := by
  induction rs generalizing s with
  | nil => rfl
  | cons r rs ih =>
    show trying (s.accepts r value).2 value rs = _
    rw [ih, accepts_eq, Range.trail, Range.trail, List.flatMap_cons, TypedValues.replay_append]

/-- Stores with one graph are the same if all nodes hold the same values. -/
theorem eq_of_typed? {s s' : Store} (hgraph : s.graph = s'.graph)
    (htyped : ∀ id, s.typed? id = s'.typed? id) : s = s' := by
  cases s
  cases s'
  cases hgraph
  congr
  exact Std.ExtTreeMap.ext_getElem? htyped

/-- **The options before the one that takes the value leave their traces.** A union takes a variable
as it is, and any other value if and only if some option does. It then leaves what the first such
option leaves when it is checked after the options before it, which have refused the value: what that
option leaves on a literal stays; on another literal stays what the refused options have left. So it
is what that option leaves alone if and only if the refused options have changed nothing but what that
option leaves again; and that is so whenever they are plain. -/
theorem union_traces (options : List Range) (value : Option NodeId) :
    (value.any s.graph.isVariable → s.accepts (.union options) value = (true, s)) ∧
    (value.any s.graph.isVariable = false →
      ((s.accepts (.union options) value).1 = true ↔
        ∃ r ∈ options, (s.accepts r value).1 = true) ∧
      ∀ before r after, options = before ++ r :: after →
        (∀ o ∈ before, (s.accepts o value).1 = false) → (s.accepts r value).1 = true →
        s.accepts (.union options) value = (s.trying value before).accepts r value ∧
        (∀ id, (s.accepts (.union options) value).2.typed? id =
          ((r.trial s.graph value).writes.left? id).or ((s.trying value before).typed? id)) ∧
        ((s.accepts (.union options) value).2 = (s.accepts r value).2 ↔
          ∀ id, (r.trial s.graph value).writes.left? id = none →
            (s.trying value before).typed? id = s.typed? id) ∧
        ((∀ o ∈ before, o.isPlain) →
          (s.accepts (.union options) value).2 = (s.accepts r value).2)) := by
  refine ⟨fun hvariable => ?_, fun hvariable => ⟨?_, ?_⟩⟩
  · rw [accepts_eq, Range.trial, if_pos hvariable]
    rfl
  · simp only [accepts_eq]
    rw [Range.trial, if_neg (Bool.eq_false_iff.mp hvariable), Range.verdict_trialSome]
  · rintro before r after rfl hbefore hr
    simp only [accepts_eq] at hbefore hr
    have hunion : s.accepts (.union (before ++ r :: after)) value =
        (s.trying value before).accepts r value := by
      rw [accepts_eq, Range.trial, if_neg (Bool.eq_false_iff.mp hvariable),
        Range.trialSome_append _ hbefore hr, accepts_eq, trying_eq, Trial.after,
        TypedValues.replay_append]
    have htyped : ∀ id, (s.accepts (.union (before ++ r :: after)) value).2.typed? id =
        ((r.trial s.graph value).writes.left? id).or ((s.trying value before).typed? id) := by
      intro id
      rw [hunion, trying_eq, accepts_eq]
      exact TypedValues.getElem?_replay _ _ id
    have halone : ∀ id, (s.accepts r value).2.typed? id =
        ((r.trial s.graph value).writes.left? id).or (s.typed? id) := by
      intro id
      rw [accepts_eq]
      exact TypedValues.getElem?_replay _ _ id
    refine ⟨hunion, htyped, ⟨fun heq id hleft => ?_, fun hsame => ?_⟩, fun hplain => ?_⟩
    · have h := htyped id
      rwa [heq, halone, hleft, Option.none_or, Option.none_or, eq_comm] at h
    · refine eq_of_typed? rfl fun id => ?_
      rw [htyped, halone]
      cases hleft : (r.trial s.graph value).writes.left? id with
      | none => rw [Option.none_or, Option.none_or, hsame id hleft]
      | some v => rfl
    · have htrail : Range.trail s.graph before value = [] := by
        refine List.flatMap_eq_nil_iff.mpr fun o ho => ?_
        exact Range.writes_of_failed _ (hplain o ho) (hbefore o ho)
      rw [hunion, trying_eq, htrail]
      rfl

/-- A tuple refuses the list at its second item, and an array takes it for its texts: the first item
keeps the integer that only the tuple asks for. -/
theorem union_traces_mixedList : ∃ r r' : Range,
    (mixedList.accepts r (some 2)).1 = false ∧
      (mixedList.accepts (.union [r, r']) (some 2)).1 = true ∧
      (mixedList.accepts (.union [r, r']) (some 2)).2.typed? 0 = some (.integer 1) ∧
      (mixedList.accepts r' (some 2)).2.typed? 0 = none ∧
      (mixedList.accepts (.union [r, r']) (some 2)).2 ≠ (mixedList.accepts r' (some 2)).2 := by
  refine ⟨.tuple [.type Xsd.integer, .type Xsd.boolean], .array (.type Xsd.string), rfl, ?_⟩
  obtain ⟨hverdict, hsplit⟩ := (mixedList.union_traces
    [.tuple [.type Xsd.integer, .type Xsd.boolean], .array (.type Xsd.string)] (some 2)).2 rfl
  obtain ⟨-, htyped, halone, -⟩ := hsplit [_] _ [] rfl
    (fun o ho => by cases List.mem_singleton.mp ho; rfl) rfl
  refine ⟨hverdict.mpr ⟨_, List.mem_cons_of_mem _ List.mem_cons_self, rfl⟩, htyped 0, rfl,
    fun heq => ?_⟩
  exact Option.some_ne_none _ (halone.mp heq 0 rfl)

end Store

/-! ## Parameters -/

/-- **A refused value keeps what the check has left on its way.** The error is that of the parameter,
and the graph is as before. Every literal that the check came to accept as a primitive holds what its
text stands for, and all of these are the value or reached from it through lists; all others hold what
they held before. So there is no trace if and only if those literals held these very values already;
in particular if the range is plain, or if there is no value or no such node. Refused once more, the
value keeps its traces, and there are no further ones. -/
theorem Parameter.violation_traces (p : Parameter) (s : Store) (value : Option NodeId)
    {e : Range.Error} (h : (p.capture s value).1 = .error e) :
    e = p.violation s.graph value ∧ (p.capture s value).2.graph = s.graph ∧
    (∀ id, (p.capture s value).2.typed? id =
      ((p.range.trial s.graph value).writes.left? id).or (s.typed? id)) ∧
    (∀ w ∈ (p.range.trial s.graph value).writes, ∃ root ∈ value, s.graph.Reading root w) ∧
    ((p.capture s value).2 = s ↔
      ∀ id v, (p.range.trial s.graph value).writes.left? id = some v → s.typed? id = some v) ∧
    (p.range.isPlain ∨ (∀ root ∈ value, s.graph.contains root = false) →
      (p.capture s value).2 = s) ∧
    p.capture (p.capture s value).2 value = p.capture s value := by
  have hfailed : (p.range.trial s.graph value).verdict = false := by
    cases hv : (p.range.trial s.graph value).verdict with
    | false => rfl
    | true =>
      rw [capture_eq, hv] at h
      cases h
  have hnone : (p.range.trial s.graph value).writes = [] → (p.capture s value).2 = s := by
    intro hws
    rw [capture_eq, hws]
    rfl
  have htyped : ∀ id, (p.capture s value).2.typed? id =
      ((p.range.trial s.graph value).writes.left? id).or (s.typed? id) := by
    intro id
    rw [capture_eq]
    exact TypedValues.getElem?_replay _ _ id
  have hreading := p.range.trial_leaves s.graph value
  refine ⟨?_, rfl, htyped, hreading, ⟨fun heq id v hleft => ?_, fun hheld => ?_⟩, ?_, ?_⟩
  · rw [capture_eq, hfailed] at h
    cases h
    rfl
  · have hid := htyped id
    rwa [heq, hleft, Option.some_or] at hid
  · refine Store.eq_of_typed? rfl fun id => ?_
    rw [htyped]
    cases hleft : (p.range.trial s.graph value).writes.left? id with
    | none => rfl
    | some v => exact (hheld id v hleft).symm
  · rintro (hplain | habsent)
    · exact hnone (Range.writes_of_failed _ hplain hfailed)
    · refine hnone (List.eq_nil_iff_forall_not_mem.mpr fun w hw => ?_)
      obtain ⟨root, hroot, hw⟩ := hreading w hw
      exact absurd hw.contains (Bool.eq_false_iff.mp (habsent root hroot))
  · rw [capture_eq p (p.capture s value).2, capture_eq p s, TypedValues.replay_replay]

/-- The list is refused for its second item, and the first one is an integer from then on. -/
theorem Parameter.violation_traces_mixedList : ∃ (p : Parameter) (e : Range.Error) (s : Store),
    p.capture Store.mixedList (some 2) = (.error e, s) ∧ Store.mixedList.typed? 0 = none ∧
      s.typed? 0 = some (.integer 1) ∧ s ≠ Store.mixedList ∧ p.capture s (some 2) = (.error e, s) := by
  refine ⟨⟨"ex:p", .array (.type Xsd.integer)⟩, .violation "[1, x]" [] "ex:p" (Xsd.integer ++ "[]"),
    _, rfl, rfl, rfl, fun heq => ?_, ?_⟩
  · have hsame := (violation_traces ⟨"ex:p", .array (.type Xsd.integer)⟩ Store.mixedList (some 2)
      (e := .violation "[1, x]" [] "ex:p" (Xsd.integer ++ "[]")) rfl).2.2.2.2.1
    exact Option.some_ne_none _ (hsame.mp heq 0 (.integer 1) rfl).symm
  · exact (violation_traces ⟨"ex:p", .array (.type Xsd.integer)⟩ Store.mixedList (some 2)
      (e := .violation "[1, x]" [] "ex:p" (Xsd.integer ++ "[]")) rfl).2.2.2.2.2.2

end Wiring

import Wiring.Proofs.Ranks
import Wiring.Proofs.Sessions
import Wiring.Proofs.Unfolding

/-!
# Ranges that are part of themselves

Lowering a range resource goes on from the resource to those that it wraps, in order and up to the
first one that has an error (`Graph.Follows`). Nothing keeps it from coming back to where it has been,
so it never ends exactly where it is led around a cycle (`Session.lowering_ends_iff`). Resources that are
shared or mentioned several times do no harm, nor does a cycle behind an error.

`Range.lower` gives up on paths that are longer than the graph is large. That is no outcome of its own:
a limit makes no difference to what ends within it (`lowerWithin_mono`), and what ends at all ends within
that limit (`lower_eq_some_iff`). So `Range.lower` is the recursion without a limit (`lower_eq`).
-/

namespace Wiring

open Relation

namespace Range

variable {g : Graph} {id : NodeId}

/-! ## Lowering in one equation -/

/-- What a resource describes, given what its parts have been lowered to. -/
def assemble (g : Graph) (id : NodeId) (parts : List Range) : Lowered Range :=
  match g.term? id with
  | none => throw (.unknownRange id)
  | some t =>
    match Shape.ofTypes (g.types id) with
    | none => pure (.type t.value)
    | some .undefined => pure .undefined
    | some .array => parts.head?.elim (throw (missingValue t)) fun r => pure (.array r)
    | some .rest => parts.head?.elim (throw (missingValue t)) fun r => pure (.rest r)
    | some .union => pure (.union parts)
    | some .intersection => pure (.intersection parts)
    | some .tuple => pure (.tuple parts)
    | some .literal => lowerLiteral g id t
    | some .collectEntries => pure .collectEntries

/-- A wrapped range is lowered as the only part. -/
theorem map_lowerValue (next : NodeId → Lowered Range) (t : Term) (f : Range → Range) :
    f <$> lowerValue g next id t =
      (g.property? id Components.parameterRangeValue).toList.mapM next >>= fun parts =>
        parts.head?.elim (throw (missingValue t)) fun r => pure (f r) := by
  rw [lowerValue]
  cases g.property? id Components.parameterRangeValue with
  | none => rfl
  | some value =>
    show f <$> next value = [value].mapM next >>= _
    rw [List.mapM_cons, bind_assoc, map_eq_pure_bind]
    rfl

/-- **Lowering a resource is lowering its parts in order**, and then assembling what has come of them. -/
theorem lowerWithin_succ (hclosed : g.Closed) (limit : Nat) (id : NodeId) :
    lowerWithin g (limit + 1) id =
      (g.rangeParts id).mapM (lowerWithin g limit) >>= assemble g id := by
  rw [lowerWithin]
  unfold assemble
  cases ht : g.term? id with
  | none =>
    -- a node that is missing has no types, and so no parts
    have hid : g.size ≤ id := by
      by_contra hlt
      have hsome := Graph.term?_isSome.mpr (Nat.lt_of_not_le hlt)
      rw [ht] at hsome
      cases hsome
    have hparts : g.rangeParts id = [] := by
      rw [Graph.rangeParts, Graph.types, hclosed.properties_eq_nil hid]
      rfl
    rw [hparts]
    rfl
  | some t =>
    dsimp only
    rw [Graph.rangeParts]
    cases Shape.ofTypes (g.types id) with
    | none => rfl
    | some shape =>
      cases shape with
      | undefined => rfl
      | array => exact map_lowerValue _ t .array
      | rest => exact map_lowerValue _ t .rest
      | union => exact map_eq_pure_bind _ _
      | intersection => exact map_eq_pure_bind _ _
      | tuple => exact map_eq_pure_bind _ _
      | literal => rfl
      | collectEntries => rfl

/-- Once the parts have been lowered there is an outcome. -/
theorem assemble_isSome (parts : List Range) : (assemble g id parts).run.isSome := by
  unfold assemble
  split
  · rfl
  · split
    · rfl
    · rfl
    · cases parts <;> rfl
    · cases parts <;> rfl
    · rfl
    · rfl
    · rfl
    · rw [lowerLiteral]
      split <;> rfl
    · rfl

/-! ## Limits -/

/-- A higher limit makes no difference. -/
theorem lowerWithin_mono (hclosed : g.Closed) {limit limit' : Nat} (hle : limit ≤ limit')
    {outcome : Except Range.Error Range} (h : (lowerWithin g limit id).run = some outcome) :
    (lowerWithin g limit' id).run = some outcome := by
  induction limit generalizing limit' id outcome with
  | zero => cases h
  | succ limit ih =>
    obtain ⟨limit', rfl⟩ : ∃ k, limit' = k + 1 := ⟨limit' - 1, by omega⟩
    rw [lowerWithin_succ hclosed, ExceptT.run_bind] at h ⊢
    obtain ⟨parts, hparts, h⟩ := Option.bind_eq_some_iff.mp h
    have hparts' := mapM_run_mono (fun d r hd => ih (Nat.le_of_succ_le_succ hle) hd) hparts
    exact Option.bind_eq_some_iff.mpr ⟨parts, hparts', h⟩

/-- There is one outcome at most. -/
theorem lowerWithin_unique (hclosed : g.Closed) {limit limit' : Nat}
    {outcome outcome' : Except Range.Error Range} (h : (lowerWithin g limit id).run = some outcome)
    (h' : (lowerWithin g limit' id).run = some outcome') : outcome = outcome' := by
  have hmax := lowerWithin_mono hclosed (Nat.le_max_left limit limit') h
  have hmax' := lowerWithin_mono hclosed (Nat.le_max_right limit limit') h'
  rw [hmax] at hmax'
  exact Option.some.inj hmax'

end Range

/-! ## Where lowering is led -/

/-- Lowering a resource goes on to a part of it: all parts before have been lowered without an error. -/
def Graph.Follows (g : Graph) (id part : NodeId) : Prop :=
  ∃ before after, g.rangeParts id = before ++ part :: after ∧
    ∀ x ∈ before, ∃ r, (Range.lower g x).run = some (.ok r)

theorem Graph.Follows.wraps {g : Graph} {id part : NodeId} (h : g.Follows id part) :
    g.Wraps id part := by
  obtain ⟨before, after, hparts, -⟩ := h
  rw [Wraps, hparts]
  exact List.mem_append_right _ List.mem_cons_self

namespace Range

variable {g : Graph} {id : NodeId}

section Parts

variable {α : Type} {next : NodeId → Lowered α}

/-- If all members of a list come to an end, so does each one that has no error before it. -/
theorem isSome_of_isSome_mapM {before after : List NodeId} {part : NodeId}
    (h : ((before ++ part :: after).mapM next).run.isSome)
    (hbefore : ∀ x ∈ before, ∀ e, (next x).run ≠ some (.error e)) : (next part).run.isSome := by
  induction before with
  | nil =>
    rw [List.nil_append, List.mapM_cons, ExceptT.run_bind] at h
    exact Option.isSome_of_isSome_bind h
  | cons x before ih =>
    rw [List.cons_append, List.mapM_cons, ExceptT.run_bind] at h
    obtain ⟨head, hhead⟩ := Option.isSome_iff_exists.mp (Option.isSome_of_isSome_bind h)
    rw [hhead] at h
    cases head with
    | error e => exact absurd hhead (hbefore x List.mem_cons_self e)
    | ok a =>
      refine ih ?_ fun y hy => hbefore y (List.mem_cons_of_mem _ hy)
      change (((before ++ part :: after).mapM next) >>= fun as => pure (a :: as)).run.isSome at h
      rw [ExceptT.run_bind] at h
      exact Option.isSome_of_isSome_bind h

/-- All members of a list come to an end if each one does that comes after members without errors. -/
theorem isSome_mapM_of_prefix {parts : List NodeId}
    (h : ∀ before part after, parts = before ++ part :: after →
      (∀ x ∈ before, ∃ a, (next x).run = some (.ok a)) → (next part).run.isSome) :
    (parts.mapM next).run.isSome := by
  induction parts with
  | nil => rfl
  | cons x parts ih =>
    rw [List.mapM_cons, ExceptT.run_bind]
    obtain ⟨head, hhead⟩ := Option.isSome_iff_exists.mp
      (h [] x parts rfl fun y hy => absurd hy List.not_mem_nil)
    rw [hhead]
    cases head with
    | error e => rfl
    | ok a =>
      refine isSome_map (a :: ·) (ih fun before part after hparts hbefore => ?_)
      refine h (x :: before) part after (congrArg (x :: ·) hparts) fun y hy => ?_
      rcases List.mem_cons.mp hy with rfl | hy
      · exact ⟨a, hhead⟩
      · exact hbefore y hy

end Parts

/-- What lowering is led to from a resource that can be lowered is well-founded. -/
theorem acc_of_lowerWithin (hclosed : g.Closed) {limit : Nat}
    (h : (lowerWithin g limit id).run.isSome) : Acc (fun part x => g.Follows x part) id := by
  induction limit generalizing id with
  | zero => cases h
  | succ limit ih =>
    refine .intro id fun part ⟨before, after, hparts, hbefore⟩ => ih ?_
    rw [lowerWithin_succ hclosed, ExceptT.run_bind, hparts] at h
    refine isSome_of_isSome_mapM (Option.isSome_of_isSome_bind h) fun x hx e he => ?_
    obtain ⟨r, hr⟩ := hbefore x hx
    cases lowerWithin_unique hclosed he hr

/-- Lowering ends where it is not led around a cycle. -/
theorem lower_isSome_of_follows (hclosed : g.Closed)
    (hacyclic : ∀ x, ReflTransGen g.Follows id x → ¬ TransGen g.Follows x x) :
    (lower g id).run.isSome := by
  -- what is not reached from the resource does not matter
  let R (x y : NodeId) : Prop := ReflTransGen g.Follows id x ∧ g.Follows x y
  have hcycle : ∀ x, ¬ TransGen R x x := by
    intro x hx
    obtain ⟨y, hxy, -⟩ := TransGen.head'_iff.mp hx
    exact hacyclic x hxy.1 (hx.lift (fun x => x) fun _ _ h => h.2)
  obtain ⟨rank, hsize, hfalls⟩ :=
    exists_rank (R := R) (fun h => (h.2.wraps.lt_size hclosed).2) hcycle
  have hends : ∀ limit ≤ g.size + 1, ∀ x, ReflTransGen g.Follows id x → rank x < limit →
      (lowerWithin g limit x).run.isSome := by
    intro limit hlimit
    induction limit with
    | zero => exact fun x _ hrank => absurd hrank (Nat.not_lt_zero _)
    | succ limit ih =>
      intro x hx hrank
      have hparts : ((g.rangeParts x).mapM (lowerWithin g limit)).run.isSome := by
        refine isSome_mapM_of_prefix fun before part after hsplit hbefore => ?_
        have hfollows : g.Follows x part := by
          refine ⟨before, after, hsplit, fun y hy => ?_⟩
          obtain ⟨r, hr⟩ := hbefore y hy
          exact ⟨r, lowerWithin_mono hclosed (Nat.le_of_succ_le hlimit) hr⟩
        have hless : rank part < rank x := hfalls ⟨hx, hfollows⟩
        exact ih (Nat.le_of_succ_le hlimit) part (hx.tail hfollows) (by omega)
      rw [lowerWithin_succ hclosed, ExceptT.run_bind]
      obtain ⟨parts, hparts⟩ := Option.isSome_iff_exists.mp hparts
      rw [hparts]
      cases parts with
      | error e => rfl
      | ok parts => exact assemble_isSome parts
  exact hends _ (Nat.le_refl _) id .refl (Nat.lt_succ_of_le (hsize id))

/-- From a well-founded beginning no cycle is reached. -/
theorem not_cycle_of_acc (h : Acc (fun part x => g.Follows x part) id) (x : NodeId)
    (hx : ReflTransGen g.Follows id x) : ¬ TransGen g.Follows x x := by
  induction h with
  | intro id _ ih =>
    intro hcycle
    rcases hx.cases_head with rfl | ⟨y, hstep, hrest⟩
    · obtain ⟨y, hstep, hback⟩ := TransGen.head'_iff.mp hcycle
      exact ih y hstep hback hcycle
    · exact ih y hstep hrest hcycle

/-- What ends at all ends within the limit of `lower`. -/
theorem lower_eq_some_iff (hclosed : g.Closed) {outcome : Except Range.Error Range} :
    (lower g id).run = some outcome ↔ ∃ limit, (lowerWithin g limit id).run = some outcome := by
  refine ⟨fun h => ⟨_, h⟩, fun ⟨limit, h⟩ => ?_⟩
  have hacc := acc_of_lowerWithin hclosed (Option.isSome_of_eq_some h)
  obtain ⟨outcome', h'⟩ := Option.isSome_iff_exists.mp
    (lower_isSome_of_follows hclosed (not_cycle_of_acc hacc))
  rw [h', lowerWithin_unique hclosed h' h]

/-- **Lowering is recursion without a limit.** -/
theorem lower_eq (hclosed : g.Closed) (id : NodeId) :
    lower g id = (g.rangeParts id).mapM (lower g) >>= assemble g id := by
  have hrun : (lower g id).run = ((g.rangeParts id).mapM (lower g) >>= assemble g id).run := by
    refine Option.ext fun outcome => ⟨fun h => ?_, fun h => ?_⟩
    · rw [lower, lowerWithin_succ hclosed, ExceptT.run_bind] at h
      obtain ⟨parts, hparts, h⟩ := Option.bind_eq_some_iff.mp h
      have hparts' := mapM_run_mono
        (fun d r hd => lowerWithin_mono hclosed (Nat.le_succ g.size) hd) hparts
      rw [ExceptT.run_bind]
      exact Option.bind_eq_some_iff.mpr ⟨parts, hparts', h⟩
    · have hmore : (lowerWithin g (g.size + 2) id).run = some outcome := by
        rw [lowerWithin_succ hclosed]
        exact h
      exact (lower_eq_some_iff hclosed).mpr ⟨_, hmore⟩
  exact hrun

end Range

namespace Session

/-- **Lowering ends exactly where it is not led around a cycle.** In every session and for every node,
what comes of lowering, a range or an error, is what comes of the recursion over the parts of resources
within some limit, and it satisfies the equation of the recursion. It is there if and only if no resource is
led back to itself that lowering is led to; so it is there if no resource wraps itself. -/
theorem lowering_ends_iff {cs : List Command} {answers : List Answer} {s : Session}
    (h : Session.run {} cs = some (answers, s)) (id : NodeId) :
    ((∃ outcome, (Range.lower s.store.graph id).run = some outcome) ↔
        ∀ x, ReflTransGen s.store.graph.Follows id x → ¬ TransGen s.store.graph.Follows x x) ∧
      (∀ outcome, (Range.lower s.store.graph id).run = some outcome ↔
        ∃ limit, (Range.lowerWithin s.store.graph limit id).run = some outcome) ∧
      Range.lower s.store.graph id =
        (s.store.graph.rangeParts id).mapM (Range.lower s.store.graph) >>=
          Range.assemble s.store.graph id ∧
      ((∀ x, ReflTransGen s.store.graph.Wraps id x → ¬ TransGen s.store.graph.Wraps x x) →
        ∃ outcome, (Range.lower s.store.graph id).run = some outcome) := by
  have hclosed := (atRest_of_run h).closed
  refine ⟨⟨fun ⟨outcome, ho⟩ => ?_, fun hacyclic => ?_⟩, fun outcome => Range.lower_eq_some_iff hclosed,
    Range.lower_eq hclosed id, fun hacyclic => ?_⟩
  · exact Range.not_cycle_of_acc (Range.acc_of_lowerWithin hclosed (Option.isSome_of_eq_some ho))
  · exact Option.isSome_iff_exists.mp (Range.lower_isSome_of_follows hclosed hacyclic)
  · exact Option.isSome_iff_exists.mp (Range.lower_isSome hclosed hacyclic)

/-- An array of itself; a union of an array that lacks its element and of the union itself; and a tuple of
the same type twice. -/
def coils : List Command :=
  [.update (.named "ex:array"), .update (.named "ex:union"), .update (.named "ex:lacking"),
    .update (.named "ex:tuple"), .update (.named "ex:type"),
    .update (.addType 0 Components.rangeArray),
    .update (.addProperty 0 Components.parameterRangeValue 0),
    .update (.addType 1 Components.rangeUnion), .update (.addType 2 Components.rangeArray),
    .update (.addProperty 1 Components.parameterRangeElements 2),
    .update (.addProperty 1 Components.parameterRangeElements 1),
    .update (.addType 3 Components.rangeTuple),
    .update (.addProperty 3 Components.parameterRangeElements 4),
    .update (.addProperty 3 Components.parameterRangeElements 4)]

/-- Lowering the array never ends. Lowering the union ends with the error of its first option, and
lowering the tuple with a range. -/
theorem lowering_ends_iff_coils : ∃ answers s, Session.run {} coils = some (answers, s) ∧
    (Range.lower s.store.graph 0).run = none ∧
    s.store.graph.Wraps 1 1 ∧ (∃ e, (Range.lower s.store.graph 1).run = some (.error e)) ∧
    ∃ r, (Range.lower s.store.graph 3).run = some (.ok r) ∧ r.display = "[ex:type, ex:type]" := by
  have hrun : (Session.run {} coils).any fun out =>
      out.2.store.graph.rangeParts 0 == [0] && (out.2.store.graph.rangeParts 1).contains 1 &&
      ((Range.lower out.2.store.graph 1).run.any fun outcome => !outcome.isOk) &&
      ((Range.lower out.2.store.graph 3).run.any fun outcome =>
        outcome.toOption.any fun r => r.display == "[ex:type, ex:type]") := by
    decide +kernel
  obtain ⟨⟨answers, s⟩, h, hout⟩ := (Option.any_eq_true _ _).mp hrun
  simp only [Bool.and_eq_true, beq_iff_eq] at hout
  obtain ⟨⟨⟨hparts, hwraps⟩, hunion⟩, htuple⟩ := hout
  have hself : s.store.graph.Follows 0 0 := ⟨[], [], hparts, fun x hx => absurd hx List.not_mem_nil⟩
  refine ⟨answers, s, h, ?_, List.contains_iff_mem.mp hwraps, ?_, ?_⟩
  · refine Option.eq_none_iff_forall_not_mem.mpr fun outcome houtcome => ?_
    exact (lowering_ends_iff h 0).1.mp ⟨outcome, houtcome⟩ 0 .refl (.single hself)
  · obtain ⟨outcome, houtcome, herror⟩ := (Option.any_eq_true _ _).mp hunion
    cases outcome with
    | error e => exact ⟨e, houtcome⟩
    | ok r => cases herror
  · obtain ⟨outcome, houtcome, hrange⟩ := (Option.any_eq_true _ _).mp htuple
    cases outcome with
    | error e => cases hrange
    | ok r => exact ⟨r, houtcome, eq_of_beq hrange⟩

end Session

end Wiring

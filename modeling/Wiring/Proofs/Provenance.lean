import Wiring.Proofs.Checks
import Wiring.Proofs.Sessions
import Wiring.Proofs.Trials

/-!
# Where typed values come from

A literal holds a typed value only after a check, and it is what the text of the literal stands for as
a primitive of the range that was checked. This outlives everything that happens later: the text of a
node never changes, and values are replaced by values of later checks only.

- `Store.Sourced`: the typed values of a store come from checks of certain ranges.
- `Factory.Runs.sourced`: work keeps this, if the parameters that values are bound to on the way have
  such ranges. What is left of builds when they suspend themselves, or wait, is candid.
- `Session.typed_values_honest`: so it is in all sessions, with the ranges that have been checked.
-/

namespace Wiring

/-! ## What typed values say of texts -/

namespace Primitive

variable {p : Primitive} {text : String}

/-- A boolean is the value of its own word. -/
theorem eq_of_coerce_boolean {b : Bool} (h : p.coerce text = some (some (.boolean b))) :
    text = if b then "true" else "false" := by
  cases p with
  | boolean =>
    simp only [coerce] at h
    split at h
    · cases h
      assumption
    · split at h
      · cases h
        assumption
      · cases h
  | _ => simp [coerce] at h

/-- An integer is the value of its canonical text. -/
theorem eq_of_coerce_integer {i : Int} (h : p.coerce text = some (some (.integer i))) :
    text = toString i := by
  cases p with
  | integer =>
    simp only [coerce, Decimal.canonicalInt64?, Option.map_eq_some_iff] at h
    obtain ⟨n, hn, hi⟩ := h
    split at hn
    · rename_i hcanonical
      cases hn
      cases hi
      exact hcanonical.2.symm
    · cases hn
  | boolean =>
    simp only [coerce] at h
    split at h
    · cases h
    · split at h <;> cases h
  | _ => simp [coerce] at h

end Primitive

/-- The JSON text of a boolean or an integer is the text that it is the value of. -/
theorem TypedValue.text_toJson_of_coerce {p : Primitive} {text : String} {v : TypedValue}
    (h : p.coerce text = some (some v)) (hv : (∃ b, v = .boolean b) ∨ ∃ i, v = .integer i) :
    v.toJson.text = text := by
  rcases hv with ⟨b, rfl⟩ | ⟨i, rfl⟩
  · rw [Primitive.eq_of_coerce_boolean h]
    cases b <;> rfl
  · rw [Primitive.eq_of_coerce_integer h]
    simp [toJson, Json.text, Json.tokens, Token.text]

/-! ## Sourced stores -/

/-- Each typed value is what the text of a literal stands for as a primitive of some range of a kind. -/
def Store.Sourced (C : Range → Prop) (s : Store) : Prop :=
  ∀ id v, s.typed? id = some v → ∃ r, C r ∧ ∃ t, s.graph.term? id = some t ∧ t.kind = .literal ∧
    ∃ p ∈ r.primitives, p.coerce t.value = some (some v)

namespace Store.Sourced

variable {C : Range → Prop} {s s' : Store}

theorem empty : Sourced C {} := by
  intro id v h
  simp [typed?] at h

/-- The graph may grow. -/
theorem extend (h : s.Sourced C) (hgraph : s.graph.Extends s'.graph) (htyped : s'.typed = s.typed) :
    s'.Sourced C := by
  intro id v hv
  rw [typed?, htyped] at hv
  obtain ⟨r, hr, t, ht, hsource⟩ := h id v hv
  exact ⟨r, hr, t, hgraph id t ht, hsource⟩

/-- Checks leave values of their own range. -/
theorem accepts (h : s.Sourced C) {r : Range} (hr : C r) (value : Option NodeId) :
    (s.accepts r value).2.Sourced C := by
  intro id v hv
  rw [accepts_eq, typed?, TypedValues.getElem?_replay, Option.or_eq_some_iff] at hv
  rcases hv with hleft | ⟨-, hv⟩
  · obtain ⟨root, -, hreads⟩ := r.trial_reads s.graph value _ (Writes.mem_of_left? hleft)
    exact ⟨r, hr, hreads.literal⟩
  · exact h id v hv

theorem capture (h : s.Sourced C) {p : Parameter} (hp : C p.range) (value : Option NodeId) :
    (p.capture s value).2.Sourced C :=
  h.accepts hp value

end Store.Sourced

/-! ## Work -/

section Work

variable (C : Range → Prop)

/-- The plan is candid, or about to store what is sourced. -/
def Build.Ready (b : Build Json) : Prop :=
  b.Candid ∨ ∃ bench next, b = .write bench next ∧ next.Candid ∧ bench.store.Sourced C

/-- What is left of a build is candid. -/
def Stage.Candid : Stage → Prop
  | .suspended rest => rest.Candid
  | .awaiting _ next => ∀ v, (next v).Candid
  | _ => True

/-- What a task carries on. -/
def Task.Sourced : Task → Prop
  | .poll _ => True
  | .drive _ _ rest => rest.Ready C
  | .wait _ _ _ next _ => ∀ v, (next v).Candid

/-- The store is sourced, and the builds that are left over are candid. -/
structure Floor.Sourced (f : Floor) : Prop where
  store : f.bench.store.Sourced C
  stages : f.registry.Stages Stage.Candid

variable {C} {o : Factory} {settings : Settings} {f f₁ f' : Floor}

namespace Floor.Sourced

theorem setStage (h : f.Sourced C) (n : Nat) {stage : Stage} (hs : stage.Candid) :
    (f.setStage n stage).Sourced C := ⟨h.store, h.stages.setStage n hs⟩

theorem setRaw (h : f.Sourced C) (n : Nat) (raw : NodeId) : (f.setRaw n raw).Sourced C :=
  ⟨h.store, h.stages.setRaw n raw⟩

theorem finish (h : f.Sourced C) (n : Nat) (result : Except BuildError Json) :
    (f.finish n result).Sourced C :=
  ⟨h.store, Registry.Stages.finish (P := Stage.Candid) h.stages n trivial⟩

theorem receive (h : f.Sourced C) (waiter : Option Nat) (n : Nat)
    (result : Except BuildError Json) : (f.receive waiter n result).Sourced C :=
  ⟨h.store, h.stages⟩

/-- Preprocessors only make the graph grow. -/
theorem setRawConfig (h : f.Sourced C) {ps : List Preprocessor} {config : NodeId}
    {raw : Except BuildError NodeId} {graph : Graph}
    (form : rawConfig ps f.graph config = (raw, graph)) : (f.setGraph graph).Sourced C := by
  have hgrow := (Graph.grows_rawConfig ps f.graph config).term
  rw [form] at hgrow
  exact ⟨h.store.extend hgrow rfl, h.stages⟩

theorem enter (h : f.Sourced C) {config : NodeId} {n : Nat}
    (entry : o.enter config settings f = (.waiting n, f₁)) : f₁.Sourced C := by
  obtain ⟨key, -, ⟨-, rfl⟩ | ⟨-, hstart⟩⟩ := Factory.enter_waiting entry
  · exact h
  · cases hstart
    exact ⟨h.store, Registry.Stages.start (P := Stage.Candid) h.stages trivial config key _⟩

end Floor.Sourced

namespace Factory

/-- **Work keeps stores sourced**, if what is bound on the way is. -/
theorem Runs.sourced {t : Task} {p : Progress} (h : Runs o t f p f')
    (hC : ∀ q, o.Binds q (t, f) → C q.range) (ht : t.Sourced C) (hf : f.Sourced C) :
    f'.Sourced C := by
  -- by induction on the work; a check is seen where a build reads the workbench, and what it leaves is
  -- stored by the next step
  induction h with
  | done v => exact hf.finish _ _
  | fail e => exact hf.finish _ _
  | suspend next =>
    rcases ht with ht | ⟨_, _, hwrite, -⟩
    · exact hf.setStage _ ht.of_suspend
    · cases hwrite
  | @read n settings next f p f' _ ih =>
    refine ih (fun q hq => hC q (hq.of_calls .read)) ?_ hf
    rcases ht with ht | ⟨_, _, hwrite, -⟩
    · rcases ht.of_read f.bench with hnext | ⟨bench, rest, hwrite, hrest, hstore⟩
      · exact .inl hnext
      · refine .inr ⟨bench, rest, hwrite, hrest, ?_⟩
        rcases hstore with hsame | ⟨q, value, after, hbuild, hcheck⟩
        · rw [hsame]
          exact hf.store
        · rw [hcheck]
          exact hf.store.capture (hC q ⟨n, settings, value, after, f, hbuild ▸ .refl⟩) value
    · cases hwrite
  | write _ ih =>
    rcases ht with ht | ⟨_, _, hwrite, hnext, hstore⟩
    · exact absurd ht (Build.Candid.not_write _ _)
    · cases hwrite
      exact ih (fun q hq => hC q (hq.of_calls .write)) (.inl hnext) ⟨hstore, hf.stages⟩
  | answered entry _ ih =>
    obtain ⟨rfl, -⟩ := enter_answered entry
    rcases ht with ht | ⟨_, _, hwrite, -⟩
    · exact ih (fun q hq => hC q (hq.of_calls (.answered entry))) (.inl (ht.of_request _)) hf
    · cases hwrite
  | refused entry =>
    obtain ⟨rfl, -⟩ := enter_answered entry
    exact hf.finish _ _
  | request entry _ ih =>
    rcases ht with ht | ⟨_, _, hwrite, -⟩
    · exact ih (fun q hq => hC q (hq.of_calls (.request entry))) ht.of_request (hf.enter entry)
    · cases hwrite
  | received poll _ ihp ihr =>
    have hf₁ := ihp (fun q hq => hC q (hq.of_calls .poll)) trivial hf
    exact ihr (fun q hq => hC q (hq.of_calls (.received poll))) (.inl (ht _))
      (hf₁.receive _ _ _)
  | passedOn _ ihp =>
    have hf₁ := ihp (fun q hq => hC q (hq.of_calls .poll)) trivial hf
    exact (hf₁.receive _ _ _).finish _ _
  | blocked _ ihp =>
    have hf₁ := ihp (fun q hq => hC q (hq.of_calls .poll)) trivial hf
    exact hf₁.setStage _ ht
  | missing lookup => exact hf
  | finished lookup stage => exact hf
  | running lookup stage => exact hf
  | @unprepared n c e graph f lookup stage form =>
    have hf₁ : (f.setStage n .running).Sourced C := hf.setStage n trivial
    exact (hf₁.setRawConfig form).finish n _
  | @prepared n c raw graph f p f' lookup stage form _ ih =>
    have hf₁ : (f.setStage n .running).Sourced C := hf.setStage n trivial
    exact ih (fun q hq => hC q (hq.of_calls (.prepared lookup stage form)))
      (.inl (o.strategy.candid_build raw)) ((hf₁.setRawConfig form).setRaw n raw)
  | @resumed n c next f p f' lookup stage _ ih =>
    have hnext : (Stage.suspended next).Candid := stage ▸ hf.stages n c lookup
    exact ih (fun q hq => hC q (hq.of_calls (.resumed lookup stage))) (.inl hnext)
      (hf.setStage n trivial)
  | @awaited n c other next f p f' lookup stage _ ih =>
    have hnext : (Stage.awaiting other next).Candid := stage ▸ hf.stages n c lookup
    exact ih (fun q hq => hC q (hq.of_calls (.awaited lookup stage))) hnext (hf.setStage n trivial)

theorem Serves.sourced {r r' : Request} {rs : List Request} {moved : Bool}
    (h : Serves o settings r f r' moved f')
    (hC : ∀ n f₁ q, RoundPolls o settings (r :: rs) f n f₁ → o.Binds q (.poll n, f₁) → C q.range)
    (hf : f.Sourced C) : f'.Sourced C := by
  induction h with
  | settled => exact hf
  | answered entry =>
    obtain ⟨rfl, -⟩ := enter_answered entry
    exact hf
  | @entered config n r moved f f₁ f' entry rest ih =>
    refine ih (fun m f₂ q hpolls => ?_) (hf.enter entry)
    cases hpolls with
    | waiting => exact hC n f₁ q (.entered entry)
    | later head hrest => exact hC m f₂ q (.later (.entered entry head) hrest)
  | @received n result f f₁ poll =>
    exact (poll.sourced (fun q => hC n f q .waiting) trivial hf).receive none n _
  | @pending n moved f f₁ poll => exact poll.sourced (fun q => hC n f q .waiting) trivial hf

theorem Sweeps.sourced {rs rs' : List Request} {moved : Bool}
    (h : Sweeps o settings rs f rs' moved f')
    (hC : ∀ n f₁ q, RoundPolls o settings rs f n f₁ → o.Binds q (.poll n, f₁) → C q.range)
    (hf : f.Sourced C) : f'.Sourced C := by
  induction h with
  | nil => exact hf
  | cons head _ ih =>
    exact ih (fun n f₂ q hpolls => hC n f₂ q (.later head hpolls)) (head.sourced hC hf)

theorem Concludes.sourced {rs : List Request} {joined : Joined}
    (h : Concludes o settings rs f joined f')
    (hC : ∀ n f₁ q, JoinPolls o settings rs f n f₁ → o.Binds q (.poll n, f₁) → C q.range)
    (hf : f.Sourced C) : f'.Sourced C := by
  induction h with
  | answers round all => exact round.sourced (fun n f₁ q hpolls => hC n f₁ q (.now hpolls)) hf
  | deadlock round some => exact round.sourced (fun n f₁ q hpolls => hC n f₁ q (.now hpolls)) hf
  | again round some _ ih =>
    exact ih (fun n f₂ q hpolls => hC n f₂ q (.again round some hpolls))
      (round.sourced (fun n f₁ q hpolls => hC n f₁ q (.now hpolls)) hf)

end Factory

end Work

/-! ## Sessions -/

namespace Session

variable {C : Range → Prop} {s s' : Session}

/-- The store of a session is sourced, and the builds that its pools have left over are candid. -/
structure Sourced (C : Range → Prop) (s : Session) : Prop where
  store : s.store.Sourced C
  pools : ∀ {i : Nat} {p : Pool}, s.pools[i]? = some p → p.registry.Stages Stage.Candid

theorem Sourced.empty : Sourced C {} := ⟨.empty, fun hp => by simp at hp⟩

theorem Sourced.step (h : s.Sourced C) {c : Command} {answer : Answer}
    (hstep : s.step c = some (answer, s')) (hC : ∀ r, s.Checks c r → C r) : s'.Sourced C := by
  cases c with
  | update u =>
    cases hstep
    exact ⟨h.store.extend (Graph.extends_apply s.store.graph u).1 rfl, h.pools⟩
  | check value source =>
    obtain ⟨r, hlowered, hstep⟩ := Option.bind_eq_some_iff.mp hstep
    cases r with
    | error e =>
      cases hstep
      exact h
    | ok r =>
      cases hstep
      exact ⟨h.store.accepts (hC r (.check hlowered)) value, h.pools⟩
  | capture value source =>
    obtain ⟨p, hlowered, hstep⟩ := Option.bind_eq_some_iff.mp hstep
    cases p with
    | error e =>
      cases hstep
      exact h
    | ok p =>
      cases hstep
      exact ⟨h.store.capture (hC p.range (.capture hlowered)) value, h.pools⟩
  | openPool factory failures =>
    cases hstep
    refine ⟨h.store, fun {i p} hp => ?_⟩
    rw [Array.getElem?_push] at hp
    split at hp
    · cases hp
      exact fun n c hc => nomatch hc
    · exact h.pools hp
  | join i settings configs =>
    have hstep : s.work i (·.join settings configs) .joined = some (answer, s') := hstep
    rcases work_eq_some hstep with ⟨-, -, rfl⟩ | ⟨p, joined, floor, hp, hjob, -, rfl⟩
    · exact h
    · have hfloor : (p.floor s.store).Sourced C := ⟨h.store, h.pools hp⟩
      have hafter := (Factory.concludes_of_join hjob).sourced
        (fun n f q hpolls hbinds => hC q.range (.join hp hpolls hbinds)) hfloor
      refine ⟨hafter.store, fun {j q} hq => ?_⟩
      rcases getElem?_pools_joins hp hq with ⟨-, rfl⟩ | ⟨-, hq⟩
      · exact hafter.stages
      · exact h.pools hq
  | prepare i config =>
    have hstep : s.work i (·.prepare config) .prepared = some (answer, s') := hstep
    rcases work_eq_some hstep with ⟨-, -, rfl⟩ | ⟨p, raw, floor, hp, hjob, -, rfl⟩
    · exact h
    · rw [Factory.prepare_run] at hjob
      cases hjob
      have hgrow := (Graph.grows_rawConfig p.factory.preprocessors s.store.graph config).term
      refine ⟨h.store.extend hgrow rfl, fun {j q} hq => ?_⟩
      rcases getElem?_pools_joins hp hq with ⟨-, rfl⟩ | ⟨-, hq⟩
      · exact h.pools hp
      · exact h.pools hq

/-- The typed values in a session come from the ranges that have been checked in it. -/
theorem Sourced.run (h : s.Sourced C) {cs : List Command} {answers : List Answer}
    (hrun : s.run cs = some (answers, s')) (hC : ∀ r, CheckedIn s cs r → C r) : s'.Sourced C := by
  induction cs generalizing s answers with
  | nil =>
    cases hrun
    exact h
  | cons c cs ih =>
    obtain ⟨⟨a, s₁⟩, hstep, hrun⟩ := Option.bind_eq_some_iff.mp hrun
    obtain ⟨⟨as, s₂⟩, hlater, hrun⟩ := Option.bind_eq_some_iff.mp hrun
    cases hrun
    exact ih (h.step hstep fun r hr => hC r (.now hr)) hlater fun r hr => hC r (.later hstep hr)

/-- **Stored typed values are honest.** Whenever a node holds a typed value in a session, whatever the
commands so far have been and whether they succeeded: the node is a literal, the value is what its text
stands for as some primitive other than a string, and that primitive occurred in a range that a value has
been checked against in this session. The text stays the same in all that follows. So a boolean is held
by the very words `true` and `false`, and an integer by its decimal form, and the value is written as
the text that it came from. -/
theorem typed_values_honest {cs : List Command} {answers : List Answer}
    (h : Session.run {} cs = some (answers, s)) {id : NodeId} {v : TypedValue}
    (hv : s.store.typed? id = some v) :
    ∃ t, s.store.graph.term? id = some t ∧ t.kind = .literal ∧
      (∃ r p, CheckedIn {} cs r ∧ p ∈ r.primitives ∧ p ≠ .string ∧
        p.coerce t.value = some (some v)) ∧
      (∀ {ds answers' s'}, s.run ds = some (answers', s') → s'.store.graph.term? id = some t) ∧
      (∀ b, v = .boolean b → t.value = (if b then "true" else "false") ∧ v.toJson.text = t.value) ∧
      (∀ i, v = .integer i → t.value = toString i ∧ v.toJson.text = t.value) := by
  have hsourced : s.Sourced (CheckedIn {} cs) := Sourced.empty.run h fun _ hr => hr
  obtain ⟨r, hr, t, ht, hkind, p, hp, hcoerce⟩ := hsourced.store id v hv
  have hstring : p ≠ .string := by
    rintro rfl
    cases hcoerce
  refine ⟨t, ht, hkind, ⟨r, p, hr, hp, hstring, hcoerce⟩, ?_, ?_, ?_⟩
  · intro ds answers' s' hlater
    exact (run_leads hlater (atRest_of_run h)).2.graph id t ht
  · rintro b rfl
    exact ⟨Primitive.eq_of_coerce_boolean hcoerce,
      TypedValue.text_toJson_of_coerce hcoerce (.inl ⟨b, rfl⟩)⟩
  · rintro i rfl
    exact ⟨Primitive.eq_of_coerce_integer hcoerce,
      TypedValue.text_toJson_of_coerce hcoerce (.inr ⟨i, rfl⟩)⟩

/-- A component with an argument that is to be a list of integers. The first item of its value is one,
and the second one is not. -/
def refusedList : List Command :=
  [.update (.named "ex:c"), .update (.literal "App"), .update (.named "ex:p"),
    .update (.named Xsd.integer), .update .blank, .update (.literal "5"), .update (.literal "x"),
    .update (.list [5, 6]), .update .blank, .update (.addProperty 0 Components.requireName 1),
    .update (.addType 4 Components.rangeArray),
    .update (.addProperty 4 Components.parameterRangeValue 3),
    .update (.addProperty 2 Rdfs.range 4), .update (.addProperty 8 Components.parameter 2),
    .update (.addProperty 8 Components.value 7), .update (.addProperty 0 Components.arguments 8),
    .openPool { strategy := .describe } 0, .join 0 {} [0],
    .check (some 5) (.given (.type Xsd.boolean))]

/-- The join fails and so does the check after it, but the first item holds its number. -/
theorem typed_values_honest_refusedList : ∃ answers s,
    Session.run {} refusedList = some (answers, s) ∧
      s.store.typed? 5 = some (.integer 5) ∧ s.store.typed? 6 = none ∧
      ∃ t r p, s.store.graph.term? 5 = some t ∧ CheckedIn {} refusedList r ∧ p ∈ r.primitives ∧
        p ≠ .string ∧ p.coerce t.value = some (some (.integer 5)) ∧ t.value = toString (5 : Int) := by
  have hrun : (Session.run {} refusedList).any fun out =>
      (out.2.store.typed? 5).any (fun v => v.tag = "Integer" && v.content.asInt? 5 5 = some 5) &&
        (out.2.store.typed? 6).isNone := by
    decide +kernel
  obtain ⟨⟨answers, s⟩, h, hout⟩ := (Option.any_eq_true _ _).mp hrun
  obtain ⟨hfive, hsix⟩ := (Bool.and_eq_true _ _).mp hout
  obtain ⟨v, hv, hinteger⟩ := (Option.any_eq_true _ _).mp hfive
  obtain rfl : v = .integer 5 := by
    cases v with
    | integer i =>
      simp only [TypedValue.content, Json.asInt?] at hinteger
      have : 5 ≤ i ∧ i ≤ 5 := by simp_all
      rw [show i = 5 by omega]
    | _ => simp [TypedValue.tag] at hinteger
  obtain ⟨t, ht, -, ⟨r, p, hr, hp, hstring, hcoerce⟩, -, -, htext⟩ := typed_values_honest h hv
  exact ⟨answers, s, h, hv, Option.isNone_iff_eq_none.mp hsix, t, r, p, ht, hr, hp, hstring, hcoerce,
    (htext 5 rfl).1⟩

end Session

end Wiring

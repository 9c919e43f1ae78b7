import Wiring.Proofs.Trials
import Wiring.Proofs.Values

/-!
# Accepted values stay accepted

A graph grows by new nodes and new links. Later on a node may be tagged with more types, and a check
may take a shorter way to its verdict; but the items of a list never change.

- `Graph.Precedes`: one graph is an earlier state of another one.
- `Range.accepted_later`: a range that accepts a node accepts it in every later graph, if rest entries
  come last in its tuples (`Range.restsLast`).
- `Session.accepted_for_good`: so whatever is done in a session after a node has been accepted, it is
  accepted again.

A rest entry that is followed by further entries may come to take an item that one of those has taken
before, so there the verdict may change.
-/

namespace Wiring

namespace Graph

/-! ## Earlier graphs -/

/-- The nodes of an earlier graph are nodes of the later one, and its links come first among the links
of that one. The links that have been added make items of new lists only. -/
structure Precedes (g g' : Graph) : Prop where
  term : g.Extends g'
  links : ∃ added, g'.links.toList = g.links.toList ++ added ∧
    ∀ l ∈ added, l.label.position?.isSome → g.size ≤ l.source

namespace Precedes

variable {g g₁ g₂ g' : Graph} {id : NodeId}

theorem refl (g : Graph) : g.Precedes g := ⟨.refl g, [], by simp, by simp⟩

/-! ### What a later graph shows -/

/-- Properties are only added. -/
theorem properties (h : g.Precedes g') (id : NodeId) (p : String) :
    g.properties id p <+: g'.properties id p := by
  obtain ⟨added, hlinks, -⟩ := h.links
  simp [Graph.properties, hlinks]

/-- The first value of a property stays the first one. -/
theorem property? (h : g.Precedes g') {p : String} {v : NodeId}
    (hv : g.property? id p = some v) : g'.property? id p = some v := by
  obtain ⟨added, hadded⟩ := h.properties id p
  rw [Graph.property?, ← hadded, List.head?_append]
  exact Option.or_of_isSome (Option.isSome_of_eq_some hv) ▸ hv

/-- Types are only added. -/
theorem isA (h : g.Precedes g') {iri : String} (hid : g.isA id iri = true) :
    g'.isA id iri = true := by
  simp only [Graph.isA, Graph.types, List.mem_filterMap, decide_eq_true_eq] at hid ⊢
  obtain ⟨target, htarget, hvalue⟩ := hid
  exact ⟨target, (h.properties id Rdf.type).subset htarget, h.term.value hvalue⟩

/-- A node stays of its kind. -/
theorem kind? (h : g.Precedes g') (hid : id < g.size) : g'.kind? id = g.kind? id := by
  obtain ⟨t, ht⟩ := Option.isSome_iff_exists.mp (term?_isSome.mpr hid)
  rw [Graph.kind?, Graph.kind?, ht, h.term id t ht]

/-- Variables stay variables. -/
theorem isVariable (h : g.Precedes g') (hid : id < g.size) (hv : g.isVariable id = true) :
    g'.isVariable id = true := by
  simp only [Graph.isVariable, Bool.or_eq_true, h.kind? hid] at hv ⊢
  exact hv.imp_right h.isA

/-- **The items of a list never change.** -/
theorem listItems? (h : g.Precedes g') (hid : id < g.size) : g'.listItems? id = g.listItems? id := by
  obtain ⟨added, hlinks, hadded⟩ := h.links
  have hnone : added.filterMap
      (fun l => if l.source = id then l.label.position?.map (·, l.target) else none) = [] := by
    rw [List.filterMap_eq_nil_iff]
    intro l hl
    by_cases hsource : l.source = id
    · cases hposition : l.label.position? with
      | none => simp
      | some position =>
        -- a link that makes an item has been added to a new list
        have hnew := hadded l hl (by simp [hposition])
        exact absurd hid (Nat.not_lt.mpr (hsource ▸ hnew))
    · simp [hsource]
  rw [Graph.listItems?, Graph.listItems?, h.kind? hid, itemLinks, itemLinks, hlinks,
    List.filterMap_append, hnone, List.append_nil]

/-! ### How a graph gets later -/

theorem push (h : g.Precedes g₁) (t : Term) : g.Precedes (g₁.push t).2 :=
  ⟨h.term.trans (extends_push g₁ t), h.links⟩

theorem pushLabelled (h : g.Precedes g₁) (kind : Kind) (letter : String) :
    g.Precedes (g₁.pushLabelled kind letter).2 := by
  have hcount : g.Precedes { g₁ with labels := g₁.labels + 1 } := ⟨h.term, h.links⟩
  exact hcount.push _

theorem intern (h : g.Precedes g₁) (kind : Kind) (value : String) :
    g.Precedes (g₁.intern kind value).2 := by
  rw [Graph.intern]
  split
  · exact h
  · exact h.push _

/-- A new link is a property, or makes an item of a new list. -/
theorem link? (h : g.Precedes g₁) {s o : NodeId} {l : Label} (hl : g₁.link? s l o = some g₂)
    (hnew : l.position?.isSome → g.size ≤ s) : g.Precedes g₂ := by
  obtain ⟨added, hlinks, hadded⟩ := h.links
  refine ⟨h.term.trans (extends_link? hl), added ++ [⟨s, l, o⟩], ?_, ?_⟩
  · obtain ⟨-, -, rfl⟩ := link?_eq_some hl
    simp [hlinks]
  · intro k hk hposition
    rcases List.mem_append.mp hk with hk | hk
    · exact hadded k hk hposition
    · cases List.mem_singleton.mp hk
      exact hnew hposition

theorem link (h : g.Precedes g₁) (s : NodeId) (p : String) (o : NodeId) :
    g.Precedes (g₁.link s (.property p) o) := by
  rw [Graph.link]
  cases hl : g₁.link? s (.property p) o with
  | none => exact h
  | some g₂ => exact h.link? hl (by simp [Label.position?])

theorem linkItems (h : g.Precedes g₁) {list : NodeId} (hlist : g.size ≤ list) (position : Nat)
    (items : List NodeId) : g.Precedes (g₁.linkItems list position items).2 := by
  induction items generalizing g₁ position with
  | nil => exact h
  | cons item rest ih =>
    rw [Graph.linkItems]
    cases hl : g₁.link? list (.item (UInt32.ofNat position)) item with
    | none => exact h
    | some g₂ => exact ih (h.link? hl fun _ => hlist) (position + 1)

/-- Updates make a graph later. -/
theorem apply (h : g.Precedes g₁) (u : Update) : g.Precedes (g₁.apply u).2 := by
  cases u with
  | named iri => exact h.intern .named iri
  | placeholder name => exact h.intern .placeholder name
  | blank => exact h.pushLabelled _ _
  | literal text => exact h.push _
  | typedLiteral text datatype => exact h.push _
  | list items => exact (h.pushLabelled .list "l").linkItems h.term.size_le 0 items
  | addProperty subject predicate object =>
    rw [Graph.apply, addProperty?]
    cases hl : g₁.link? subject (.property predicate) object with
    | none => exact h
    | some g₂ => exact h.link? hl (by simp [Label.position?])
  | addType subject iri =>
    have hnamed := h.intern .named iri
    rcases hi : g₁.intern .named iri with ⟨object, g₂⟩
    rw [hi] at hnamed
    simp only [Graph.apply, hi, addProperty?]
    cases hl : g₂.link? subject (.property Rdf.type) object with
    | none => exact hnamed
    | some g₃ => exact hnamed.link? hl (by simp [Label.position?])

theorem copyProperties (h : g.Precedes g₁) (source : NodeId) (p : String) (receiver : NodeId) :
    g.Precedes (g₁.copyProperties source p receiver) := by
  rw [Graph.copyProperties]
  generalize g₁.properties source p = targets
  induction targets generalizing g₁ with
  | nil => exact h
  | cons target rest ih => exact ih (h.link receiver p target)

theorem copyAll (h : g.Precedes g₁) (source receiver : NodeId) (ps : List String) :
    g.Precedes (ps.foldl (fun g p => g.copyProperties source p receiver) g₁) := by
  induction ps generalizing g₁ with
  | nil => exact h
  | cons p rest ih => exact ih (h.copyProperties source p receiver)

/-- Preprocessors make a graph later. -/
theorem rawConfig (h : g.Precedes g₁) (ps : List Preprocessor) (config : NodeId) :
    g.Precedes (Wiring.rawConfig ps g₁ config).2 := by
  rcases rawConfig_cases ps g₁ config with hsame | ⟨name, hexpand⟩
  · rw [hsame]
    exact h
  · rw [hexpand, Preprocessor.expand]
    have hblank : g.Precedes g₁.pushBlank.2 := h.pushLabelled _ _
    refine copyAll ?_ config _ _
    cases name with
    | none => exact hblank
    | some name => exact (hblank.push (.literal name Xsd.string)).link _ _ _

end Precedes

end Graph

/-! ## Ranges that keep accepting -/

namespace Range

mutual

/-- Whether rest entries occur in tuples only as their last entries, at every depth. -/
def restsLast : Range → Bool
  | .array element => element.restsLast
  | .rest element => element.restsLast
  | .tuple entries => entriesRestsLast entries
  | .union options => eachRestsLast options
  | .intersection options => eachRestsLast options
  | _ => true

/-- Whether this holds of each option. -/
def eachRestsLast : List Range → Bool
  | [] => true
  | r :: rs => r.restsLast && eachRestsLast rs

/-- Whether this holds of each entry of a tuple, and no entry but the last one is a rest entry. -/
def entriesRestsLast : List Range → Bool
  | [] => true
  | entry :: entries =>
    (!entry.isRest || entries.isEmpty) && entry.restsLast && entriesRestsLast entries

end

variable {g g' : Graph}

theorem trialType_later (hlater : g.Precedes g') {iri : String} {id : NodeId} {t : Term}
    (hid : id < g.size) (h : (trialType g iri id t).verdict = true) :
    (trialType g' iri id t).verdict = true := by
  have htagged : (g.isVariable id || g.isA id iri) = true →
      (g'.isVariable id || g'.isA id iri) = true := by
    simp only [Bool.or_eq_true]
    exact Or.imp (hlater.isVariable hid) hlater.isA
  rw [trialType] at h ⊢
  split at h
  · exact h
  · rfl
  · exact htagged h

/-- What accepts variables, and other nodes if something else does. -/
theorem unlessVariable_later (hlater : g.Precedes g') {id : NodeId} (hid : id < g.size) {t t' : Trial}
    (h : t.verdict = true → t'.verdict = true)
    (haccepted : (if g.isVariable id then ⟨true, []⟩ else t : Trial).verdict = true) :
    (if g'.isVariable id then ⟨true, []⟩ else t' : Trial).verdict = true := by
  split
  · rfl
  · rename_i hvariable
    rw [if_neg fun hv => hvariable (hlater.isVariable hid hv)] at haccepted
    exact h haccepted

mutual

/-- **An accepted node is accepted in every later graph.** -/
theorem accepted_later (hlater : g.Precedes g') (hclosed : g.Closed) :
    ∀ {r : Range} {id : NodeId}, r.restsLast = true → id < g.size →
    (trial g r (some id)).verdict = true → (trial g' r (some id)).verdict = true
  | .any, _, _, _, _ => by rw [trial]
  | .collectEntries, _, _, _, _ => by rw [trial]
  | .undefined, id, _, hid, h => by
    have hid' := Nat.lt_of_lt_of_le hid hlater.term.size_le
    simp only [trial, Graph.contains, hid, hid', Option.all_some, decide_true, Bool.not_true,
      Bool.false_or] at h ⊢
    exact hlater.isVariable hid h
  | .union options, id, hr, hid, h => by
    simp only [trial, Option.any_some] at h ⊢
    rw [restsLast] at hr
    exact unlessVariable_later hlater hid (accepted_later_some hlater hclosed hr hid) h
  | .intersection options, id, hr, hid, h => by
    simp only [trial, Option.any_some] at h ⊢
    rw [restsLast] at hr
    exact unlessVariable_later hlater hid (accepted_later_every hlater hclosed hr hid) h
  | .literal t, id, _, hid, h => by
    simp only [trial, Bool.or_eq_true, decide_eq_true_eq] at h ⊢
    exact h.imp (hlater.isVariable hid) (hlater.term id t)
  | .type iri, id, _, hid, h => by
    obtain ⟨t, ht⟩ := Option.isSome_iff_exists.mp (Graph.term?_isSome.mpr hid)
    simp only [trial, ht, hlater.term id t ht] at h ⊢
    exact trialType_later hlater hid h
  | .rest _, id, _, hid, h => hlater.isVariable hid h
  | .array element, id, hr, hid, h => by
    rw [trial] at h ⊢
    refine unlessVariable_later hlater hid (fun h => ?_) h
    rw [hlater.listItems? hid]
    cases hitems : g.listItems? id with
    | none =>
      rw [hitems] at h
      cases h
    | some items =>
      simp only [hitems, Trial.verdict_allOf, List.all_eq_true] at h ⊢
      intro item hitem
      have hlt := Graph.HasItem.lt_size hclosed ⟨items, hitems, hitem⟩
      exact accepted_later hlater hclosed (by rwa [restsLast] at hr) hlt (h item hitem)
  | .tuple entries, id, hr, hid, h => by
    rw [trial] at h ⊢
    refine unlessVariable_later hlater hid (fun h => ?_) h
    rw [hlater.listItems? hid]
    cases hitems : g.listItems? id with
    | none =>
      rw [hitems] at h
      cases h
    | some items =>
      rw [hitems] at h
      have hlt : ∀ item ∈ items, item < g.size := fun item hitem =>
        Graph.HasItem.lt_size hclosed ⟨items, hitems, hitem⟩
      exact accepted_later_entries hlater hclosed (by rwa [restsLast] at hr) hlt h

theorem accepted_later_some (hlater : g.Precedes g') (hclosed : g.Closed) :
    ∀ {rs : List Range} {id : NodeId}, eachRestsLast rs = true →
    id < g.size → (trialSome g rs (some id)).verdict = true →
    (trialSome g' rs (some id)).verdict = true
  | [], _, _, _, h => by rw [trialSome] at h; cases h
  | r :: rs, id, hr, hid, h => by
    rw [eachRestsLast, Bool.and_eq_true] at hr
    simp only [trialSome, Trial.verdict_orElse, Bool.or_eq_true] at h ⊢
    exact h.imp (accepted_later hlater hclosed hr.1 hid) (accepted_later_some hlater hclosed hr.2 hid)

theorem accepted_later_every (hlater : g.Precedes g') (hclosed : g.Closed) :
    ∀ {rs : List Range} {id : NodeId}, eachRestsLast rs = true →
    id < g.size → (trialEvery g rs (some id)).verdict = true →
    (trialEvery g' rs (some id)).verdict = true
  | [], _, _, _, _ => by rw [trialEvery]
  | r :: rs, id, hr, hid, h => by
    rw [eachRestsLast, Bool.and_eq_true] at hr
    simp only [trialEvery, Trial.verdict_andThen, Bool.and_eq_true] at h ⊢
    exact ⟨accepted_later hlater hclosed hr.1 hid h.1, accepted_later_every hlater hclosed hr.2 hid h.2⟩

theorem accepted_later_entries (hlater : g.Precedes g') (hclosed : g.Closed) :
    ∀ {entries : List Range} {items : List NodeId},
    entriesRestsLast entries = true → (∀ item ∈ items, item < g.size) →
    (trialEntries g entries items).verdict = true → (trialEntries g' entries items).verdict = true
  | [], items, _, _, h => by rwa [trialEntries] at h ⊢
  | entry :: entries, items, hr, hlt, h => by
    simp only [entriesRestsLast, Bool.and_eq_true, Bool.or_eq_true, Bool.not_eq_true'] at hr
    obtain ⟨⟨hlast, hentry⟩, hentries⟩ := hr
    cases hrest : entry.isRest with
    | true =>
      -- no entry follows, so the rest entry has to take all items
      obtain ⟨element, rfl⟩ := eq_rest_of_isRest hrest
      obtain rfl : entries = [] := by simpa [hrest] using hlast
      simp only [trialEntries, Trial.verdict_after, Trial.isEmpty_dropAccepted] at h ⊢
      have hall : ∀ item ∈ items, (trial g element (some item)).verdict = true := by
        split at h
        · rename_i hall
          exact List.all_eq_true.mp hall
        · exact List.all_eq_true.mp h
      rw [if_pos]
      · rfl
      · rw [List.all_eq_true]
        intro item hitem
        exact accepted_later hlater hclosed (by rwa [restsLast] at hentry) (hlt item hitem)
          (hall item hitem)
    | false =>
      cases items with
      | nil =>
        rw [trialEntries_nil g hrest] at h
        cases h
      | cons item items =>
        rw [trialEntries_cons g hrest, Trial.verdict_andThen, Bool.and_eq_true] at h
        rw [trialEntries_cons g' hrest, Trial.verdict_andThen, Bool.and_eq_true]
        exact ⟨accepted_later hlater hclosed hentry (hlt item List.mem_cons_self) h.1,
          accepted_later_entries hlater hclosed hentries
            (fun i hi => hlt i (List.mem_cons_of_mem _ hi)) h.2⟩

end

end Range

/-! ## Sessions after a check -/

/-- An update, or a check or a binding for which nothing has to be lowered. -/
def Command.isImmediate : Command → Bool
  | .update _ | .check _ (.given _) | .capture _ (.given _) => true
  | _ => false

namespace Session

/-- The graphs of later sessions are later graphs. -/
theorem precedes_of_run {s s' : Session} {cs ds : List Command} {answers answers' : List Answer}
    (h : Session.run {} cs = some (answers, s)) (hlater : s.run ds = some (answers', s')) :
    s.store.graph.Precedes s'.store.graph :=
  graph_of_later (K := s.store.graph.Precedes) (fun hg => hg.rawConfig) (fun hg => hg.apply) h hlater
    (.refl _)

/-- Immediate commands end. -/
theorem run_isSome (s : Session) {ds : List Command} (hds : ∀ c ∈ ds, c.isImmediate = true) :
    (s.run ds).isSome := by
  induction ds generalizing s with
  | nil => rfl
  | cons c ds ih =>
    have hstep : ∃ answer s', s.step c = some (answer, s') := by
      have hc := hds c List.mem_cons_self
      unfold Command.isImmediate at hc
      split at hc
      · exact ⟨_, _, rfl⟩
      · exact ⟨_, _, rfl⟩
      · exact ⟨_, _, rfl⟩
      · cases hc
    obtain ⟨answer, s', hstep⟩ := hstep
    obtain ⟨⟨answers, s''⟩, hrun⟩ :=
      Option.isSome_iff_exists.mp (ih s' fun c hc => hds c (List.mem_cons_of_mem _ hc))
    simp [run, hstep, hrun]

/-- **Accepted values stay accepted.** In a range whose tuples have rest entries as last entries only,
at every depth: if a check in a session accepts a node of the graph, the node is accepted in every
later session, whatever the commands in between have been and whether they succeeded. Updates and
checks in between always end, also those that fail half-way. -/
theorem accepted_for_good {s : Session} {cs : List Command} {answers : List Answer} {r : Range}
    {id : NodeId} (h : Session.run {} cs = some (answers, s)) (hr : r.restsLast = true)
    (hid : s.store.graph.contains id = true) (haccepted : (s.store.accepts r (some id)).1 = true) :
    (∀ {ds answers' s'}, s.run ds = some (answers', s') →
      (s'.store.accepts r (some id)).1 = true) ∧
    ∀ {ds}, (∀ c ∈ ds, c.isImmediate = true) → (s.run ds).isSome := by
  constructor
  · intro ds answers' s' hlater
    rw [Store.accepts_eq] at haccepted ⊢
    exact Range.accepted_later (precedes_of_run h hlater) (atRest_of_run h).closed hr
      (of_decide_eq_true hid) haccepted
  · exact fun hds => run_isSome s hds

/-- A list of the number `1` and a list of a node. -/
def nestedList : List Command :=
  [.update (.named "ex:a"), .update (.literal "1"), .update (.list [0]), .update (.list [1, 2])]

/-- A number, and then arrays or resources of a type. -/
def numberThenRest : Range := .tuple [.type Xsd.integer, .rest (.union [.type "ex:T", .array .any])]

/-- The inner list is accepted as an array first, and for its type after it has got one. -/
theorem accepted_for_good_nestedList : ∃ answers s answers' s',
    Session.run {} nestedList = some (answers, s) ∧
      (s.store.accepts numberThenRest (some 3)).1 = true ∧
      s.run [.update (.addType 2 "ex:T"), .update (.list [0, 9]), .check (some 1) (.given .undefined)] =
        some (answers', s') ∧
      s'.store.graph.isA 2 "ex:T" = true ∧ s'.store.graph.size = 6 ∧
      (s'.store.accepts numberThenRest (some 3)).1 = true := by
  have hrun : (Session.run {} nestedList).any fun out =>
      out.2.store.graph.contains 3 && (out.2.store.accepts numberThenRest (some 3)).1 &&
      (out.2.run [.update (.addType 2 "ex:T"), .update (.list [0, 9]),
        .check (some 1) (.given .undefined)]).any fun later =>
          later.2.store.graph.isA 2 "ex:T" && later.2.store.graph.size == 6 := by
    decide +kernel
  obtain ⟨⟨answers, s⟩, h, hout⟩ := (Option.any_eq_true _ _).mp hrun
  obtain ⟨hout, hlater⟩ := (Bool.and_eq_true _ _).mp hout
  obtain ⟨hid, haccepted⟩ := (Bool.and_eq_true _ _).mp hout
  obtain ⟨⟨answers', s'⟩, hlater, hout⟩ := (Option.any_eq_true _ _).mp hlater
  obtain ⟨htype, hsize⟩ := (Bool.and_eq_true _ _).mp hout
  exact ⟨answers, s, answers', s', h, haccepted, hlater, htype, eq_of_beq hsize,
    (accepted_for_good h rfl hid haccepted).1 hlater⟩

/-- A rest entry that comes to take an item leaves nothing for the entry after it. -/
example :
    let s := [Update.named "ex:a", .list [0]].foldl (fun s u => (s.apply u).2) ({} : Store)
    let r := Range.tuple [.rest (.type "ex:T"), .any]
    (s.accepts r (some 1)).1 = true ∧
      ((s.apply (.addType 0 "ex:T")).2.accepts r (some 1)).1 = false := by
  decide +kernel

end Session

end Wiring

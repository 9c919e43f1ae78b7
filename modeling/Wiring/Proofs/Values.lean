import Wiring.Proofs.Sessions

/-!
# Which nodes have equal values

A graph has one node per kind and value, except for literals, of which every mention is a node of
its own (`Graph.Distinct`). The labels of blank nodes and lists are numbered by one counter, so none
is generated twice. But a node of one kind may have the value of a node of another kind: named nodes
may be called like a generated label, and a variable like a named node.

What updates and preprocessors keep, the graphs of all sessions have (`Session.graph_of_run`).
-/

namespace Wiring

/-! ## Generated labels -/

/-- The letter in the labels of a kind whose nodes get generated labels. -/
def Kind.letter? : Kind → Option String
  | .blank => some "b"
  | .list => some "l"
  | _ => none

namespace Graph

/-- A generated label. -/
def label (letter : String) (number : Nat) : String := s!"_:{letter}{number}"

/-- Labels with different numbers are different. -/
theorem label_inj {letter : String} {m n : Nat} (h : label letter m = label letter n) : m = n := by
  have hnumber : Nat.repr m = Nat.repr n := (String.append_right_inj _).mp h
  have hdigits : Nat.toDigits 10 m = Nat.toDigits 10 n := String.ofList_inj.mp hnumber
  have hvalue := congrArg (Nat.ofDigitChars 10 · 0) hdigits
  simpa using hvalue

/-! ## One node per kind and value -/

/-- Nodes of one kind have different values, unless they are literals; and generated labels have
numbers up to the counter. -/
structure Distinct (g : Graph) : Prop where
  unique : ∀ {x y t u}, g.term? x = some t → g.term? y = some u → t.kind = u.kind →
    t.kind ≠ .literal → t.value = u.value → x = y
  labelled : ∀ {x t letter}, g.term? x = some t → t.kind.letter? = some letter →
    ∃ number ≤ g.labels, t.value = label letter number

theorem distinct_empty : Distinct {} where
  unique h := nomatch h
  labelled h := nomatch h

variable {g g' : Graph}

namespace Distinct

/-- Links do not matter, and the counter may go on. -/
theorem congr (h : g.Distinct) (hterm : ∀ x, g'.term? x = g.term? x)
    (hlabels : g.labels ≤ g'.labels) : g'.Distinct where
  unique {x y t u} ht hu := by
    rw [hterm] at ht hu
    exact h.unique ht hu
  labelled {x t letter} ht hletter := by
    rw [hterm] at ht
    obtain ⟨number, hnumber, hvalue⟩ := h.labelled ht hletter
    exact ⟨number, Nat.le_trans hnumber hlabels, hvalue⟩

/-- A node may be added if it is a literal, or no node of its kind has its value. -/
theorem push (h : g.Distinct) {t : Term}
    (hnew : t.kind = .literal ∨ ∀ {x u}, g.term? x = some u → u.kind = t.kind → u.value ≠ t.value)
    (hlabel : ∀ {letter}, t.kind.letter? = some letter →
      ∃ number ≤ g.labels, t.value = label letter number) : (g.push t).2.Distinct where
  unique {x y u v} hu hv hkind hliteral hvalue := by
    rw [term?_push] at hu hv
    split at hu <;> split at hv
    · rename_i hx hy
      exact hx.trans hy.symm
    · cases hu
      exact absurd hvalue.symm (hnew.resolve_left hliteral hv hkind.symm)
    · cases hv
      exact absurd hvalue (hnew.resolve_left (hkind ▸ hliteral) hu hkind)
    · exact h.unique hu hv hkind hliteral hvalue
  labelled {x u letter} hu hletter := by
    rw [term?_push] at hu
    split at hu
    · cases hu
      exact hlabel hletter
    · exact h.labelled hu hletter

/-- The next label is new. -/
theorem pushLabelled (h : g.Distinct) {kind : Kind} {letter : String}
    (hletter : kind.letter? = some letter) : (g.pushLabelled kind letter).2.Distinct := by
  have hcount : Distinct { g with labels := g.labels + 1 } :=
    h.congr (fun _ => rfl) (Nat.le_succ _)
  refine hcount.push (.inr fun {x u} hu hkind hvalue => ?_) fun {other} hother => ?_
  · have hkind : u.kind = kind := hkind
    obtain ⟨number, hnumber, hlabel⟩ := h.labelled hu (hkind ▸ hletter)
    have hlabel : label letter number = label letter (g.labels + 1) := hlabel.symm.trans hvalue
    exact Nat.not_succ_le_self _ (label_inj hlabel ▸ hnumber)
  · obtain rfl : letter = other := Option.some.inj (hletter.symm.trans hother)
    exact ⟨g.labels + 1, Nat.le_refl _, rfl⟩

theorem pushLiteral (h : g.Distinct) (text datatype : String) :
    (g.push (.literal text datatype)).2.Distinct :=
  h.push (.inl rfl) fun hletter => nomatch hletter

theorem link? (h : g.Distinct) {s o : NodeId} {l : Label} (hl : g.link? s l o = some g') :
    g'.Distinct := by
  obtain ⟨-, -, rfl⟩ := link?_eq_some hl
  exact h.congr (fun _ => rfl) (Nat.le_refl _)

theorem link (h : g.Distinct) (s : NodeId) (l : Label) (o : NodeId) : (g.link s l o).Distinct := by
  rw [Graph.link]
  cases hl : g.link? s l o with
  | none => exact h
  | some g' => exact h.link? hl

/-- A node that is looked up before it is created is created once. -/
theorem intern (h : g.Distinct) {kind : Kind} (hkind : kind ≠ .literal)
    (hletter : kind.letter? = none) (value : String) : (g.intern kind value).2.Distinct := by
  rw [Graph.intern]
  cases hfind : g.find? kind value with
  | some id => exact h
  | none =>
    rw [find?, if_neg hkind, Array.findIdx?_eq_none_iff] at hfind
    refine h.push (.inr fun {x u} hu hsame hvalue => ?_) fun hcon => ?_
    · obtain ⟨hx, rfl⟩ := Array.getElem?_eq_some_iff.mp hu
      have := hfind _ (Array.getElem_mem hx)
      exact of_decide_eq_false this ⟨hsame, hvalue⟩
    · rw [hletter] at hcon
      cases hcon

/-- Updates keep nodes distinct. -/
theorem apply (h : g.Distinct) (u : Update) : (g.apply u).2.Distinct := by
  refine apply_keeps ?_ ?_ ?_ ?_ ?_ h u
  · rintro g kind (rfl | rfl) hg value
    · exact hg.intern (by decide) rfl value
    · exact hg.intern (by decide) rfl value
  · intro g hg
    exact hg.pushLabelled rfl
  · intro g hg
    exact hg.pushLabelled rfl
  · intro g hg text datatype
    exact hg.pushLiteral text datatype
  · intro g g' s l o hl hg
    exact hg.link? hl

theorem copyProperties (h : g.Distinct) (source : NodeId) (p : String) (receiver : NodeId) :
    (g.copyProperties source p receiver).Distinct := by
  rw [Graph.copyProperties]
  generalize g.properties source p = targets
  induction targets generalizing g with
  | nil => exact h
  | cons target rest ih => exact ih (h.link receiver (.property p) target)

/-- Preprocessors keep nodes distinct. -/
theorem rawConfig (h : g.Distinct) (ps : List Preprocessor) (config : NodeId) :
    (Wiring.rawConfig ps g config).2.Distinct := by
  rcases rawConfig_cases ps g config with hsame | ⟨name, hexpand⟩
  · rw [hsame]
    exact h
  · rw [hexpand, Preprocessor.expand]
    have hblank : g.pushBlank.2.Distinct := h.pushLabelled rfl
    have hcopy : ∀ (g : Graph) (receiver : NodeId) (shared : List String), g.Distinct →
        (shared.foldl (fun g p => g.copyProperties config p receiver) g).Distinct := by
      intro g receiver shared hg
      induction shared generalizing g with
      | nil => exact hg
      | cons p rest ih => exact ih _ (hg.copyProperties config p receiver)
    refine hcopy _ _ _ ?_
    cases name with
    | none => exact hblank
    | some name => exact (hblank.pushLiteral name _).link _ _ _

end Distinct

/-- **Different nodes with one value** are of different kinds, or literals. -/
theorem Distinct.kinds (h : g.Distinct) {x y : NodeId} {value : String}
    (hx : g.value? x = some value) (hy : g.value? y = some value) (hne : x ≠ y) :
    g.kind? x ≠ g.kind? y ∨ g.kind? x = some .literal := by
  obtain ⟨t, ht, hxv⟩ := Option.map_eq_some_iff.mp hx
  obtain ⟨u, hu, hyv⟩ := Option.map_eq_some_iff.mp hy
  rw [kind?, kind?, ht, hu]
  by_cases hliteral : t.kind = .literal
  · exact .inr (congrArg some hliteral)
  · exact .inl fun hkind =>
      hne (h.unique ht hu (Option.some.inj hkind) hliteral (hxv.trans hyv.symm))

end Graph

/-! ## Graphs of sessions -/

/-- Work keeps what preprocessors keep of graphs. -/
def Terms.keeping (K : Graph → Prop) : Terms where
  inv _ := True
  change w w' := K w.store.graph → K w'.store.graph
  admits _ _ := True
  asks _ _ := True
  answer _ _ _ := True
  result _ _ := True
  waits _ _ := True

section Keeping

variable {K : Graph → Prop}

theorem lax_keeping : (Terms.keeping K).Lax where
  bench _ hg := ⟨fun hK => hg ▸ hK, trivial⟩
  result _ _ := trivial

theorem grants_keeping {o : Factory} {settings : Settings} (d : NodeId) :
    (Terms.keeping K).Grants o settings d fun _ => True where
  direct _ _ := trivial
  start _ _ := trivial
  share _ _ _ _ _ _ := trivial

variable (hraw : ∀ {g}, K g → ∀ ps config, K (rawConfig ps g config).2)
include hraw

theorem suit_keeping (o : Factory) : (Terms.keeping K).Suit o where
  refl _ := id
  trans h₁ h₂ := h₂ ∘ h₁
  inv _ _ := trivial
  admits _ _ := trivial
  grow {w e graph raw} _ _ hform hK := by
    have h := hraw hK o.preprocessors e.config
    rw [hform] at h
    exact h
  unprepared _ _ _ := trivial
  build {w e graph raw} _ _ _ := by
    have h : (Terms.keeping K).inv { w with store := { w.store with graph } } := trivial
    cases o.strategy with
    | describe =>
      exact lax_keeping.fulfils (Describe.steady_build lax_keeping (fun _ => trivial) raw) h
    | counting suspends =>
      exact lax_keeping.fulfils
        (Counting.steady_build lax_keeping (fun _ _ _ _ => trivial) suspends) h
  direct _ _ _ _ := trivial
  start _ _ _ _ := trivial
  share _ _ _ _ _ _ := ⟨trivial, fun _ _ => trivial⟩

namespace Session

/-- The pools of all sessions are on these terms. -/
theorem invariant_keeping :
    Invariant (fun _ => True) fun g p => (p.floor { graph := g }).On (.keeping K) where
  new _ _ _ := ⟨Registry.orderly_empty, trivial, fun _ _ h => nomatch h⟩
  extend h _ := ⟨h.orderly, trivial, h.registry⟩
  join {p store settings configs joined floor} _ h _ hj := by
    have hf : (p.floor store).On (.keeping K) := ⟨h.orderly, trivial, h.registry⟩
    obtain ⟨hf', -⟩ := (Factory.concludes_of_join hj).on (suit_keeping hraw p.factory) hf
      fun d _ => grants_keeping d
    exact ⟨hf'.orderly, trivial, hf'.registry⟩

variable (hupdate : ∀ {g}, K g → ∀ u : Update, K (g.apply u).2) {s s' : Session}
include hupdate

/-- A command keeps what updates and preprocessors keep. -/
theorem step_keeps {c : Command} {answer : Answer} (h : s.step c = some (answer, s'))
    (hs : ∀ {i : Nat} {p : Pool}, s.pools[i]? = some p →
      (p.floor { graph := s.store.graph }).On (.keeping K)) (hK : K s.store.graph) :
    K s'.store.graph := by
  cases c with
  | update u =>
    cases h
    exact hupdate hK u
  | check value source =>
    obtain ⟨r, -, h⟩ := Option.bind_eq_some_iff.mp h
    cases r <;> (cases h; exact hK)
  | capture value source =>
    obtain ⟨r, -, h⟩ := Option.bind_eq_some_iff.mp h
    cases r <;> (cases h; exact hK)
  | openPool factory failures =>
    cases h
    exact hK
  | join i settings configs =>
    have h : s.work i (·.join settings configs) .joined = some (answer, s') := h
    rcases work_eq_some h with ⟨-, -, rfl⟩ | ⟨p, joined, floor, hp, hjob, -, rfl⟩
    · exact hK
    · have hf : (p.floor s.store).On (.keeping K) := ⟨(hs hp).orderly, trivial, (hs hp).registry⟩
      obtain ⟨-, -, hchange, -⟩ := (Factory.concludes_of_join hjob).on (suit_keeping hraw p.factory)
        hf fun d _ => grants_keeping d
      exact hchange hK
  | prepare i config =>
    have h : s.work i (·.prepare config) .prepared = some (answer, s') := h
    rcases work_eq_some h with ⟨-, -, rfl⟩ | ⟨p, raw, floor, -, hjob, -, rfl⟩
    · exact hK
    · rw [Factory.prepare_run] at hjob
      cases hjob
      exact hraw hK p.factory.preprocessors config

/-- A run keeps what updates and preprocessors keep. -/
theorem run_keeps {s₀ : Session} {cs : List Command} {answers : List Answer}
    (h : s₀.run cs = some (answers, s)) (hrest : s₀.AtRest) (hK : K s₀.store.graph)
    (hs : ∀ {i : Nat} {p : Pool}, s₀.pools[i]? = some p →
      (p.floor { graph := s₀.store.graph }).On (.keeping K)) : K s.store.graph := by
  induction cs generalizing s₀ answers with
  | nil =>
    cases h
    exact hK
  | cons c cs ih =>
    obtain ⟨⟨a, s₁⟩, hstep, h⟩ := Option.bind_eq_some_iff.mp h
    obtain ⟨⟨as, s₂⟩, hrun, h⟩ := Option.bind_eq_some_iff.mp h
    cases h
    obtain ⟨hrest₁, hs₁⟩ := (invariant_keeping hraw).moves (moves_of_step hstep)
      (fun _ _ => trivial) hrest hs
    exact ih hrun hrest₁ (step_keeps hraw hupdate hstep hs hK) hs₁

/-- **The graphs of all sessions** have what an empty graph has and updates and preprocessors keep. -/
theorem graph_of_run (hempty : K {}) {cs : List Command} {answers : List Answer}
    (h : Session.run {} cs = some (answers, s)) : K s.store.graph :=
  run_keeps hraw hupdate h atRest_empty hempty fun hp => by simp at hp

/-- The graphs of all later sessions have what the graph of a session has and updates and
preprocessors keep. -/
theorem graph_of_later {cs ds : List Command} {answers answers' : List Answer}
    (h : Session.run {} cs = some (answers, s)) (hlater : s.run ds = some (answers', s'))
    (hK : K s.store.graph) : K s'.store.graph := by
  obtain ⟨hrest, hs⟩ := (invariant_keeping (K := K) hraw).run h fun _ _ => trivial
  exact run_keeps hraw hupdate hlater hrest hK hs

end Session

end Keeping

/-- Nodes are distinct in all sessions. -/
theorem Session.distinct_of_run {cs : List Command} {answers : List Answer} {s : Session}
    (h : Session.run {} cs = some (answers, s)) : s.store.graph.Distinct :=
  graph_of_run (fun hg => hg.rawConfig) (fun hg => hg.apply) Graph.distinct_empty h

end Wiring

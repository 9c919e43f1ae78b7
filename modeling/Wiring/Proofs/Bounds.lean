import Wiring.Factory.Counting
import Wiring.Proofs.Growth

/-!
# How often a build stops

A config depends on as many configs as it has links to them, and finding a raw config makes nothing
worse: a new raw config takes over the dependencies of the config that it comes from
(`Graph.Bounded`). So the number of stops of a build with a numbered instance has a bound
(`Counting.stops_build`).
-/

namespace Wiring

namespace Graph

/-- All nodes depend on a limited number of nodes, which are below a certain number. -/
structure Bounded (size degree : Nat) (g : Graph) : Prop where
  closed : g.Closed
  target_lt : ∀ id, ∀ target ∈ g.properties id Dependency.dep, target < size
  length_le : ∀ id, (g.properties id Dependency.dep).length ≤ degree

variable {g g' : Graph} {size degree : Nat}

/-- A closed graph has such bounds. -/
theorem Closed.bounded (h : g.Closed) : g.Bounded g.size g.links.size where
  closed := h
  target_lt _ _ ht := h.target_lt ht
  length_le id := by
    rw [properties, List.length_map]
    exact Nat.le_trans (List.length_filter_le _ _) (Nat.le_of_eq Array.length_toList)

/-! ## Raw configs -/

/-- A link adds a value to one predicate of one node, if its ends exist. -/
theorem properties_link (g : Graph) (s : NodeId) (l : Label) (o id : NodeId) (p : String) :
    ∃ ts, ts.Sublist [o] ∧ (g.link s l o).properties id p =
      g.properties id p ++ if s = id ∧ l = .property p then ts else [] := by
  rw [link]
  cases hl : g.link? s l o with
  | none => exact ⟨[], List.nil_sublist _, by simp⟩
  | some g' => exact ⟨[o], List.Sublist.refl _, properties_link? hl id p⟩

/-- Copied properties come last among those of the receiver. -/
theorem properties_copyProperties (g : Graph) (source : NodeId) (p : String)
    (receiver id : NodeId) (q : String) :
    ∃ ts, ts.Sublist (g.properties source p) ∧ (g.copyProperties source p receiver).properties id q =
      g.properties id q ++ if receiver = id ∧ p = q then ts else [] := by
  rw [copyProperties]
  generalize g.properties source p = targets
  induction targets generalizing g with
  | nil => exact ⟨[], List.Sublist.refl _, by simp⟩
  | cons target rest ih =>
    obtain ⟨ts, hts, hlink⟩ := properties_link g receiver (.property p) target id q
    obtain ⟨us, hus, hrest⟩ := ih (g.link receiver (.property p) target)
    refine ⟨ts ++ us, hts.append hus, ?_⟩
    rw [List.foldl_cons, hrest, hlink]
    by_cases h : receiver = id ∧ p = q
    · simp [h]
    · have h' : ¬ (receiver = id ∧ Label.property p = .property q) := by simpa using h
      rw [if_neg h, if_neg h, if_neg h', List.append_nil]

/-- Copying another predicate leaves the dependencies alone. -/
theorem properties_copyProperties_of_ne (g : Graph) (source : NodeId) {p q : String} (hpq : p ≠ q)
    (receiver id : NodeId) :
    (g.copyProperties source p receiver).properties id q = g.properties id q := by
  obtain ⟨ts, -, h⟩ := properties_copyProperties g source p receiver id q
  rw [h, if_neg fun hcon => hpq hcon.2, List.append_nil]

/-- Of the shared properties that are copied, only the dependencies are dependencies. -/
theorem properties_copyShared {named : Graph}
    (hnew : ∀ node, named.properties node Dependency.dep = g.properties node Dependency.dep)
    (source receiver id : NodeId) :
    ∃ ts, ts.Sublist (g.properties source Dependency.dep) ∧
      (Preprocessor.shared.foldl (fun g p => g.copyProperties source p receiver) named).properties id
          Dependency.dep =
        g.properties id Dependency.dep ++ if receiver = id then ts else [] := by
  unfold Preprocessor.shared
  simp only [List.foldl_cons, List.foldl_nil]
  rw [properties_copyProperties_of_ne _ _ (by decide), properties_copyProperties_of_ne _ _ (by decide)]
  obtain ⟨ts, hts, h⟩ :=
    properties_copyProperties named source Dependency.dep receiver id Dependency.dep
  rw [hnew source] at hts
  rw [hnew id] at h
  exact ⟨ts, hts, by simpa using h⟩

/-- An expanded config hands its dependencies to its raw config. -/
theorem properties_expand (g : Graph) (config : NodeId) (name : Option String) (id : NodeId) :
    ∃ ts, ts.Sublist (g.properties config Dependency.dep) ∧
      (Preprocessor.expand g config name).2.properties id Dependency.dep =
        g.properties id Dependency.dep ++ if g.size = id then ts else [] := by
  unfold Preprocessor.expand
  refine properties_copyShared ?_ config g.pushBlank.1 id
  -- the node and its name have no dependencies yet
  intro node
  cases name with
  | none => rfl
  | some name =>
    obtain ⟨ts, -, h⟩ := properties_link (g.pushBlank.2.pushLiteral name).2 g.pushBlank.1
      (.property Components.requireName) (g.pushBlank.2.pushLiteral name).1 node Dependency.dep
    have hne : Label.property Components.requireName ≠ .property Dependency.dep := by decide
    exact h.trans (by rw [if_neg fun hcon => hne hcon.2, List.append_nil]; rfl)

theorem Bounded.expand (h : g.Bounded size degree) (config : NodeId) (name : Option String) :
    (Preprocessor.expand g config name).2.Bounded size degree := by
  have hprops : ∀ id, ∃ source,
      ((Preprocessor.expand g config name).2.properties id Dependency.dep).Sublist
        (g.properties source Dependency.dep) := by
    intro id
    obtain ⟨ts, hts, hid⟩ := properties_expand g config name id
    by_cases hsize : g.size = id
    · refine ⟨config, ?_⟩
      rw [hid, if_pos hsize, h.closed.properties_eq_nil (Nat.le_of_eq hsize), List.nil_append]
      exact hts
    · rw [if_neg hsize, List.append_nil] at hid
      exact ⟨id, hid ▸ List.Sublist.refl _⟩
  refine ⟨(grows_expand g config name).closed h.closed, ?_, ?_⟩
  · intro id target ht
    obtain ⟨source, hsub⟩ := hprops id
    exact h.target_lt source target (hsub.subset ht)
  · intro id
    obtain ⟨source, hsub⟩ := hprops id
    exact Nat.le_trans hsub.length_le (h.length_le source)

/-- Finding the raw form of a config keeps the bounds. -/
theorem Bounded.rawConfig (h : g.Bounded size degree) (ps : List Preprocessor) (config : NodeId) :
    (rawConfig ps g config).2.Bounded size degree := by
  rcases rawConfig_cases ps g config with hsame | ⟨name, hexpand⟩
  · rw [hsame]
    exact h
  · rw [hexpand]
    exact h.expand config name

end Graph

/-! ## Stops of a build -/

namespace Build

variable {size degree : Nat}

/-- A plan ends after a limited number of stops, whatever it is answered, and asks for nodes below a
certain number only. -/
def Stops (size degree : Nat) : Build Json → Nat → Workbench → Prop
  | .done _, _, _ => True
  | .fail _, _, _ => True
  | .endless, _, _ => False
  | .suspend next, k, _ =>
    ∃ j < k, ∀ w : Workbench, w.store.graph.Bounded size degree → next.Stops size degree j w
  | .request d next, k, _ => d < size ∧
    ∃ j < k, ∀ v, ∀ w : Workbench, w.store.graph.Bounded size degree → (next v).Stops size degree j w
  | .read next, k, w => (next w).Stops size degree k w
  | .write w' next, k, w => w'.store.graph = w.store.graph ∧ next.Stops size degree k w'

theorem stops_mono {b : Build Json} {j k : Nat} {w : Workbench} (h : b.Stops size degree j w)
    (hjk : j ≤ k) : b.Stops size degree k w := by
  induction b generalizing w with
  | done v => trivial
  | fail e => trivial
  | endless => exact h
  | suspend next =>
    obtain ⟨i, hi, hnext⟩ := h
    exact ⟨i, Nat.lt_of_lt_of_le hi hjk, hnext⟩
  | request d next =>
    obtain ⟨hd, i, hi, hnext⟩ := h
    exact ⟨hd, i, Nat.lt_of_lt_of_le hi hjk, hnext⟩
  | read next ih => exact ih w h
  | write w' next ih => exact ⟨h.1, ih h.2⟩

theorem stops_each_ask {f : List Json → Json} {ds : List NodeId} (hds : ∀ d ∈ ds, d < size)
    {k : Nat} (hk : ds.length ≤ k) (w : Workbench) :
    (each ask ds >>= fun vs => .done (f vs)).Stops size degree k w := by
  induction ds generalizing f k w with
  | nil => trivial
  | cons d ds ih =>
    rw [each_ask_cons]
    rw [List.length_cons] at hk
    refine ⟨hds d List.mem_cons_self, ds.length, by omega, ?_⟩
    intro v w _
    exact ih (f := fun vs => f (v :: vs)) (fun d hd => hds d (List.mem_cons_of_mem _ hd))
      (Nat.le_refl _) w

end Build

namespace Counting

open Build

variable {size degree : Nat}

theorem stops_assemble (number : Nat) (raw : NodeId) {w : Workbench}
    (hw : w.store.graph.Bounded size degree) :
    (assemble number raw).Stops size degree degree w := by
  have hdeps : ∀ key w', (each ask (w.store.graph.properties raw Dependency.dep) >>=
      fun deps => .done (inst number key deps)).Stops size degree degree w' :=
    fun key => stops_each_ask (f := inst number key) (hw.target_lt raw) (hw.length_le raw)
  show Stops size degree (if _ then _ else _) degree w
  split
  · show Stops size degree (stumble _ >>= _) degree w
    rw [stumble_bind]
    show Stops size degree (if _ then _ else _) degree w
    split
    · exact ⟨rfl, trivial⟩
    · exact hdeps _ w
  · exact hdeps _ w

/-- A build stops once for its pause and once for each dependency. -/
theorem stops_build (suspends : Bool) (raw : NodeId) {w : Workbench}
    (hw : w.store.graph.Bounded size degree) :
    (Counting.build suspends raw).Stops size degree (degree + 1) w := by
  refine ⟨rfl, ?_⟩
  cases suspends with
  | true => exact ⟨degree, Nat.lt_succ_self _, fun w hw => stops_assemble _ raw hw⟩
  | false => exact stops_mono (stops_assemble _ raw hw) (Nat.le_succ degree)

end Counting

end Wiring

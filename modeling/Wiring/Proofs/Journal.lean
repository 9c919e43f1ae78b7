import Mathlib.Tactic.ByContra
import Wiring.Factory.Registry

/-!
# Journals

What the journal of a registry may say. An event is *permitted* by what happened before it:

- a construction of a key starts when every earlier construction of the key has failed;
- a construction ends once, after its start;
- a result is handed over when it is there, and unchanged.

A journal is *lawful* if each of its events was permitted when it happened (`Lawful`). From this
alone it follows that a key never has two constructions in flight (`Lawful.apart`), that at most
one construction of a key succeeds (`Lawful.success`), and that all who receive an instance of a
key receive the same one (`Lawful.shared`).
-/

namespace Wiring

/-- What happened to the constructions of a pool, in order. -/
abbrev Journal := List Event

namespace Journal

/-- Whether an event may happen after a journal. -/
def Permits (before : Journal) : Event → Prop
  | .started n key => (∀ k, .started n k ∉ before) ∧
      ∀ m, .started m key ∈ before → ∃ e, .ended m (.error e) ∈ before
  | .ended n _ => (∃ key, .started n key ∈ before) ∧ ∀ result, .ended n result ∉ before
  | .received _ n result => .ended n result ∈ before

/-- Each event was permitted by what happened before it. -/
def Lawful (j : Journal) : Prop :=
  ∀ before e after, j = before ++ e :: after → Permits before e

/-- A construction has been started and has not ended. -/
def InFlight (j : Journal) (n : Nat) : Prop :=
  (∃ key, .started n key ∈ j) ∧ ∀ result, .ended n result ∉ j

/-! ## Lawful journals grow event by event -/

/-- An event of a longer journal is its last one, or an event of the journal before. -/
theorem concat_split {j before after : Journal} {last e : Event}
    (h : j ++ [last] = before ++ e :: after) :
    (e = last ∧ before = j) ∨ ∃ rest, j = before ++ e :: rest := by
  rcases List.eq_nil_or_concat after with rfl | ⟨rest, x, rfl⟩
  · obtain ⟨rfl, hlast⟩ := List.append_inj' h rfl
    exact .inl ⟨(List.singleton_inj.mp hlast).symm, rfl⟩
  · rw [List.concat_eq_append, ← List.cons_append, ← List.append_assoc] at h
    exact .inr ⟨rest, (List.append_inj' h rfl).1⟩

theorem lawful_nil : Lawful [] := by
  intro before e after h
  simp at h

theorem Lawful.concat {j : Journal} {e : Event} (hj : Lawful j) (he : Permits j e) :
    Lawful (j ++ [e]) := by
  intro before x after h
  rcases concat_split h with ⟨rfl, rfl⟩ | ⟨rest, hrest⟩
  · exact he
  · exact hj before x rest hrest

/-- What a lawful journal began with is lawful. -/
theorem Lawful.left {j k : Journal} (h : Lawful (j ++ k)) : Lawful j := by
  rintro before e after rfl
  exact h before e (after ++ k) (by simp)

/-! ## What a lawful journal tells -/

variable {j : Journal}

/-- Of two events one happened first. -/
theorem split_of_ne {x y : Event} (hx : x ∈ j) (hy : y ∈ j) (hne : x ≠ y) :
    (∃ before after, j = before ++ y :: after ∧ x ∈ before) ∨
      ∃ before after, j = before ++ x :: after ∧ y ∈ before := by
  obtain ⟨before, after, rfl⟩ := List.append_of_mem hy
  rcases List.mem_append.mp hx with hx | hx
  · exact .inl ⟨before, after, rfl, hx⟩
  · have hx : x ∈ after := (List.mem_cons.mp hx).resolve_left hne
    obtain ⟨between, rest, rfl⟩ := List.append_of_mem hx
    exact .inr ⟨before ++ y :: between, rest, by simp, by simp⟩

/-- A construction ends with one result. -/
theorem Lawful.ended_unique (hj : Lawful j) {n : Nat} {r s : Except BuildError Json}
    (hr : .ended n r ∈ j) (hs : .ended n s ∈ j) : r = s := by
  by_contra hne
  have hne : Event.ended n r ≠ .ended n s := fun h => hne (Event.ended.inj h).2
  rcases split_of_ne hr hs hne with ⟨before, after, heq, hmem⟩ | ⟨before, after, heq, hmem⟩
  · exact (hj before _ after heq).2 r hmem
  · exact (hj before _ after heq).2 s hmem

/-- Of two constructions of a key one had failed before the other was started. -/
theorem Lawful.failed_of_ne (hj : Lawful j) {m n : Nat} {key : String}
    (hm : .started m key ∈ j) (hn : .started n key ∈ j) (hne : m ≠ n) :
    (∃ e, .ended m (.error e) ∈ j) ∨ ∃ e, .ended n (.error e) ∈ j := by
  have hne : Event.started m key ≠ .started n key := fun h => hne (Event.started.inj h).1
  rcases split_of_ne hm hn hne with ⟨before, after, rfl, hmem⟩ | ⟨before, after, rfl, hmem⟩
  · obtain ⟨e, he⟩ := (hj before _ after rfl).2 m hmem
    exact .inl ⟨e, List.mem_append_left _ he⟩
  · obtain ⟨e, he⟩ := (hj before _ after rfl).2 n hmem
    exact .inr ⟨e, List.mem_append_left _ he⟩

/-- Two constructions of a key are never in flight together. -/
theorem Lawful.apart (hj : Lawful j) {m n : Nat} {key : String} (hm : .started m key ∈ j)
    (hn : .started n key ∈ j) (hfm : InFlight j m) (hfn : InFlight j n) : m = n := by
  by_contra hne
  rcases hj.failed_of_ne hm hn hne with ⟨e, he⟩ | ⟨e, he⟩
  · exact hfm.2 _ he
  · exact hfn.2 _ he

/-- At most one construction of a key succeeds. -/
theorem Lawful.success (hj : Lawful j) {m n : Nat} {key : String} {v w : Json}
    (hm : .started m key ∈ j) (hn : .started n key ∈ j)
    (hv : .ended m (.ok v) ∈ j) (hw : .ended n (.ok w) ∈ j) : m = n ∧ v = w := by
  have hmn : m = n := by
    by_contra hne
    rcases hj.failed_of_ne hm hn hne with ⟨e, he⟩ | ⟨e, he⟩
    · cases hj.ended_unique he hv
    · cases hj.ended_unique he hw
  subst hmn
  exact ⟨rfl, Except.ok.inj (hj.ended_unique hv hw)⟩

/-- What is received was there before. -/
theorem Lawful.ended_of_received (hj : Lawful j) {waiter : Option Nat} {n : Nat}
    {r : Except BuildError Json} (h : .received waiter n r ∈ j) : .ended n r ∈ j := by
  obtain ⟨before, after, rfl⟩ := List.append_of_mem h
  exact List.mem_append_left _ (hj before _ after rfl)

/-- All instances of a key that are received are one instance of one construction. -/
theorem Lawful.shared (hj : Lawful j) {m n : Nat} {key : String} {v w : Json}
    {waiter other : Option Nat} (hm : .started m key ∈ j) (hn : .started n key ∈ j)
    (hv : .received waiter m (.ok v) ∈ j) (hw : .received other n (.ok w) ∈ j) :
    m = n ∧ v = w :=
  hj.success hm hn (hj.ended_of_received hv) (hj.ended_of_received hw)

/-- Whoever waits for a construction that fails receives its error. -/
theorem Lawful.received_error (hj : Lawful j) {waiter : Option Nat} {n : Nat} {e : BuildError}
    {r : Except BuildError Json} (he : .ended n (.error e) ∈ j)
    (hr : .received waiter n r ∈ j) : r = .error e :=
  hj.ended_unique (hj.ended_of_received hr) he

end Journal

end Wiring

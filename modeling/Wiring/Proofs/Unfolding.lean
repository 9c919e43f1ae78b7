import Mathlib.Data.List.Forall2
import Wiring.Factory.RawConfig
import Wiring.Factory.Strategy
import Wiring.Proofs.Runs

/-!
# Instances by plain recursion

What a pool with numbered instances stands for, without pools: a config is unfolded into the
unfoldings of its dependencies (`unfoldWithin`), each time anew, under settings that stay the same.
The unfolding has no numbers, so it is compared to instances from which the numbers are erased
(`Counting.erase`).

Limits only tell apart unfoldings that end from those that do not: `Unfolds` is the outcome within
some limit, and there is one at most (`Unfolds.unique`).
-/

namespace Wiring

namespace Counting

mutual

/-- An instance without the numbers of builds. -/
def erase : Json → Json
  | .obj [("build", .int _), ("deps", .arr deps), ("id", .str key)] =>
    .obj [("deps", .arr (eraseEach deps)), ("id", .str key)]
  | j => j

/-- Instances without the numbers of builds. -/
def eraseEach : List Json → List Json
  | [] => []
  | j :: rest => erase j :: eraseEach rest

end

theorem eraseEach_eq_map (js : List Json) : eraseEach js = js.map erase := by
  induction js with
  | nil => rfl
  | cons j rest ih => rw [eraseEach, ih, List.map_cons]

theorem erase_inst (number : Nat) (key : String) (deps : List Json) :
    erase (inst number key deps) = .obj [("deps", .arr (deps.map erase)), ("id", .str key)] := by
  rw [← eraseEach_eq_map]
  rfl

end Counting

/-- The instance of a config without numbers, through at most so many nested configs. -/
def unfoldWithin (g : Graph) (settings : Settings) :
    (limit : Nat) → NodeId → ExceptT BuildError Option Json
  | 0, _ => none
  | limit + 1, config =>
    match g.value? config with
    | none => throw (.unknownNode config)
    | some key =>
      if settings.isInProgress key then pure (Strategy.undefined (.counting false))
      else if g.isVariable config then
        ofExcept (Strategy.variableValue (.counting false) settings key)
      else do
        ofExcept (g.validate config)
        let deps ← (g.properties config Dependency.dep).mapM (unfoldWithin g settings limit)
        pure (.obj [("deps", .arr deps), ("id", .str key)])

/-- The instance of a config without numbers, or the error on the way to it. -/
def Unfolds (g : Graph) (settings : Settings) (config : NodeId) (result : Except BuildError Json) :
    Prop :=
  ∃ limit, (unfoldWithin g settings limit config).run = some result

variable {g : Graph} {settings : Settings} {config : NodeId} {key : String}

/-! ## Limits -/

/-- If members of a list have the same outcome under another function, so has the list. -/
theorem mapM_run_mono {ε α β : Type} {f f' : α → ExceptT ε Option β}
    (hf : ∀ d r, (f d).run = some r → (f' d).run = some r) {ds : List α}
    {r : Except ε (List β)} (h : (ds.mapM f).run = some r) :
    (ds.mapM f').run = some r := by
  induction ds generalizing r with
  | nil => exact h
  | cons d ds ih =>
    rw [List.mapM_cons, ExceptT.run_bind] at h ⊢
    obtain ⟨head, hhead, h⟩ := Option.bind_eq_some_iff.mp h
    refine Option.bind_eq_some_iff.mpr ⟨head, hf d head hhead, ?_⟩
    cases head with
    | error x => exact h
    | ok v =>
      dsimp only at h ⊢
      rw [ExceptT.run_bind] at h ⊢
      obtain ⟨tail, htail, h⟩ := Option.bind_eq_some_iff.mp h
      exact Option.bind_eq_some_iff.mpr ⟨tail, ih htail, h⟩

/-- A higher limit makes no difference. -/
theorem unfoldWithin_mono {limit limit' : Nat} (hle : limit ≤ limit')
    {r : Except BuildError Json} (h : (unfoldWithin g settings limit config).run = some r) :
    (unfoldWithin g settings limit' config).run = some r := by
  induction limit generalizing limit' config r with
  | zero => cases h
  | succ limit ih =>
    obtain ⟨limit', rfl⟩ : ∃ k, limit' = k + 1 := ⟨limit' - 1, by omega⟩
    have hle : limit ≤ limit' := Nat.le_of_succ_le_succ hle
    rw [unfoldWithin] at h ⊢
    split at h
    · exact h
    · split at h
      · rename_i hp
        rwa [if_pos hp]
      · rename_i hp
        rw [if_neg hp]
        split at h
        · rename_i hv
          rwa [if_pos hv]
        · rename_i hv
          rw [if_neg hv]
          rw [ExceptT.run_bind] at h ⊢
          obtain ⟨valid, hvalid, h⟩ := Option.bind_eq_some_iff.mp h
          refine Option.bind_eq_some_iff.mpr ⟨valid, hvalid, ?_⟩
          cases valid with
          | error x => exact h
          | ok u =>
            -- only here the limit matters
            dsimp only at h ⊢
            rw [ExceptT.run_bind] at h ⊢
            obtain ⟨deps, hdeps, h⟩ := Option.bind_eq_some_iff.mp h
            exact Option.bind_eq_some_iff.mpr
              ⟨deps, mapM_run_mono (fun d r hd => ih hle hd) hdeps, h⟩

/-- An unfolding has one outcome. -/
theorem Unfolds.unique {r r' : Except BuildError Json} (h : Unfolds g settings config r)
    (h' : Unfolds g settings config r') : r = r' := by
  obtain ⟨limit, h⟩ := h
  obtain ⟨limit', h'⟩ := h'
  have hmax := unfoldWithin_mono (Nat.le_max_left limit limit') h
  rw [unfoldWithin_mono (Nat.le_max_right limit limit') h'] at hmax
  exact (Option.some.inj hmax).symm

/-! ## Outcomes -/

theorem unfolds_missing (h : g.value? config = none) :
    Unfolds g settings config (.error (.unknownNode config)) := by
  refine ⟨1, ?_⟩
  rw [unfoldWithin, h]
  rfl

theorem unfolds_inProgress (h : g.value? config = some key)
    (hp : settings.isInProgress key = true) :
    Unfolds g settings config (.ok (Strategy.undefined (.counting false))) := by
  refine ⟨1, ?_⟩
  rw [unfoldWithin, h]
  dsimp only
  rw [if_pos hp]
  rfl

theorem unfolds_variable (h : g.value? config = some key)
    (hp : settings.isInProgress key = false) (hv : g.isVariable config = true) :
    Unfolds g settings config (Strategy.variableValue (.counting false) settings key) := by
  refine ⟨1, ?_⟩
  rw [unfoldWithin, h]
  dsimp only
  rw [if_neg (by simp [hp]), if_pos hv]
  cases Strategy.variableValue (.counting false) settings key <;> rfl

/-- A config that is neither in progress nor a variable unfolds as its dependencies say, if it is
valid. -/
theorem unfoldWithin_construct (h : Factory.Constructs g settings config key) (limit : Nat) :
    unfoldWithin g settings (limit + 1) config = (do
      ofExcept (g.validate config)
      let deps ← (g.properties config Dependency.dep).mapM (unfoldWithin g settings limit)
      pure (.obj [("deps", .arr deps), ("id", .str key)])) := by
  rw [unfoldWithin, h.value]
  dsimp only
  rw [if_neg (by simp [h.notInProgress]), if_neg (by simp [h.notVariable])]

theorem unfolds_invalid (h : Factory.Constructs g settings config key) {e : BuildError}
    (hvalid : g.validate config = .error e) : Unfolds g settings config (.error e) := by
  refine ⟨1, ?_⟩
  rw [unfoldWithin_construct h, hvalid]
  rfl

/-- Outcomes of several configs are outcomes within one limit. -/
theorem exists_limit {ds : List NodeId} {vs : List Json}
    (h : List.Forall₂ (fun d v => Unfolds g settings d (.ok v)) ds vs) (rest : List NodeId) :
    ∃ limit, ∀ limit', limit ≤ limit' →
      ((ds ++ rest).mapM (unfoldWithin g settings limit')).run =
        ((rest.mapM (unfoldWithin g settings limit')).run.map (·.map (vs ++ ·))) := by
  induction h with
  | nil =>
    refine ⟨0, ?_⟩
    intro limit' _
    rw [List.nil_append]
    cases (rest.mapM (unfoldWithin g settings limit')).run with
    | none => rfl
    | some r => cases r <;> rfl
  | @cons d v ds vs hd _ ih =>
    obtain ⟨head, hhead⟩ := hd
    obtain ⟨tail, htail⟩ := ih
    -- the larger limit is enough for both
    refine ⟨max head tail, ?_⟩
    intro limit' hle
    have hd' := unfoldWithin_mono (Nat.le_trans (Nat.le_max_left head tail) hle) hhead
    rw [List.cons_append, List.mapM_cons, ExceptT.run_bind, hd']
    show ExceptT.run ((ds ++ rest).mapM (unfoldWithin g settings limit') >>=
      fun us => pure (v :: us)) = _
    rw [ExceptT.run_bind, htail limit' (Nat.le_trans (Nat.le_max_right head tail) hle)]
    cases (rest.mapM (unfoldWithin g settings limit')).run with
    | none => rfl
    | some r => cases r <;> rfl

/-- If all dependencies have instances, so has the config. -/
theorem unfolds_ok (h : Factory.Constructs g settings config key)
    (hvalid : g.validate config = .ok ()) {vs : List Json}
    (hdeps : List.Forall₂ (fun d v => Unfolds g settings d (.ok v))
      (g.properties config Dependency.dep) vs) :
    Unfolds g settings config (.ok (.obj [("deps", .arr vs), ("id", .str key)])) := by
  obtain ⟨limit, hlimit⟩ := exists_limit hdeps []
  have hrun := hlimit limit (Nat.le_refl _)
  rw [List.append_nil] at hrun
  refine ⟨limit + 1, ?_⟩
  rw [unfoldWithin_construct h, hvalid]
  show ExceptT.run (_ >>= fun deps => pure (Json.obj [("deps", .arr deps), ("id", .str key)])) = _
  rw [ExceptT.run_bind, hrun]
  show some (Except.ok (Json.obj [("deps", .arr (vs ++ [])), ("id", .str key)])) = _
  rw [List.append_nil]

/-- The first error among the dependencies is the error of the config. -/
theorem unfolds_error (h : Factory.Constructs g settings config key)
    (hvalid : g.validate config = .ok ()) {before after : List NodeId} {d : NodeId}
    (hsplit : g.properties config Dependency.dep = before ++ d :: after) {vs : List Json}
    (hbefore : List.Forall₂ (fun d v => Unfolds g settings d (.ok v)) before vs) {e : BuildError}
    (hd : Unfolds g settings d (.error e)) : Unfolds g settings config (.error e) := by
  obtain ⟨limit, hlimit⟩ := exists_limit hbefore (d :: after)
  obtain ⟨limit₁, hd⟩ := hd
  have hd' := unfoldWithin_mono (Nat.le_max_right limit limit₁) hd
  have hrun := hlimit _ (Nat.le_max_left limit limit₁)
  rw [List.mapM_cons, ExceptT.run_bind, hd'] at hrun
  refine ⟨max limit limit₁ + 1, ?_⟩
  rw [unfoldWithin_construct h, hvalid, hsplit]
  show ExceptT.run (_ >>= fun deps => pure (Json.obj [("deps", .arr deps), ("id", .str key)])) = _
  rw [ExceptT.run_bind, hrun]
  rfl

end Wiring

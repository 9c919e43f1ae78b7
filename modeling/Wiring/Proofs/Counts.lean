import Mathlib.Data.List.Perm.Basic
import Mathlib.Data.List.Nodup
import Wiring.Proofs.Requests

/-!
# What the counters count

The size of a registry is the number of its constructions that have not failed (`Orderly.size_eq`).
The counter of builds in a pool with numbered instances is the number of constructions whose build
has been called (`Runs.tally`): each call counts itself once, before it stops for the first time,
and never again.
-/

namespace Wiring

namespace Construction

/-- The construction has not failed. -/
def isLive (c : Construction) : Bool := match c.stage with
  | .finished (.error _) => false
  | _ => true

/-- The build of the construction has been called. -/
def isCalled (c : Construction) : Bool := c.raw.isSome

/-- The build of the construction has been called and has returned an instance. -/
def hasReturned (c : Construction) : Bool := match c.stage with
  | .finished (.ok _) => c.isCalled
  | _ => false

/-- The build of the construction has been called and has failed. -/
def hasFailed (c : Construction) : Bool := match c.stage with
  | .finished (.error _) => c.isCalled
  | _ => false

theorem isLive_iff {c : Construction} : c.isLive = true ↔ ¬ c.Failed := by
  unfold isLive Failed
  split
  · rename_i e he
    simp [he]
  · rename_i he
    simpa using he

end Construction

/-! ## Counting entries of an array -/

theorem countP_eq_range {α : Type} (l : List α) (p : α → Bool) :
    l.countP p = (List.range l.length).countP fun n => l[n]?.any p := by
  induction l with
  | nil => rfl
  | cons a l ih =>
    rw [List.length_cons, List.range_succ_eq_map, List.countP_cons, List.countP_cons,
      List.countP_map, ih]
    rfl

/-- Changing one entry changes the count by what it counts itself. -/
theorem countP_modify {α : Type} {xs : Array α} {n : Nat} {a : α} (h : xs[n]? = some a)
    (f : α → α) (p : α → Bool) :
    (xs.modify n f).countP p + (if p a then 1 else 0) = xs.countP p + if p (f a) then 1 else 0 := by
  obtain ⟨hn, rfl⟩ := Array.getElem?_eq_some_iff.mp h
  obtain ⟨before, b, after, hsplit, hlen, hmod⟩ := List.exists_of_modify f (l := xs.toList) hn
  have hb : xs[n] = b := by
    have hget : xs.toList[n]? = some b := by rw [hsplit]; simp [← hlen]
    simpa [hn] using hget
  rw [← Array.countP_toList, ← Array.countP_toList, Array.toList_modify, hmod, hsplit, hb]
  simp only [List.countP_append, List.countP_cons]
  omega

theorem countP_add {α : Type} {p q r : α → Bool} {l : List α}
    (h : ∀ a ∈ l, (if p a then 1 else 0) = (if q a then 1 else 0) + if r a then 1 else 0) :
    l.countP p = l.countP q + l.countP r := by
  induction l with
  | nil => rfl
  | cons a l ih =>
    have ha := h a List.mem_cons_self
    have hl := ih fun b hb => h b (List.mem_cons_of_mem _ hb)
    simp only [List.countP_cons]
    omega

namespace Registry

variable {r : Registry} {n : Nat} {c : Construction}

/-- The current constructions are those that have not failed. -/
theorem Orderly.mem_current (h : r.Orderly) (n : Nat) :
    n ∈ r.current.toList.map (·.2) ↔ ∃ c, r.construction? n = some c ∧ ¬ c.Failed := by
  rw [List.mem_map]
  constructor
  · rintro ⟨⟨key, m⟩, hm, rfl⟩
    obtain ⟨c, hc, -, hf⟩ := (h.current_iff key m).mp
      (Std.ExtTreeMap.mem_toList_iff_getElem?_eq_some.mp hm)
    exact ⟨c, hc, hf⟩
  · rintro ⟨c, hc, hf⟩
    refine ⟨(c.key, n), Std.ExtTreeMap.mem_toList_iff_getElem?_eq_some.mpr ?_, rfl⟩
    exact (h.current_iff c.key n).mpr ⟨c, hc, rfl, hf⟩

/-- A construction is current for one key only. -/
theorem Orderly.nodup_current (h : r.Orderly) : (r.current.toList.map (·.2)).Nodup := by
  have hpairs : r.current.toList.Nodup := by
    refine (Std.ExtTreeMap.distinct_keys_toList (t := r.current)).imp fun {a b} hab heq => ?_
    exact hab (heq ▸ Std.ReflCmp.compare_self)
  refine hpairs.map_on ?_
  intro a ha b hb hab
  obtain ⟨c, hc, hkey, -⟩ := (h.current_iff a.1 a.2).mp
    (Std.ExtTreeMap.mem_toList_iff_getElem?_eq_some.mp ha)
  obtain ⟨d, hd, hkey', -⟩ := (h.current_iff b.1 b.2).mp
    (Std.ExtTreeMap.mem_toList_iff_getElem?_eq_some.mp hb)
  rw [hab] at hc
  obtain rfl : c = d := Option.some.inj (hc.symm.trans hd)
  exact Prod.ext (hkey.symm.trans hkey') hab

/-- The keys with a current construction are as many as the constructions that have not failed. -/
theorem Orderly.size_eq (h : r.Orderly) : r.size = r.history.countP (·.isLive) := by
  let live := (List.range r.history.size).filter fun n => r.history[n]?.any (·.isLive)
  have hmem : ∀ n, n ∈ r.current.toList.map (·.2) ↔ n ∈ live := by
    intro n
    rw [h.mem_current n]
    simp only [live, List.mem_filter, List.mem_range, Option.any_eq_true, Construction.isLive_iff]
    exact ⟨fun ⟨c, hc, hf⟩ => ⟨lt_size hc, c, hc, hf⟩, fun h => h.2⟩
  have hperm := (List.perm_ext_iff_of_nodup h.nodup_current (List.nodup_range.filter _)).mpr hmem
  calc r.size = r.current.toList.length := Std.ExtTreeMap.length_toList.symm
    _ = (r.current.toList.map (·.2)).length := (List.length_map _).symm
    _ = live.length := hperm.length_eq
    _ = r.history.toList.countP (·.isLive) := by
      rw [countP_eq_range, List.countP_eq_length_filter]
      simp only [live, Array.getElem?_toList, Array.length_toList]
    _ = r.history.countP (·.isLive) := Array.countP_toList

/-! ## Calls of builds -/

/-- How many builds have been called. -/
def calls (r : Registry) : Nat := r.history.countP (·.isCalled)

/-- How many builds have been called and have returned an instance. -/
def returns (r : Registry) : Nat := r.history.countP (·.hasReturned)

/-- How many builds have been called and have failed. -/
def failures (r : Registry) : Nat := r.history.countP (·.hasFailed)

theorem calls_modify (f : Construction → Construction)
    (hc : r.construction? n = some c) :
    (r.modify n f).calls + (if c.isCalled then 1 else 0) =
      r.calls + if (f c).isCalled then 1 else 0 :=
  countP_modify hc f (·.isCalled)

@[simp] theorem calls_record (r : Registry) (e : Event) : (r.record e).calls = r.calls := rfl

theorem calls_setStage (hc : r.construction? n = some c) (stage : Stage) :
    (r.setStage n stage).calls = r.calls := by
  have h := calls_modify (fun c => { c with stage }) hc
  exact Nat.add_right_cancel h

theorem calls_finish (hc : r.construction? n = some c) (result : Except BuildError Json) :
    (r.finish n result).calls = r.calls := by
  rw [← calls_setStage hc (.finished result)]
  unfold finish calls
  split <;> rfl

@[simp] theorem calls_start (r : Registry) (config : NodeId) (key : String)
    (settings : Settings) : (r.start config key settings).2.calls = r.calls := by
  simp [calls, start, Construction.isCalled]

end Registry

namespace Build

/-- A plan counts a certain number of builds before it stops for the first time, and none later. -/
def Counts : Build Json → Nat → Workbench → Prop
  | .done _, k, _ => k = 0
  | .fail _, k, _ => k = 0
  | .endless, _, _ => True
  | .suspend next, k, _ => k = 0 ∧ ∀ w, next.Counts 0 w
  | .request _ next, k, _ => k = 0 ∧ ∀ v w, (next v).Counts 0 w
  | .read next, k, w => (next w).Counts k w
  | .write w' next, k, w => ∃ i j, k = i + j ∧ w'.builds = w.builds + i ∧ next.Counts j w'

/-- A plan counts no builds. -/
def Uncounted (b : Build Json) : Prop := ∀ w, b.Counts 0 w

theorem uncounted_each_ask {f : List Json → Build Json} (hf : ∀ vs, (f vs).Uncounted)
    (ds : List NodeId) : (each ask ds >>= f).Uncounted := by
  induction ds generalizing f with
  | nil => exact hf []
  | cons d ds ih =>
    rw [each_ask_cons]
    exact fun w => ⟨rfl, fun v => ih fun vs => hf (v :: vs)⟩

end Build

namespace Counting

open Build

/-- After the pause nothing is counted. -/
theorem uncounted_assemble (number : Nat) (raw : NodeId) : (assemble number raw).Uncounted := by
  intro w
  have hdeps : ∀ key, Uncounted (each ask (w.store.graph.properties raw Dependency.dep) >>=
      fun deps => .done (inst number key deps)) :=
    fun key => uncounted_each_ask (f := fun deps => .done (inst number key deps))
      (fun _ _ => rfl) _
  show Counts (if _ then _ else _) 0 w
  split
  · show Counts (stumble _ >>= _) 0 w
    rw [stumble_bind]
    show Counts (if _ then _ else _) 0 w
    split
    · exact ⟨0, 0, rfl, rfl, rfl⟩
    · exact hdeps _ w
  · exact hdeps _ w

/-- A build counts itself once, at its start. -/
theorem counts_build (suspends : Bool) (raw : NodeId) (w : Workbench) :
    (Counting.build suspends raw).Counts 1 w := by
  have hrest : ∀ number, Uncounted (if suspends then pause >>= fun _ => assemble number raw
      else assemble number raw) := by
    intro number
    split
    · exact fun w => ⟨rfl, uncounted_assemble number raw⟩
    · exact uncounted_assemble number raw
  exact ⟨1, 0, rfl, rfl, hrest (w.builds + 1) _⟩

end Counting

/-! ## The tally of a pool -/

/-- Nothing is counted at a stage or after it. -/
def Stage.Uncounted : Stage → Prop
  | .suspended rest => rest.Uncounted
  | .awaiting _ next => ∀ v, (next v).Uncounted
  | _ => True

/-- Builds are called when they are known, and count themselves when they are called. -/
structure Construction.Tallied (c : Construction) : Prop where
  uncounted : c.stage.Uncounted
  fresh : c.stage = .fresh → c.isCalled = false
  called : c.isCalled = true ∨ c.stage = .fresh ∨ c.Failed

/-- How many builds a task is still to count. -/
def Task.Counts : Task → Nat → Workbench → Prop
  | .poll _, k, _ => k = 0
  | .drive _ _ rest, k, w => rest.Counts k w
  | .wait _ _ _ next _, k, _ => k = 0 ∧ ∀ v, (next v).Uncounted

namespace Registry

variable {r : Registry} {n : Nat} {c : Construction}

/-- All constructions are tallied. -/
def Tallied (r : Registry) : Prop := ∀ n c, r.construction? n = some c → c.Tallied

namespace Tallied

theorem modify (h : r.Tallied) (f : Construction → Construction)
    (hf : ∀ c, r.construction? n = some c → (f c).Tallied) : (r.modify n f).Tallied := by
  intro m d hd
  rcases modify_cases hd with ⟨rfl, c, hc, rfl⟩ | ⟨-, hd⟩
  · exact hf c hc
  · exact h m d hd

/-- A construction that is neither fresh nor over may move to any stage where nothing is counted. -/
theorem setStage (h : r.Tallied) (stage : Stage) (hc : r.construction? n = some c)
    (hopen : c.stage.Open) (hfresh : c.stage ≠ .fresh) (hs : stage.Uncounted)
    (hnew : stage ≠ .fresh) :
    (r.setStage n stage).Tallied ∧ (r.setStage n stage).calls = r.calls := by
  refine ⟨h.modify _ fun d hd => ⟨hs, fun hf => absurd hf hnew, ?_⟩, calls_setStage hc stage⟩
  obtain rfl : c = d := Option.some.inj (hc.symm.trans hd)
  rcases (h n c hc).called with hcall | hf | hf
  · exact .inl hcall
  · exact absurd hf hfresh
  · exact absurd hf (Construction.not_failed_of_open hopen)

/-- A construction that is polled may move to any stage where nothing is counted. -/
theorem move (h : r.Tallied) (stage : Stage) {settings : Settings} (hp : r.Polled n settings)
    (hs : stage.Uncounted) (hnew : stage ≠ .fresh) :
    (r.setStage n stage).Tallied ∧ (r.setStage n stage).calls = r.calls := by
  obtain ⟨c, hc, hrun, -⟩ := id hp
  exact h.setStage stage hc (hp.open hc) (fun hf => nomatch hrun.symm.trans hf) hs hnew

theorem finish (h : r.Tallied) {settings : Settings} (hp : r.Polled n settings)
    (result : Except BuildError Json) :
    (r.finish n result).Tallied ∧ (r.finish n result).calls = r.calls := by
  obtain ⟨c, hc, -⟩ := id hp
  refine ⟨fun m d hd => ?_, calls_finish hc result⟩
  rw [construction?_finish, ← construction?_setStage] at hd
  exact (h.move (.finished result) hp trivial fun h => nomatch h).1 m d hd

theorem start (h : r.Tallied) (config : NodeId) (key : String) (settings : Settings) :
    (r.start config key settings).2.Tallied := by
  intro m d hd
  rcases start_cases hd with ⟨-, rfl⟩ | ⟨-, hd⟩
  · exact ⟨trivial, fun _ => rfl, .inr (.inl rfl)⟩
  · exact h m d hd

/-- The build of a construction is called. -/
theorem call (h : r.Tallied) (hc : r.construction? n = some c) (hs : c.stage = .fresh)
    (raw : NodeId) : ((r.setStage n .running).setRaw n raw).Tallied ∧
      ((r.setStage n .running).setRaw n raw).calls = r.calls + 1 := by
  constructor
  · intro m d hd
    rcases modify_cases hd with ⟨rfl, c', hc', rfl⟩ | ⟨hne, hd⟩
    · obtain rfl := Option.some.inj ((construction?_setStage_self hc .running).symm.trans hc')
      exact ⟨trivial, fun h => (nomatch h), .inl rfl⟩
    · obtain ⟨-, hd⟩ := (setStage_cases hc hd).resolve_left fun hsame => hne hsame.1
      exact h m d hd
  · have hc' := construction?_setStage_self hc .running
    have huncalled : c.isCalled = false := (h n c hc).fresh hs
    have hcalls := calls_modify (fun c => { c with raw := some raw }) hc'
    rw [calls_setStage hc, if_neg (by simpa [Construction.isCalled] using huncalled)] at hcalls
    exact hcalls

/-- A construction without a raw config ends before its build is called. -/
theorem refuse (h : r.Tallied) (hc : r.construction? n = some c)
    (e : BuildError) : ((r.setStage n .running).finish n (.error e)).Tallied ∧
      ((r.setStage n .running).finish n (.error e)).calls = r.calls := by
  have hc' := construction?_setStage_self hc .running
  refine ⟨fun m d hd => ?_, by rw [calls_finish hc', calls_setStage hc]⟩
  rcases finish_cases hc' hd with ⟨rfl, rfl⟩ | ⟨hne, hd⟩
  · exact ⟨trivial, fun h => (nomatch h), .inr (.inr ⟨e, rfl⟩)⟩
  · obtain ⟨-, hd⟩ := (setStage_cases hc hd).resolve_left fun hsame => hne hsame.1
    exact h m d hd

/-- When nothing is open any more, the current constructions are those whose builds have returned,
and all other calls have failed. -/
theorem totals (h : r.Tallied) (hord : r.Orderly)
    (hended : ∀ n c, r.construction? n = some c → ¬ c.stage.Open) :
    r.size = r.returns ∧ r.calls = r.returns + r.failures := by
  have hcase : ∀ c ∈ r.history, (c.isLive = true ∧ c.hasReturned = true ∧ c.hasFailed = false ∧
      c.isCalled = true) ∨ (c.isLive = false ∧ c.hasReturned = false ∧ c.hasFailed = c.isCalled) := by
    intro c hc
    obtain ⟨n, hn⟩ := Array.mem_iff_getElem?.mp hc
    have htallied := h n c hn
    match hs : c.stage with
    | .finished (.ok v) =>
      have hcalled : c.isCalled = true := by
        rcases htallied.called with hcall | hf | ⟨e, he⟩
        · exact hcall
        · exact absurd (hs.symm.trans hf) (fun h => nomatch h)
        · exact absurd (hs.symm.trans he) (fun h => nomatch h)
      exact .inl (by simp [Construction.isLive, Construction.hasReturned, Construction.hasFailed,
        hs, hcalled])
    | .finished (.error e) =>
      exact .inr (by simp [Construction.isLive, Construction.hasReturned, Construction.hasFailed, hs])
    | .fresh => exact absurd (hs ▸ Stage.open_fresh) (hended n c hn)
    | .running => exact absurd (hs ▸ Stage.open_running) (hended n c hn)
    | .suspended rest => exact absurd (hs ▸ Stage.open_suspended rest) (hended n c hn)
    | .awaiting other next => exact absurd (hs ▸ Stage.open_awaiting other next) (hended n c hn)
  constructor
  · rw [hord.size_eq]
    refine Array.countP_congr ?_
    intro c hc
    rcases hcase c hc with ⟨hl, hr, -⟩ | ⟨hl, hr, -⟩ <;> simp [hl, hr]
  · unfold calls returns failures
    simp only [← Array.countP_toList]
    refine countP_add ?_
    intro c hc
    rcases hcase c (Array.mem_toList_iff.mp hc) with ⟨-, hr, hf, hcall⟩ | ⟨-, hr, hf⟩
    · simp [hr, hf, hcall]
    · simp [hr, hf]

end Tallied

end Registry

namespace Factory

open Registry

variable {o : Factory} {settings : Settings} {f f₁ f' : Floor}

theorem enter_tallied {config : NodeId} {entry : Entry}
    (h : o.enter config settings f = (entry, f₁)) (ht : f.registry.Tallied) :
    f₁.registry.Tallied ∧ f₁.registry.calls = f.registry.calls ∧ f₁.bench = f.bench := by
  cases entry with
  | answered result =>
    obtain ⟨rfl, -⟩ := enter_answered h
    exact ⟨ht, rfl, rfl⟩
  | waiting n =>
    obtain ⟨key, -, ⟨-, rfl⟩ | ⟨-, hstart⟩⟩ := enter_waiting h
    · exact ⟨ht, rfl, rfl⟩
    · cases hstart
      exact ⟨Tallied.start ht config key _, calls_start .., rfl⟩

/-- **Builds count themselves once.** -/
theorem Runs.tally {suspends : Bool} (hs : o.strategy = .counting suspends) {t : Task}
    {p : Progress} (h : Runs o t f p f') (hord : f.registry.Orderly)
    (hatt : t.Attends f.registry) (ht : f.registry.Tallied) {k : Nat} (hk : t.Counts k f.bench) :
    f'.registry.Tallied ∧
      f'.bench.builds + f.registry.calls = f.bench.builds + k + f'.registry.calls := by
  -- by induction on the work: the task says how much of the build is still to be counted
  induction h generalizing k with
  | @done n settings f v =>
    obtain rfl : k = 0 := hk
    obtain ⟨ht', hcalls⟩ := Tallied.finish ht hatt (.ok v)
    exact ⟨ht', congrArg (f.bench.builds + ·) hcalls.symm⟩
  | @fail n settings f e =>
    obtain rfl : k = 0 := hk
    obtain ⟨ht', hcalls⟩ := Tallied.finish ht hatt (.error e)
    exact ⟨ht', congrArg (f.bench.builds + ·) hcalls.symm⟩
  | @suspend n settings f next =>
    obtain ⟨rfl, hnext⟩ := hk
    obtain ⟨ht', hcalls⟩ := Tallied.move ht (.suspended next) hatt hnext fun h => nomatch h
    exact ⟨ht', congrArg (f.bench.builds + ·) hcalls.symm⟩
  | read _ ih => exact ih hord hatt ht hk
  | write _ ih =>
    obtain ⟨i, j, rfl, hbuilds, hrest⟩ := hk
    obtain ⟨ht', htally⟩ := ih hord hatt ht hrest
    exact ⟨ht', by simp only [hbuilds] at htally; omega⟩
  | answered entry _ ih =>
    obtain ⟨rfl, -⟩ := enter_answered entry
    obtain ⟨rfl, hnext⟩ := hk
    exact ih hord hatt ht (hnext _ _)
  | @refused n settings config next e f f₁ entry =>
    obtain ⟨rfl, -⟩ := enter_answered entry
    obtain ⟨rfl, -⟩ := hk
    obtain ⟨ht', hcalls⟩ := Tallied.finish ht hatt (.error e)
    exact ⟨ht', congrArg (f₁.bench.builds + ·) hcalls.symm⟩
  | request entry _ ih =>
    obtain ⟨hkeep, -, hd⟩ := keeps_of_enter hord entry
    obtain ⟨ht₁, hcalls, hbench⟩ := enter_tallied entry ht
    obtain ⟨rfl, hnext⟩ := hk
    rw [← hcalls, ← hbench]
    exact ih hkeep.orderly ⟨hatt.keeps hkeep, hd⟩ ht₁ ⟨rfl, fun v w => hnext v w⟩
  | @received n settings other next moved v f f₁ p f' poll _ ihp ihr =>
    have hkeep := poll.keeps_receive hord hatt.2 (some n)
    obtain ⟨rfl, hnext⟩ := hk
    obtain ⟨ht₁, htally₁⟩ := ihp hord hatt.2 ht rfl
    obtain ⟨ht₂, htally₂⟩ := ihr hkeep.orderly (hatt.1.keeps hkeep) ht₁ (hnext v _)
    refine ⟨ht₂, ?_⟩
    simp only [Floor.receive, calls_record] at htally₂
    omega
  | @passedOn n settings other next moved e f f₁ poll ihp =>
    have hkeep := poll.keeps_receive hord hatt.2 (some n)
    obtain ⟨rfl, hnext⟩ := hk
    obtain ⟨ht₁, htally₁⟩ := ihp hord hatt.2 ht rfl
    have ht₂ : (f₁.receive (some n) other (.error e)).registry.Tallied := ht₁
    obtain ⟨ht', hcalls⟩ := ht₂.finish (hatt.1.keeps hkeep) (.error e)
    exact ⟨ht', htally₁.trans (congrArg (f.bench.builds + 0 + ·) hcalls.symm)⟩
  | @blocked n settings other next moved further f f₁ poll ihp =>
    obtain ⟨hkeep, -⟩ := poll.upkeep hord hatt.2
    obtain ⟨rfl, hnext⟩ := hk
    obtain ⟨ht₁, htally₁⟩ := ihp hord hatt.2 ht rfl
    obtain ⟨ht', hcalls⟩ := Tallied.move ht₁ (.awaiting other next) (hatt.1.keeps hkeep)
      hnext fun h => nomatch h
    exact ⟨ht', htally₁.trans (congrArg (f.bench.builds + 0 + ·) hcalls.symm)⟩
  | missing lookup =>
    obtain rfl : k = 0 := hk
    exact ⟨ht, rfl⟩
  | finished lookup stage =>
    obtain rfl : k = 0 := hk
    exact ⟨ht, rfl⟩
  | running lookup stage =>
    obtain rfl : k = 0 := hk
    exact ⟨ht, rfl⟩
  | @unprepared n c e graph f lookup stage form =>
    obtain rfl : k = 0 := hk
    obtain ⟨ht', hcalls⟩ := ht.refuse lookup e
    exact ⟨ht', congrArg (f.bench.builds + ·) hcalls.symm⟩
  | @prepared n c raw graph f p f' lookup stage form _ ih =>
    obtain ⟨hord', hp⟩ := hord.pollFresh lookup stage raw
    obtain rfl : k = 0 := hk
    -- the build is called, and it has to count itself
    obtain ⟨ht₁, hcalls⟩ := ht.call lookup stage raw
    have hbuild : (o.strategy.build raw).Counts 1
        (((f.setStage n .running).setGraph graph).setRaw n raw).bench := by
      rw [hs]
      exact Counting.counts_build suspends raw _
    obtain ⟨ht', htally⟩ := ih hord' hp ht₁ hbuild
    refine ⟨ht', ?_⟩
    have hcalls : (((f.setStage n .running).setGraph graph).setRaw n raw).registry.calls =
      f.registry.calls + 1 := hcalls
    have hbench : (((f.setStage n .running).setGraph graph).setRaw n raw).bench.builds =
      f.bench.builds := rfl
    omega
  | @resumed n c next f p f' lookup stage _ ih =>
    have hopen : c.stage.Open := stage ▸ Stage.open_suspended next
    obtain ⟨hord', hp⟩ := hord.poll lookup hopen
    obtain rfl : k = 0 := hk
    have hnext : (Stage.suspended next).Uncounted := stage ▸ (ht n c lookup).uncounted
    obtain ⟨ht₁, hcalls⟩ := Tallied.setStage ht .running lookup hopen
      (stage ▸ fun h => nomatch h) trivial fun h => nomatch h
    obtain ⟨ht', htally⟩ := ih hord' hp ht₁ (hnext _)
    exact ⟨ht', hcalls ▸ htally⟩
  | @awaited n c other next f p f' lookup stage _ ih =>
    have hopen : c.stage.Open := stage ▸ Stage.open_awaiting other next
    obtain ⟨hord', hatt'⟩ := hord.pollAwaiting lookup stage
    obtain rfl : k = 0 := hk
    have hnext : (Stage.awaiting other next).Uncounted := stage ▸ (ht n c lookup).uncounted
    obtain ⟨ht₁, hcalls⟩ := Tallied.setStage ht .running lookup hopen
      (stage ▸ fun h => nomatch h) trivial fun h => nomatch h
    obtain ⟨ht', htally⟩ := ih hord' hatt' ht₁ ⟨rfl, hnext⟩
    exact ⟨ht', hcalls ▸ htally⟩

/-- The counter of builds is right, and stays so. -/
def Counted (f : Floor) : Prop := f.registry.Tallied ∧ f.bench.builds = f.registry.calls

theorem Serves.counted {suspends : Bool} (hs : o.strategy = .counting suspends) {r r' : Request}
    {moved : Bool} (h : Serves o settings r f r' moved f') (hf : f.On .standing) (hr : r.Placed f)
    (hcounted : Counted f) : Counted f' := by
  induction h with
  | settled => exact hcounted
  | answered entry =>
    obtain ⟨rfl, -⟩ := enter_answered entry
    exact hcounted
  | @entered config n r moved f f₁ f' entry _ ih =>
    obtain ⟨hf₁, -, -, hr₁⟩ := enter_on (grants_standing config) hf entry
    obtain ⟨ht, hcalls, hbench⟩ := enter_tallied entry hcounted.1
    refine ih hf₁ (placed_of_on hr₁) ⟨ht, ?_⟩
    rw [hbench, hcalls]
    exact hcounted.2
  | @received n result f f₁ poll =>
    obtain ⟨ht, htally⟩ := poll.tally hs hf.orderly (hr n rfl) hcounted.1 rfl
    have hbuilds := hcounted.2
    exact ⟨ht, show f₁.bench.builds = f₁.registry.calls by omega⟩
  | @pending n moved f f₁ poll =>
    obtain ⟨ht, htally⟩ := poll.tally hs hf.orderly (hr n rfl) hcounted.1 rfl
    have hbuilds := hcounted.2
    exact ⟨ht, by omega⟩

theorem Concludes.counted {suspends : Bool} (hs : o.strategy = .counting suspends)
    {configs : List NodeId} {joined : Joined}
    (h : Concludes o settings (configs.map .new) f joined f') (hf : f.On .standing)
    (hcounted : Counted f) : Counted f' := by
  obtain ⟨-, hc, -⟩ := h.preserves (I := fun _ f => Counted f)
    (fun hf hr hc hserve => hserve.counted hs hf hr hc) hf hcounted
  exact hc

end Factory

end Wiring

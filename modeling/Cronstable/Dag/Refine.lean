import Cronstable.Dag.Steps

/-!
# The transforms are runs of steps

Each function of the advance pass is shown to be a run of the steps of `Cronstable.Dag.Steps`,
from the dispatch on one entry up to the whole transform. Nothing after this module unfolds the
pass to prove an invariant: an invariant of `BodyStep` that the recording of fan-outs keeps holds
of every reachable document.

## Main results

* `advanceTask_outcome`: the dispatch leaves the entry alone or makes one step;
* `walkTask_touches`, `settleTask_touches`: advancing a task touches its own keys alone;
* `Op.apply_run`: a transform is an application of expansions followed by a run of steps.
-/

namespace Cronstable.Dag

open List Event

open Trace (Run)

variable {spec : DagSpec} {task : TaskSpec}

/-! ## Instances -/

/-- The instances of a task are keyed by it, and an indexed one is recorded. -/
theorem mem_instancesOf {body : RunBody} {inst : Instance} (h : inst ∈ instancesOf body task) :
    Owns task.id inst.key ∧ ∀ i, inst.mapIndex = some i →
      ∃ record item, body.mapped.get? task.id = some (some record) ∧
        record.items[i]? = some item ∧ inst = ⟨instanceKey task.id i, some i, some item⟩ := by
  unfold instancesOf at h
  split at h
  next =>
    split at h
    next => cases h
    next =>
      rw [mem_singleton] at h
      subst h
      exact ⟨.inl rfl, by simp⟩
  next => cases h
  next record hrecord =>
    obtain ⟨⟨item, i⟩, hitem, rfl⟩ := mem_map.mp h
    have hget := mem_zipIdx_iff_getElem?.mp hitem
    refine ⟨.inr ⟨i, rfl⟩, fun j hj => ?_⟩
    cases hj
    exact ⟨record, item, hrecord, hget, rfl⟩

/-! ## One entry -/

/-- What a function on one entry did: nothing, or one step that the result accounts for. Only a
pass that used its launches defers. -/
def Outcome (spec : DagSpec) (body : RunBody) (key : String) (e : TaskEntry) (r : AdvanceResult)
    (q : TaskEntry × AdvanceResult) : Prop :=
  (q.1 = e ∧ q.2.launches = r.launches ∧ q.2.ended = r.ended ∧ q.2.changed = r.changed ∧
      (q.2.deferred = r.deferred ∨ q.2.launches ≠ [])) ∨
    ∃ ev : Event, EntryStep spec body key e ev q.1 ∧ ev.inPass = true ∧
      q.2.launches = r.launches ++ ev.launches ∧ q.2.ended = r.ended + ev.endings ∧
      q.2.changed = true ∧ q.2.deferred = r.deferred

variable {p : Pass} {key : String}

/-- Writing an outcome back touches the keys of the task alone. -/
theorem Touches.of_outcome {e : TaskEntry} {q : TaskEntry × AdvanceResult} (hown : Owns task.id key)
    (hget : p.body.tasks.get? key = some e) (h : Outcome spec p.body key e p.result q) :
    Touches spec task p { body := p.body.setEntry key q.1, result := q.2 } := by
  rcases h with ⟨hq, hl, he, hc, hd⟩ | ⟨ev, hstep, hpass, hl, he, hc, hd⟩
  · have hbody : p.body.setEntry key q.1 = p.body := by rw [hq, RunBody.setEntry_eq_self hget]
    refine ⟨.of_eq hbody hl he hc fun h => ?_, fun _ _ => by simp only [hbody]⟩
    exact hd.imp_left fun hd => hd.symm.trans h
  · exact .of_entry hown hget hstep hpass hl he hc hd

/-- Nothing was done. -/
private lemma Outcome.same (body : RunBody) (key : String) (e : TaskEntry) (r : AdvanceResult) :
    Outcome spec body key e r (e, r) :=
  .inl ⟨rfl, rfl, rfl, rfl, .inl rfl⟩

/-- The launches of the pass were used up. -/
private lemma Outcome.full {body : RunBody} {e : TaskEntry} {r : AdvanceResult}
    (h : claimsFull r = true) : Outcome spec body key e r (e, r.defer) := by
  refine .inl ⟨rfl, rfl, rfl, rfl, .inr fun hnil => ?_⟩
  have hlen : maxClaimsPerPass ≤ r.launches.length := by simpa [claimsFull] using h
  rw [show r.launches = [] from hnil] at hlen
  exact absurd hlen (by decide)

section Dispatch

variable {body : RunBody} {inst : Instance} {e : TaskEntry} {r : AdvanceResult}
  (now : Time) (proc host : String)

variable (hmem : task ∈ spec.tasks)

include hmem

lemma claimTask_outcome (hinst : inst ∈ instancesOf body task)
    (hclaim : Claimable spec body task e) :
    Outcome spec body inst.key e r (claimTask task inst now proc host e r) := by
  unfold claimTask
  split
  next htype =>
    exact .inr ⟨.quiet, .park task inst now hmem hinst rfl htype hclaim, rfl,
      by simp [launches], by simp [endings], rfl, rfl⟩
  next htype =>
    split
    next hfull => exact .full hfull
    next =>
      exact .inr ⟨_, .claim task inst now proc host hmem hinst rfl htype hclaim, rfl, rfl, rfl,
        rfl, rfl⟩

/-- Ending an entry in a dispatch. -/
private lemma settle_outcome (hown : Owns task.id key) (hlive : e.state.inert = false)
    (hidle : e.state = .running → e.proc = none) {state : TaskState} (reason : Option String)
    (hterm : state.terminal = true) (hne : state ≠ .success) :
    Outcome spec body key e r
      (terminaliseTask { e with failReason := reason } state now, r.noteEnded) :=
  .inr ⟨.ended, .settle task state reason now hmem hown hlive hidle hterm hne, rfl,
    by simp [AdvanceResult.noteEnded, launches], rfl, rfl, rfl⟩

lemma advanceRunning_outcome (hinst : inst ∈ instancesOf body task)
    (hstate : e.state = .running) :
    Outcome spec body inst.key e r (advanceRunning task inst now proc host e r) := by
  have hown := (mem_instancesOf hinst).1
  have hlive : e.state.inert = false := by rw [hstate]; rfl
  unfold advanceRunning
  split
  next =>
    split
    next hidle => exact settle_outcome now hmem hown hlive (fun _ => hidle.1) _ rfl (by decide)
    next => exact .same ..
  next htype =>
    split
    next => exact .same ..
    next hidle =>
      -- nothing in flight: neither a pid nor a proc token
      obtain ⟨hpid, hproc⟩ : e.pid = none ∧ e.proc = none := by simpa using hidle
      split
      next => exact .same ..
      next =>
        split
        next => exact settle_outcome now hmem hown hlive (fun _ => hproc) _ rfl (by decide)
        next =>
          split
          next hfull => exact .full hfull
          next =>
            exact .inr ⟨_, .poke task inst now proc host hmem hinst rfl (not_not.mp htype)
              hstate hproc hpid, rfl, rfl, rfl, rfl, rfl⟩

/-- The dispatch leaves the entry alone or makes one step, when it is handed the verdict of the
task. -/
theorem advanceTask_outcome (hinst : inst ∈ instancesOf body task) {fallback : Verdict}
    {verdict : Option Verdict}
    (hverdict : e.state = .pending → verdict.getD fallback = depsVerdict spec body task) :
    Outcome spec body inst.key e r
      (advanceTask task inst now proc host fallback verdict e r) := by
  have hown := (mem_instancesOf hinst).1
  unfold advanceTask
  split
  next => exact .same ..
  next hinert =>
    have hlive : e.state.inert = false := by simpa using hinert
    split
    next hstate => exact advanceRunning_outcome now proc host hmem hinst hstate
    next hstate =>
      split
      next => exact claimTask_outcome now proc host hmem hinst (.inr hstate)
      next => exact .same ..
    next hstate =>
      have hidle : e.state = .running → e.proc = none := by simp [hstate]
      rw [hverdict hstate]
      split
      case h_1 => exact .same ..
      case h_2 | h_3 => exact settle_outcome now hmem hown hlive hidle e.failReason rfl (by decide)
      case h_4 hready =>
        split
        next => exact .same ..
        next => exact claimTask_outcome now proc host hmem hinst (.inl ⟨hstate, hready⟩)
    next => exact .same ..

end Dispatch

/-! ## One task -/

/-- Resolving a placeholder touches its own entry alone. -/
theorem propagatePlaceholder_touches (now : Time) (hmem : task ∈ spec.tasks) (p : Pass) :
    Touches spec task p (propagatePlaceholder spec task now p) := by
  have hown : Owns task.id task.id := .inl rfl
  unfold propagatePlaceholder
  cases hget : p.body.tasks.get? task.id with
  | none => exact .refl p
  | some e =>
    simp -zeta only
    split
    next =>
      unfold resolveStalePlaceholder
      split
      next => exact .refl p
      next hinert =>
        split
        next => exact .refl p
        next hparked =>
          have hidle : e.state = .running → e.proc = none := by simp_all
          exact .endTask _ now hmem hown hget (by simpa using hinert) hidle rfl (by decide)
    next hpending =>
      extract_lets byVerdict
      have hlive : e.state.inert = false := by rw [not_not.mp hpending]; rfl
      have hidle : e.state = .running → e.proc = none := by simp_all
      have hverdict : Touches spec task p byVerdict := by
        unfold byVerdict
        split
        case h_3 => exact .refl p
        all_goals exact .endTask e.failReason now hmem hown hget hlive hidle rfl (by decide)
      split
      next => exact hverdict
      next =>
        split
        next => exact .endTask _ now hmem hown hget hlive hidle rfl (by decide)
        next =>
          split
          case h_4 => exact hverdict
          all_goals exact .endTask e.failReason now hmem hown hget hlive hidle rfl (by decide)

section Walk

variable (now : Time) (proc host : String)

/-- The loop invariant over the instances of a task: only its own keys were touched, and the
verdict handed on is the one of the task. -/
def Handed (spec : DagSpec) (task : TaskSpec) (p : Pass) (q : Pass)
    (verdict : Option Verdict) : Prop :=
  Touches spec task p q ∧ ∀ v, verdict = some v → v = depsVerdict spec p.body task

variable {inst : Instance}

section

variable (hspec : ValidSpec spec)

include hspec

/-- Advancing one instance touches the keys of its task alone. -/
theorem walkInstance_touches (hmem : task ∈ spec.tasks) {s : Pass × Option Verdict}
    (h : Handed spec task p s.1 s.2) (hinst : inst ∈ instancesOf p.body task) :
    Touches spec task s.1 (walkInstance spec now proc host task s inst).1 := by
  obtain ⟨htouch, hcached⟩ := h
  obtain ⟨hown, hindexed⟩ := mem_instancesOf hinst
  unfold walkInstance
  cases hget : s.1.body.tasks.get? inst.key with
  | none =>
    cases hindex : inst.mapIndex with
    | none =>
      simp only [hget]
      exact .refl s.1
    | some i =>
      obtain ⟨record, item, hrecord, hitem, rfl⟩ := hindexed i hindex
      simp only [hget]
      rw [← htouch.advances.mapped_eq] at hrecord
      refine ⟨.of_step (.hole now hmem hrecord hitem hget) rfl ?_ rfl rfl rfl, ?_⟩
      · simp [resolveMissingInstance, AdvanceResult.noteEnded, launches]
      · intro key hkey
        have hne : key ≠ instanceKey task.id i := fun heq => hkey (heq ▸ hown)
        simp [resolveMissingInstance, hne]
  | some e =>
    simp only [hget]
    have hinst' : inst ∈ instancesOf s.1.body task := by
      rwa [instancesOf, htouch.advances.mapped_eq]
    refine .of_outcome hown hget (advanceTask_outcome now proc host hmem hinst' ?_)
    intro hpending
    cases hv : s.2 with
    | none => simp [hpending]
    | some v => simpa [htouch.depsVerdict_eq hspec hmem] using hcached v hv

lemma walkInstance_handed (hmem : task ∈ spec.tasks) {s : Pass × Option Verdict}
    (h : Handed spec task p s.1 s.2) (hinst : inst ∈ instancesOf p.body task) :
    Handed spec task p (walkInstance spec now proc host task s inst).1
      (walkInstance spec now proc host task s inst).2 := by
  refine ⟨h.1.trans (walkInstance_touches now proc host hspec hmem h hinst), ?_⟩
  obtain ⟨htouch, hcached⟩ := h
  unfold walkInstance
  cases hget : s.1.body.tasks.get? inst.key with
  | none =>
    cases hindex : inst.mapIndex with
    | none | some i =>
      simp only [hget]
      exact hcached
  | some e =>
    simp only [hget]
    intro v hv
    cases hs : s.2 with
    | some w =>
      rw [hs] at hv
      cases hv
      exact hcached _ hs
    | none =>
      rw [hs] at hv
      simp only [Option.ite_none_right_eq_some, Option.some.injEq] at hv
      rw [← hv.2, htouch.depsVerdict_eq hspec hmem]

/-- Advancing a task is a run of steps on its own keys. -/
theorem walkTask_touches (hmem : task ∈ spec.tasks) (p : Pass) :
    Touches spec task p (walkTask spec now proc host p task) := by
  unfold walkTask
  simp only
  split
  next => exact propagatePlaceholder_touches now hmem p
  next hplain =>
    split
    next hunrecorded =>
      cases hget : p.body.tasks.get? task.id with
      | none => exact .refl p
      | some e =>
        simp only
        split
        next => exact .refl p
        next =>
          have hnone : p.body.mapped.get? task.id = none :=
            Dict.contains_eq_false_iff.mp (by simpa using hunrecorded)
          have hsingle : Instance.mk task.id none none ∈ instancesOf p.body task := by
            simp_all [instancesOf]
          refine .of_outcome (.inl rfl) hget
            (advanceTask_outcome now proc host hmem hsingle ?_)
          intro hpending
          simp [hpending]
    next =>
      have hloop := List.foldlRecOn (instancesOf p.body task)
        (walkInstance spec now proc host task) (b := (p, none))
        (motive := fun s => Handed spec task p s.1 s.2)
        ⟨.refl p, by simp⟩
        (fun s hs inst hinst => walkInstance_handed now proc host hspec hmem hs hinst)
      exact hloop.1

lemma walkAndClaim_advances (p : Pass) : Advances spec p (walkAndClaim spec now proc host p) :=
  .foldl (fun q _ ht => (walkTask_touches now proc host hspec ht q).advances) p

private lemma settleInstance_handed (hmem : task ∈ spec.tasks) {s : Pass × Option Verdict × Bool}
    (h : Handed spec task p s.1 s.2.1) (hinst : inst ∈ instancesOf p.body task) :
    Handed spec task p (settleInstance spec now task s inst).1
      (settleInstance spec now task s inst).2.1 := by
  obtain ⟨htouch, hcached⟩ := h
  obtain ⟨hown, -⟩ := mem_instancesOf hinst
  have hverdict : s.2.1.getD (depsVerdict spec s.1.body task) = depsVerdict spec p.body task := by
    cases hv : s.2.1 with
    | none => exact htouch.depsVerdict_eq hspec hmem
    | some v => exact hcached v hv
  unfold settleInstance
  split
  next => exact ⟨htouch, hcached⟩
  next =>
    cases hget : s.1.body.tasks.get? inst.key with
    | none =>
      simp only [hget]
      exact ⟨htouch, hcached⟩
    | some e =>
      simp only [hget]
      split
      next => exact ⟨htouch, hcached⟩
      next hpending =>
        have hlive : e.state.inert = false := by rw [not_not.mp hpending]; rfl
        have hidle : e.state = .running → e.proc = none := by simp_all
        rw [hverdict]
        have hnew : ∀ v, some (depsVerdict spec p.body task) = some v →
            v = depsVerdict spec p.body task := fun v hv => (Option.some.inj hv).symm
        split
        case h_3 => exact ⟨htouch, hnew⟩
        all_goals
          exact ⟨htouch.trans
            (.endTask e.failReason now hmem hown hget hlive hidle rfl (by decide)), hnew⟩

/-- Settling a task is a run of steps on its own keys. -/
theorem settleTask_touches (hmem : task ∈ spec.tasks) (p : Pass) :
    Touches spec task p (settleTask spec now p task) := by
  unfold settleTask
  split
  next => exact propagatePlaceholder_touches now hmem p
  next =>
    have hloop := List.foldlRecOn (instancesOf p.body task) (settleInstance spec now task)
      (b := (p, none, false)) (motive := fun s => Handed spec task p s.1 s.2.1)
      ⟨.refl p, by simp⟩
      (fun s hs inst hinst => settleInstance_handed now hspec hmem hs hinst)
    exact hloop.1

end

/-! ## Whole passes -/

/-- The upstream-first order lists tasks of the DAG. -/
theorem mem_tasks_of_upstreamFirst (hspec : ValidSpec spec) {order : List TaskSpec}
    (h : upstreamFirst spec = some order) {t : TaskSpec} (ht : t ∈ order) : t ∈ spec.tasks := by
  unfold upstreamFirst at h
  split at h
  next => cases h
  next =>
    cases h
    obtain ⟨id, -, hid⟩ := mem_filterMap.mp ht
    exact (hspec.byId_eq_some.mp hid).1

lemma settleDependents_advances (hspec : ValidSpec spec) {order : List TaskSpec}
    (horder : ∀ t ∈ order, t ∈ spec.tasks) (p : Pass) :
    Advances spec p (settleDependents spec now order p) :=
  .foldl (fun q t ht => (settleTask_touches now hspec (horder t ht) q).advances) p

lemma claimLoop_advances (hspec : ValidSpec spec) (fuel settled : ℕ) (p : Pass) :
    Advances spec p (claimLoop spec now proc host fuel settled p) := by
  induction fuel generalizing settled p with
  | zero => exact .refl p
  | succ fuel ih =>
    unfold claimLoop
    split
    next =>
      cases horder : upstreamFirst spec with
      | none => exact .refl p
      | some order =>
        have hsettle := settleDependents_advances now hspec
          (fun t ht => mem_tasks_of_upstreamFirst hspec horder ht) p
        exact (hsettle.trans (walkAndClaim_advances now proc host hspec _)).trans (ih _ _)
    next => exact .refl p

lemma propagateAndClaim_advances (hspec : ValidSpec spec) (p : Pass) :
    Advances spec p (propagateAndClaim spec now proc host p) :=
  (walkAndClaim_advances now proc host hspec p).trans
    (claimLoop_advances now proc host hspec _ _ _)

end Walk

/-! ## Expansions -/

/-- Recording fan-outs launches nothing, defers nothing and leaves the state of the run. -/
theorem applyExpansions_result (spec : DagSpec) (expansions : Expansions) (now : Time) (p : Pass) :
    (applyExpansions spec expansions now p).result.launches = p.result.launches ∧
      (applyExpansions spec expansions now p).result.deferred = p.result.deferred ∧
      (applyExpansions spec expansions now p).body.state = p.body.state := by
  refine List.foldlRecOn (motive := fun q : Pass =>
    q.result.launches = p.result.launches ∧ q.result.deferred = p.result.deferred ∧
      q.body.state = p.body.state) _ _ ⟨rfl, rfl, rfl⟩ ?_
  intro q hq e _
  rw [← hq.1, ← hq.2.1, ← hq.2.2]
  unfold applyExpansion
  -- whatever the checks come to, at most entries and the record are written
  repeat' split
  all_goals exact ⟨rfl, rfl, rfl⟩

/-! ## Transforms -/

/-- A batch of fenced writes is a run of steps, one for each element applied. -/
private lemma applyBatch_run {α : Type} (spec : DagSpec) (key : α → String)
    {write : α → TaskEntry → Option TaskEntry} {label : α → Event}
    (h : ∀ a e e', write a e = some e' → ∀ body, EntryStep spec body (key a) e (label a) e')
    (elements : List α) (body : RunBody) :
    Run (BodyStep spec) body ((applyBatch key write elements body.tasks).2.map label)
      { body with tasks := (applyBatch key write elements body.tasks).1 } := by
  refine List.foldlRecOn (motive := fun s : Dict String TaskEntry × List α =>
    Run (BodyStep spec) body (s.2.map label) { body with tasks := s.1 }) _ _ (.nil _) ?_
  intro s hrun a _
  cases hwrite : (s.1.get? (key a)).bind (write a) with
  | none => exact hrun
  | some e' =>
    obtain ⟨e, hget, he'⟩ := Option.bind_eq_some_iff.mp hwrite
    simp only [map_append, map_singleton]
    exact hrun.snoc (.entry hget (h a e e' he' _))

/-- Storing a batch is a run of steps, one for each element applied, and a stamp. -/
private lemma storeBatch_run {α : Type} (spec : DagSpec) (key : α → String)
    {write : α → TaskEntry → Option TaskEntry} {label : α → Event}
    (h : ∀ a e e', write a e = some e' → ∀ body, EntryStep spec body (key a) e (label a) e')
    (hlabel : ∀ a, (label a).launches = []) (elements : List α) (body : RunBody) (now : Time) :
    ∃ events, Run (BodyStep spec) body events
        ((storeBatch body now (applyBatch key write elements body.tasks)).1.getD body) ∧
      events.flatMap launches = [] ∧
      events.flatMap completions =
        (applyBatch key write elements body.tasks).2.flatMap fun a => (label a).completions := by
  unfold storeBatch
  split
  next hempty =>
    rw [isEmpty_iff.mp hempty]
    exact ⟨[], .nil _, rfl, rfl⟩
  next =>
    refine ⟨_, (applyBatch_run spec key h elements body).snoc (.stamp (by rfl) (by rfl)), ?_, ?_⟩
    · simp [flatMap_map, hlabel]
    · simp [flatMap_map]

/-- Terminalising the run leaves entries and fan-outs alone. -/
theorem maybeTerminalise_tasks (spec : DagSpec) (p : Pass) :
    (maybeTerminalise spec p).body.tasks = p.body.tasks ∧
      (maybeTerminalise spec p).body.mapped = p.body.mapped ∧
      (maybeTerminalise spec p).result.launches = p.result.launches ∧
      ((maybeTerminalise spec p).result.changed = false → p.result.changed = false) := by
  unfold maybeTerminalise
  split
  next => exact ⟨rfl, rfl, rfl, id⟩
  next => exact ⟨rfl, rfl, rfl, fun h => (Bool.or_eq_false_iff.mp h).1⟩

/-- Claiming and terminalising from `p` on: the document is a run away and its launches are those
of the run; an unchanged result launched nothing, and no completion is applied. -/
private lemma claimHalf_run (hspec : ValidSpec spec) (now : Time) (proc host : String)
    (hp : p.result.launches = []) :
    ∃ events, Run (BodyStep spec) p.body events
        { (maybeTerminalise spec (propagateAndClaim spec now proc host p)).body with
          updatedAt := now } ∧
      (maybeTerminalise spec (propagateAndClaim spec now proc host p)).result.launches =
        events.flatMap launches ∧
      ((maybeTerminalise spec (propagateAndClaim spec now proc host p)).result.changed = false →
        events.flatMap launches = []) ∧
      events.flatMap completions = [] := by
  obtain ⟨events, hpass⟩ := propagateAndClaim_advances now proc host hspec p
  obtain ⟨htasks, hmapped, hlaunch, hchanged⟩ :=
    maybeTerminalise_tasks spec (propagateAndClaim spec now proc host p)
  have hlabels : (events ++ [external]).flatMap launches =
      events.flatMap launches := by
    simp
  refine ⟨events ++ [.external],
    hpass.run.snoc (.stamp (by exact htasks) (by exact hmapped)), ?_, ?_, ?_⟩
  · rw [hlaunch, hpass.launches, hp, hlabels, nil_append]
  · intro hfalse
    rw [(hpass.changed (hchanged hfalse)).2]
    rfl
  · simpa using fun ev hev => completions_of_inPass (hpass.inPass ev hev)

/-- The recovery of crashed entries is a run, whether or not it found any. -/
private lemma reconcile_run (spec : DagSpec) (now : Time) (proc host : String)
    (isPidAlive : ℤ → Bool) (body : RunBody) :
    Run (BodyStep spec) body [.external, .external]
      { (reconcileEntries spec now proc host isPidAlive body).1 with updatedAt := now } :=
  (Run.single (.recover now proc host isPidAlive)).snoc (.stamp (by rfl) (by rfl))

/-- Every transform applies the expansions it was given, if any, and then makes a run of steps
whose launches are those it reports and whose completions are those it applies. -/
theorem Op.apply_run (hspec : ValidSpec spec) (op : Op) (body : RunBody) :
    ∃ start events, Run (BodyStep spec) start events (op.apply spec body) ∧
      op.launches spec body = events.flatMap Event.launches ∧
      op.completions body = events.flatMap Event.completions ∧
      (start = body ∨ ∃ now proc host expansions, op = .plan now proc host expansions ∧
        body.terminalRun = false ∧
        start = (applyExpansions spec expansions now { body }).body) := by
  cases op with
  | plan now proc host expansions =>
    unfold Op.apply Op.write Op.launches planAndClaim
    simp only
    split
    next => exact ⟨body, [], .nil _, rfl, rfl, .inl rfl⟩
    next hrunning =>
      split
      next => exact ⟨body, [], .nil _, rfl, rfl, .inl rfl⟩
      next =>
        obtain ⟨events, hrun, hl, hquiet, hf⟩ := claimHalf_run hspec now proc host
          ((applyExpansions_result spec expansions now { body }).1 : _ = [])
        split
        next =>
          exact ⟨_, events, hrun, hl, hf.symm, .inr ⟨now, proc, host, expansions, rfl,
            by simpa using hrunning, rfl⟩⟩
        next hchanged =>
          have hnone := hl.trans (hquiet (by simpa [fullPlan] using hchanged))
          exact ⟨body, [], .nil _, hnone, rfl, .inl rfl⟩
  | reconcilePlan now proc host alive =>
    unfold Op.apply Op.write Op.launches reconcileAndPlan
    simp only
    split
    next => exact ⟨body, [], .nil _, rfl, rfl, .inl rfl⟩
    next =>
      split
      next => exact ⟨body, [], .nil _, rfl, rfl, .inl rfl⟩
      next =>
        split
        next =>
          split
          next => exact ⟨body, [], .nil _, rfl, rfl, .inl rfl⟩
          next =>
            exact ⟨body, _, reconcile_run spec now proc host alive body, rfl, rfl, .inl rfl⟩
        next =>
          obtain ⟨events, hrun, hl, hquiet, hf⟩ := claimHalf_run hspec now proc host
            (p := { body := (reconcileEntries spec now proc host alive body).1 }) rfl
          split
          next hkept =>
            have hchanged := (Bool.and_eq_true_iff.mp hkept).1
            have hnone := hl.trans (hquiet (by simpa using hchanged))
            exact ⟨body, [], .nil _, hnone, rfl, .inl rfl⟩
          next =>
            refine ⟨body, .external :: events,
              (Run.single (.recover now proc host alive)).append hrun, ?_, ?_, .inl rfl⟩
            · simpa using hl
            · rw [flatMap_cons, hf]
              rfl
  | reconcile now proc host alive =>
    unfold Op.apply Op.write reconcileCrashed
    simp only
    split
    next => exact ⟨body, [], .nil _, rfl, rfl, .inl rfl⟩
    next =>
      split
      next => exact ⟨body, [], .nil _, rfl, rfl, .inl rfl⟩
      next => exact ⟨body, _, reconcile_run spec now proc host alive body, rfl, rfl, .inl rfl⟩
  | pids entries now =>
    obtain ⟨events, hrun, hquiet, hf⟩ := storeBatch_run spec PidWrite.taskkey
      (fun w e e' h _ => .pid now w h) (fun _ => rfl) entries body now
    exact ⟨body, events, hrun, hquiet.symm, by simp [hf, Op.completions, Event.completions],
      .inl rfl⟩
  | finish marks now =>
    obtain ⟨events, hrun, hquiet, hf⟩ := storeBatch_run spec CompletionMark.taskkey
      (fun m e e' h _ => .finish now m rfl h) (fun _ => rfl) marks body now
    exact ⟨body, events, hrun, hquiet.symm, by simp [hf, Op.completions, Event.completions],
      .inl rfl⟩
  | release claims now =>
    unfold Op.apply Op.write releaseLostClaims
    simp only
    split
    next => exact ⟨body, [], .nil _, rfl, rfl, .inl rfl⟩
    next =>
      obtain ⟨events, hrun, hquiet, hf⟩ := storeBatch_run spec LostClaim.taskkey
        (fun c e e' h _ => .release now c h) (fun _ => rfl) claims body now
      exact ⟨body, events, hrun, hquiet.symm, by simp [hf, Op.completions, completions],
        .inl rfl⟩
  | approve taskkey approved decidedBy now onReject =>
    unfold Op.apply Op.write applyApproval
    cases hget : body.tasks.get? taskkey with
    | none =>
      simp only [hget]
      exact ⟨body, [], .nil _, rfl, rfl, .inl rfl⟩
    | some e =>
      simp only [hget]
      split
      next => exact ⟨body, [], .nil _, rfl, rfl, .inl rfl⟩
      next hready =>
        obtain ⟨hstate, hwait⟩ : e.state = .running ∧ e.awaitingApproval = true := by
          simpa using hready
        refine ⟨body, [.external, .external], ?_, rfl, rfl, .inl rfl⟩
        exact (Run.single (.entry hget
          (.decided approved decidedBy now onReject hstate hwait))).snoc
          (.stamp (by rfl) (by rfl))

end Cronstable.Dag

import Cronstable.Dag.Completions
import Cronstable.Dag.Fused

/-!
# A completion that is recorded late

The flush records a completion with `mark_tasks_finished`. When the write fails, `_queue_completion`
keeps the completion for `_retry_completions`, which records it with `mark_task_finished`, and
queues it again as often as that fails. The queue keeps neither the verification nor the limits of
a completion, and `mark_task_finished` takes none, so both are missing from an entry that is
written late (`retried_loses_verification`).

## Main results

* `retried_eq`: what is left of a completion whose writes failed;
* `recorded_late_iff`: when the entry written late is the one the first write would have left.
-/

namespace Cronstable.Dag.Completions

open Option Live

/-- A write of the completion failed: the queue after `_queue_completion`, and what the next round
of `_retry_completions` takes from it. -/
def failWrite (ref : RunRef) (s : Queue × Completion) (now : Time) : Queue × Completion :=
  let q := queueCompletion s.1 ref now s.2
  (q, (q.get? (ref, s.2.taskkey)).elim s.2 Pending.completion)

/-- The completion that is written once its writes failed at the given times. -/
def retried (q : Queue) (ref : RunRef) (c : Completion) (failures : List Time) : Completion :=
  (failures.foldl (failWrite ref) (q, c)).2

/-- The write of a completion of the DAG that lands after these failures: the one of the flush, or
the one of `_finish_task`. -/
def record (spec : DagSpec) (q : Queue) (ref : RunRef) (c : Completion) (failures : List Time)
    (env : Env) (body : RunBody) : RunBody :=
  match env.live spec (retried q ref c failures) with
  | none => body
  | some live =>
    if failures.isEmpty then (markTasksFinished [live.mark] env.now body).1.getD body
    else (markTaskFinished live.mark env.now body).1.getD body

/-- An entry without the readings of the clock that a completion leaves in it, the time of the next
poke with its jitter included. -/
def timeless (e : TaskEntry) : TaskEntry :=
  { e with
    finishedAt := e.finishedAt.map fun _ => 0
    updatedAt := e.updatedAt.map fun _ => 0
    nextPokeAt := e.nextPokeAt.map fun _ => 0
    nextRetryAt := e.nextRetryAt.map fun _ => 0 }

/-- The entry waits for this completion: no fence drops it. -/
def Awaits (e : TaskEntry) (c : Completion) : Prop :=
  e.state = .running ∧ e.proc = some c.proc ∧ e.attempt = c.attempt ∧ ∀ n ∈ c.poke, e.poke = n

/-- What is left of a completion whose writes failed. -/
theorem retried_eq (q : Queue) (ref : RunRef) (c : Completion) (failures : List Time) :
    retried q ref c failures = if failures.isEmpty then c else c.queued := by
  have hfail : ∀ (q : Queue) (c : Completion) (now : Time),
      (failWrite ref (q, c) now).2 = c.queued := by
    intro q c now
    simp [failWrite, queueCompletion]
  -- what was queued once is queued unchanged
  have hrest : ∀ (failures : List Time) (q : Queue),
      (failures.foldl (failWrite ref) (q, c.queued)).2 = c.queued := by
    intro failures
    induction failures with
    | nil => exact fun _ => rfl
    | cons now failures ih =>
      intro q
      have hnext := hfail q c.queued now
      rw [List.foldl_cons, ← Prod.mk.eta (p := failWrite ref (q, c.queued) now), hnext]
      exact ih _
  cases failures with
  | nil => rfl
  | cons now failures =>
    rw [retried, List.foldl_cons, ← Prod.mk.eta (p := failWrite ref (q, c) now), hfail]
    exact hrest failures _

/-- Both transforms write the entry behind the same fence. -/
theorem get?_record {spec : DagSpec} {task : TaskSpec} {c : Completion}
    (hknown : spec.byId.get? c.taskId = some task) (q : Queue) (ref : RunRef)
    (failures : List Time) (env : Env) (body : RunBody) :
    ∃ jitter, (record spec q ref c failures env body).tasks.get? c.taskkey =
      (body.tasks.get? c.taskkey).map fun e =>
        (finishEntry env.now (mark ⟨retried q ref c failures, task, jitter⟩) e).getD e := by
  have hwritten : ∀ (m : CompletionMark), m.taskkey = c.taskkey →
      ((applyOne m.taskkey (finishEntry env.now m) env.now body).1.getD body).tasks.get? c.taskkey =
        (body.tasks.get? c.taskkey).map fun e => (finishEntry env.now m e).getD e := by
    intro m hkey
    rw [hkey]
    unfold applyOne
    cases hget : body.tasks.get? c.taskkey with
    | none => simp [hget]
    | some e =>
      cases hfinish : finishEntry env.now m e with
      | none => simp [hget, hfinish]
      | some e' => simp [hfinish, RunBody.setEntry]
  have hkept : (retried q ref c failures).taskId = c.taskId ∧
      (retried q ref c failures).taskkey = c.taskkey := by
    rw [retried_eq]
    split_ifs <;> exact ⟨rfl, rfl⟩
  refine ⟨if task.type = .sensor then env.jitter (retried q ref c failures) else 0, ?_⟩
  unfold record Env.live
  rw [hkept.1, hknown, map_some, ← hwritten _ hkept.2]
  dsimp only
  by_cases hnone : failures.isEmpty
  · -- the flush batches even one completion
    have hbatch := storeBatch_eq_applySingles CompletionMark.taskkey (finishEntry env.now) env.now
    rw [if_pos hnone]
    exact congrArg (fun s => s.1.tasks.get? c.taskkey) (hbatch [_] body)
  · -- a queued completion has neither verification nor limits
    rw [if_neg hnone, retried_eq, if_neg hnone, markTaskFinished_eq rfl rfl]

/-- What two writes of a completion leave differs in the verification and the limits only. -/
theorem timeless_completedEntry (c c' : Completion) (hqueued : c.queued = c'.queued)
    (task : TaskSpec) (now now' jitter jitter' : Time) (e : TaskEntry) :
    timeless (completedEntry now (mark ⟨c, task, jitter⟩) e) =
      { timeless (completedEntry now' (mark ⟨c', task, jitter'⟩) e) with
        verification := c.verification.or e.verification
        limits := c.limits.or e.limits } := by
  simp only [Completion.queued, Completion.mk.injEq] at hqueued
  obtain ⟨_, _, hsuccess, hexit, hreason, _, _, _, hresources, -⟩ := hqueued
  by_cases hsensor : task.type = .sensor
  · by_cases hdone : c'.success <;>
      simp [timeless, completedEntry, finishSensor, mark, hsensor, hsuccess, hresources, hdone]
  · by_cases hdone : c'.success
    · simp [timeless, completedEntry, finishPlain, mark, hsensor, hsuccess, hexit, hresources,
        hdone]
    · by_cases hretry : e.attempt + 1 < task.maxAttempts <;>
        simp [timeless, completedEntry, finishPlain, mark, hsensor, hsuccess, hexit, hreason,
          hresources, hdone, hretry]

/-- The fence depends on neither the verification nor the limits. -/
theorem finishEntry_mark (c : Completion) (task : TaskSpec) (now jitter : Time) (e : TaskEntry)
    [Decidable (Awaits e c)] :
    finishEntry now (mark ⟨c, task, jitter⟩) e =
      if Awaits e c then some (completedEntry now (mark ⟨c, task, jitter⟩) e) else none := by
  split_ifs with hawaits
  · obtain ⟨hstate, hproc, hattempt, hpoke⟩ := hawaits
    rw [finishEntry_eq_some]
    exact ⟨hstate, by simp [mark, hproc], by simp [mark, hattempt], hpoke, rfl⟩
  · rw [eq_none_iff_forall_ne_some]
    intro e' hfinish
    rw [finishEntry_eq_some] at hfinish
    obtain ⟨hstate, hproc, hattempt, hpoke, -⟩ := hfinish
    exact hawaits ⟨hstate, hproc _ rfl, hattempt _ rfl, hpoke⟩

/-- The entry that is written after any number of failed writes is, apart from timestamps and poke
jitter, the entry the first write would have left, exactly when none failed, the entry does not
wait for the completion, or the completion has no verification and no limits but those the entry
has already. -/
theorem recorded_late_iff {spec : DagSpec} {c : Completion}
    (hknown : (spec.byId.get? c.taskId).isSome) (q : Queue) (ref : RunRef)
    (failures : List Time) (env env' : Env) {body body' : RunBody}
    (hsame : body'.tasks.get? c.taskkey = body.tasks.get? c.taskkey) :
    ((record spec q ref c failures env' body').tasks.get? c.taskkey).map timeless =
        ((record spec q ref c [] env body).tasks.get? c.taskkey).map timeless ↔
      failures = [] ∨ ∀ e ∈ body.tasks.get? c.taskkey, Awaits e c →
        c.verification.or e.verification = e.verification ∧ c.limits.or e.limits = e.limits := by
  classical
  obtain ⟨task, htask⟩ := isSome_iff_exists.mp hknown
  obtain ⟨jitter', hlate⟩ := get?_record htask q ref failures env' body'
  obtain ⟨jitter, hfirst⟩ := get?_record htask q ref [] env body
  have hqueued : (retried q ref c failures).queued = c.queued := by
    rw [retried_eq]
    split_ifs <;> rfl
  rw [hlate, hfirst, hsame, retried_eq q ref c []]
  cases body.tasks.get? c.taskkey with
  | none => simp
  | some e =>
    have hfence : Awaits e (retried q ref c failures) ↔ Awaits e c := by
      rw [retried_eq]
      split_ifs <;> exact Iff.rfl
    simp only [finishEntry_mark, hfence, map_some, Option.some.injEq, mem_def,
      List.isEmpty_nil, if_true, forall_eq']
    by_cases hawaits : Awaits e c
    · -- both write: compare the two fields the queue does not keep
      simp only [hawaits, if_true, getD_some, forall_const]
      rw [timeless_completedEntry _ c hqueued task env'.now env.now jitter' jitter,
        timeless_completedEntry c c rfl task env.now env.now jitter jitter, retried_eq]
      cases failures with
      | nil => simp
      | cons now failures =>
        simp [Completion.queued, eq_comm (a := e.verification), eq_comm (a := e.limits)]
    · simp [hawaits]

/-- The first task of the chain succeeds. -/
def plainCompletion : Completion :=
  { taskkey := "a", taskId := "a", success := true, exitCode := some 0, proc := "p", attempt := 0,
    job := 0 }

/-- The entry of the chain's first task, behind a completion whose writes failed at these times. -/
def chainEntry (c : Completion) (failures : List Time) (now : Time) : Option TaskEntry :=
  (record chainSpec .empty ("chain", "k") c failures ⟨now, fun _ => 0⟩ chainInFlight).tasks.get? "a"

/-- A completion without verification and limits, recorded after two failed writes. -/
theorem recorded_late_iff_plain :
    (chainEntry plainCompletion [2, 4] 7).map timeless =
      (chainEntry plainCompletion [] 2).map timeless := by
  refine (recorded_late_iff (c := plainCompletion) (by decide +kernel) .empty ("chain", "k") [2, 4]
    ⟨2, fun _ => 0⟩ ⟨7, fun _ => 0⟩ rfl).mpr (.inr fun e _ _ => ?_)
  exact ⟨none_or, none_or⟩

/-- The first task succeeds and its check passed. -/
def verifiedCompletion : Completion :=
  { plainCompletion with verification := some [("outcome", .str "success")] }

/-- One failed write loses the verification. -/
theorem retried_loses_verification :
    (chainEntry verifiedCompletion [2] 7).map timeless ≠
      (chainEntry verifiedCompletion [] 2).map timeless := by
  intro hsame
  have hverified := congrArg (Option.map fun e => e.verification.isSome) hsame
  revert hverified
  decide +kernel

end Cronstable.Dag.Completions

import Cronstable.Dag.Quiescence

/-!
# The run-document transforms

Every write to a run document is a transform that the store applies under the document's lock:
the advance passes, the pid and completion writes of a launch batch, the release of claims the
driver never received, an approval decision and the recovery after a crash. A transform returns
the document to store, or `none` to keep the stored one.

The batched writes share one loop (`applyBatch`): each element is fenced against the entry at its
own key and rewrites that entry alone.

`Op` is the union of the transforms and `Reachable spec` the documents that some sequence of them
produces from a fresh run.
-/

namespace Cronstable.Dag

/-! ## Crash recovery -/

/-- `_has_live_process`. -/
def hasLiveProcess (proc host : String) (isPidAlive : ℤ → Bool) (entry : TaskEntry) : Bool :=
  match entry.proc with
  | none => false
  | some owner =>
    decide (owner = proc) || (decide (entry.host = some host) && entry.pid.any isPidAlive)

/-- `_reconcile_one`: an interrupted poke is cleared, an interrupted attempt is spent. -/
def reconcileOne (task : Option TaskSpec) (now : Time) (entry : TaskEntry) : TaskEntry :=
  if task.any (·.type == .sensor) then
    { entry with proc := none, pid := none, nextPokeAt := some now, updatedAt := some now }
  else if entry.attempt + 1 < task.elim 1 TaskSpec.maxAttempts then
    { entry with
      proc := none
      pid := none
      attempt := entry.attempt + 1
      state := .upForRetry
      failReason := some "reconciled-crash"
      nextRetryAt := some now
      updatedAt := some now }
  else
    { entry with
      proc := none
      pid := none
      attempt := entry.attempt + 1
      state := .failed
      failReason := some "reconciled-crash"
      finishedAt := some now
      updatedAt := some now }

section Reconcile

variable (spec : DagSpec) (now : Time) (proc host : String) (isPidAlive : ℤ → Bool)

/-- Whether the reconcile loop recovers an entry. -/
def crashed (entry : TaskEntry) : Bool :=
  entry.state == .running && !entry.awaitingApproval && entry.proc.isSome &&
    !hasLiveProcess proc host isPidAlive entry

variable {proc host isPidAlive} in
/-- A crashed entry is running under a proc token, and no gate. -/
theorem running_of_crashed {entry : TaskEntry}
    (h : crashed proc host isPidAlive entry = true) :
    entry.state = .running ∧ entry.awaitingApproval = false ∧ entry.proc ≠ none := by
  simp only [crashed, Bool.and_eq_true, beq_iff_eq, Bool.not_eq_true', Option.isSome_iff_ne_none]
    at h
  exact ⟨h.1.1.1, h.1.1.2, h.1.2⟩

/-- The reconcile loop on one entry. -/
def reconcileEntry (entry : TaskEntry) : TaskEntry :=
  if crashed proc host isPidAlive entry then
    reconcileOne (entry.id.bind spec.byId.get?) now entry
  else entry

/-- `_reconcile_entries`: the recovered document and how many entries were recovered. -/
def reconcileEntries (body : RunBody) : RunBody × ℕ :=
  ({ body with
      tasks := body.tasks.mapVal fun _ => reconcileEntry spec now proc host isPidAlive },
    body.tasks.values.countP (crashed proc host isPidAlive))

/-- `reconcile_crashed`. -/
def reconcileCrashed (body : RunBody) : Option RunBody × ℕ :=
  if body.terminalRun then (none, 0)
  else
    let reconciled := reconcileEntries spec now proc host isPidAlive body
    if reconciled.2 = 0 then (none, 0)
    else (some { reconciled.1 with updatedAt := now }, reconciled.2)

end Reconcile

/-! ## Advance passes -/

/-- What `reconcile_and_plan` decided. -/
structure ReconcileAdvanceResult where
  reconciled : ℕ := 0
  /-- Only the reconcile half ran: the item lists have to be read first. -/
  expansionsNeeded : Bool := false
  advance : Option AdvanceResult := some {}

section Advance

variable (spec : DagSpec) (now : Time) (proc host : String)

/-- The pass of `plan_and_claim` without its pre-scan. -/
def fullPlan (expansions : Expansions) (body : RunBody) : Pass :=
  maybeTerminalise spec
    (propagateAndClaim spec now proc host
      (applyExpansions spec expansions now { body }))

/-- `plan_and_claim` on a document without null shapes. -/
def planAndClaim (expansions : Expansions) (body : RunBody) : Option RunBody × AdvanceResult :=
  if body.terminalRun then (none, {})
  else if isQuiescent spec body now proc expansions then (none, {})
  else
    let p := fullPlan spec now proc host expansions body
    if p.result.changed then (some { p.body with updatedAt := now }, p.result)
    else (none, p.result)

/-- `reconcile_and_plan` on a document without null shapes. -/
def reconcileAndPlan (isPidAlive : ℤ → Bool) (body : RunBody) :
    Option RunBody × ReconcileAdvanceResult :=
  if body.terminalRun then (none, {})
  else if isQuiescent spec body now proc .empty then (none, {})
  else
    let reconciled := reconcileEntries spec now proc host isPidAlive body
    if !(tasksAwaitingExpansion spec reconciled.1).isEmpty then
      -- the driver reads the lists and claims in a second transform
      let result : ReconcileAdvanceResult :=
        { reconciled := reconciled.2, expansionsNeeded := true, advance := none }
      if reconciled.2 = 0 then (none, result)
      else (some { reconciled.1 with updatedAt := now }, result)
    else
      let p := maybeTerminalise spec
        (propagateAndClaim spec now proc host { body := reconciled.1 })
      let result : ReconcileAdvanceResult :=
        { reconciled := reconciled.2, advance := some p.result }
      if !p.result.changed && decide (reconciled.2 = 0) then (none, result)
      else (some { p.body with updatedAt := now }, result)

/-- `plan_and_claim` on what the store holds. -/
def planAndClaimStored (expansions : Expansions) :
    Option StoredBody → Except String (Option RunBody × AdvanceResult)
  | none => .ok (none, {})
  | some stored =>
    if stored.body.terminalRun then .ok (none, {})
    else do
      refuseNullShapes stored
      .ok (planAndClaim spec now proc host expansions stored.body)

/-- `reconcile_and_plan` on what the store holds. -/
def reconcileAndPlanStored (isPidAlive : ℤ → Bool) :
    Option StoredBody → Except String (Option RunBody × ReconcileAdvanceResult)
  | none => .ok (none, {})
  | some stored =>
    if stored.body.terminalRun then .ok (none, {})
    else do
      refuseNullShapes stored
      .ok (reconcileAndPlan spec now proc host isPidAlive stored.body)

end Advance

/-! ## Batched writes -/

/-- The loop the batched writes share. `write` is the fenced write of one element against the
entry at its key, `none` when the fence drops it. Returns the entries and the elements applied. -/
def applyBatch {α : Type} (key : α → String) (write : α → TaskEntry → Option TaskEntry)
    (elements : List α) (tasks : Dict String TaskEntry) : Dict String TaskEntry × List α :=
  elements.foldl
    (fun s a =>
      match (s.1.get? (key a)).bind (write a) with
      | none => s
      | some entry => (s.1.set (key a) entry, s.2 ++ [a]))
    (tasks, [])

/-- A batch that applied nothing left the entries alone. -/
theorem applyBatch_unchanged {α : Type} (key : α → String)
    (write : α → TaskEntry → Option TaskEntry) (elements : List α)
    (tasks : Dict String TaskEntry)
    (h : (applyBatch key write elements tasks).2 = []) :
    (applyBatch key write elements tasks).1 = tasks := by
  refine List.foldlRecOn (motive := fun s : Dict String TaskEntry × List α =>
    s.2 = [] → s.1 = tasks) _ _ (fun _ => rfl) ?_ h
  intro s hs a _
  split
  · exact hs
  · intro hnil
    simp at hnil

/-- Store the entries of a batch that wrote something. -/
def storeBatch {α : Type} (body : RunBody) (now : Time) (batch : Dict String TaskEntry × List α) :
    Option RunBody × List α :=
  if batch.2.isEmpty then (none, [])
  else (some { body with tasks := batch.1, updatedAt := now }, batch.2)

/-- The pid of one just-launched instance. -/
structure PidWrite where
  taskkey : String
  proc : String
  pid : Option ℤ
  attempt : Option ℕ

/-- The fence and the write of `set_task_pids`: state, proc token and attempt. -/
def writePid (now : Time) (w : PidWrite) (entry : TaskEntry) : Option TaskEntry :=
  if entry.state ≠ .running then none
  else if entry.proc ≠ some w.proc then none
  else if w.attempt.any (entry.attempt ≠ ·) then none
  else some { entry with pid := w.pid, updatedAt := some now }

variable {e e' : TaskEntry}

lemma writePid_eq_some {now : Time} {w : PidWrite} :
    writePid now w e = some e' ↔ e.state = .running ∧ e.proc = some w.proc ∧
      (∀ a, w.attempt = some a → e.attempt = a) ∧
      { e with pid := w.pid, updatedAt := some now } = e' := by
  unfold writePid
  cases w.attempt with
  | none => split_ifs with h1 h2 <;> simp_all
  | some a => split_ifs with h1 h2 h3 <;> simp_all

/-- `set_task_pids`; the result is the number of entries written. -/
def setTaskPids (entries : List PidWrite) (now : Time) (body : RunBody) : Option RunBody × ℕ :=
  let stored := storeBatch body now (applyBatch PidWrite.taskkey (writePid now) entries body.tasks)
  (stored.1, stored.2.length)

/-- One claim whose launch intent the driver never received. -/
structure LostClaim where
  taskkey : String
  proc : String
  attempt : ℕ
  poke : ℕ

/-- A released claim: a plain task returns to pending, a sensor idles, due now. -/
def releasedEntry (spec : DagSpec) (now : Time) (entry : TaskEntry) : TaskEntry :=
  if (entry.id.bind spec.byId.get?).any (·.type == .sensor) then
    { entry with proc := none, pid := none, nextPokeAt := some now, updatedAt := some now }
  else
    { entry with
      proc := none, pid := none, state := .pending, startedAt := none, updatedAt := some now }

/-- The fence and the write of `release_lost_claims`: state, proc token, attempt and poke. -/
def releaseClaim (spec : DagSpec) (now : Time) (c : LostClaim) (entry : TaskEntry) :
    Option TaskEntry :=
  if entry.state ≠ .running then none
  else if entry.proc ≠ some c.proc then none
  else if entry.attempt ≠ c.attempt then none
  else if entry.poke ≠ c.poke then none
  else some (releasedEntry spec now entry)

lemma releaseClaim_eq_some {spec : DagSpec} {now : Time} {c : LostClaim} :
    releaseClaim spec now c e = some e' ↔ e.state = .running ∧ e.proc = some c.proc ∧
      e.attempt = c.attempt ∧ e.poke = c.poke ∧ releasedEntry spec now e = e' := by
  unfold releaseClaim
  split_ifs with h1 h2 h3 h4 <;> simp_all

/-- `release_lost_claims`; the result lists the keys released. -/
def releaseLostClaims (spec : DagSpec) (claims : List LostClaim) (now : Time) (body : RunBody) :
    Option RunBody × List String :=
  if body.terminalRun then (none, [])
  else
    let stored := storeBatch body now
      (applyBatch LostClaim.taskkey (releaseClaim spec now) claims body.tasks)
    (stored.1, stored.2.map LostClaim.taskkey)

/-- One finished instance, with the identity of the launch that produced it. -/
structure CompletionMark where
  taskkey : String
  success : Bool
  exitCode : Option ℤ := none
  failReason : Option String := none
  task : TaskSpec
  jitter : Time := 0
  expectedProc : Option String := none
  expectedAttempt : Option ℕ := none
  expectedPoke : Option ℕ := none
  resources : Option JsonObject := none
  verification : Option JsonObject := none
  limits : Option JsonObject := none

/-- `_finish_sensor`: a poke that exited non-zero is rescheduled. -/
def finishSensor (now : Time) (m : CompletionMark) (entry : TaskEntry) : TaskEntry :=
  let polled := { entry with
    proc := none, pid := none, pokeCount := some (entry.poke + 1), updatedAt := some now }
  if m.success then
    { polled with
      state := .success
      finishedAt := some now
      exitCode := some 0
      resources := m.resources.or entry.resources }
  else
    { polled with nextPokeAt := some (now + max 0 m.task.pokeInterval + max 0 m.jitter) }

/-- `_finish_plain`: a failed attempt is retried while attempts remain. -/
def finishPlain (now : Time) (m : CompletionMark) (entry : TaskEntry) : TaskEntry :=
  let exited := { entry with
    proc := none
    pid := none
    exitCode := m.exitCode
    resources := m.resources.or entry.resources
    updatedAt := some now }
  if m.success then
    { exited with state := .success, finishedAt := some now, failReason := none }
  else if entry.attempt + 1 < m.task.maxAttempts then
    { exited with
      attempt := entry.attempt + 1
      state := .upForRetry
      failReason := m.failReason
      nextRetryAt := some (now + max 0 m.task.retryDelay) }
  else
    { exited with
      attempt := entry.attempt + 1
      state := .failed
      failReason := m.failReason
      finishedAt := some now
      nextRetryAt := none }

/-- The entry of a completed instance. -/
def completedEntry (now : Time) (m : CompletionMark) (entry : TaskEntry) : TaskEntry :=
  let finished :=
    if m.task.type = .sensor then finishSensor now m entry else finishPlain now m entry
  { finished with
    verification := m.verification.or finished.verification
    limits := m.limits.or finished.limits }

/-- The fence and the write of `mark_tasks_finished`: state, proc token, attempt and poke. -/
def finishEntry (now : Time) (m : CompletionMark) (entry : TaskEntry) : Option TaskEntry :=
  if entry.state ≠ .running then none
  else if m.expectedProc.any (entry.proc ≠ some ·) then none
  else if m.expectedAttempt.any (entry.attempt ≠ ·) then none
  else if m.expectedPoke.any (entry.poke ≠ ·) then none
  else some (completedEntry now m entry)

lemma finishEntry_eq_some {now : Time} {m : CompletionMark} :
    finishEntry now m e = some e' ↔ e.state = .running ∧
      (∀ proc, m.expectedProc = some proc → e.proc = some proc) ∧
      (∀ a, m.expectedAttempt = some a → e.attempt = a) ∧
      (∀ n, m.expectedPoke = some n → e.poke = n) ∧ completedEntry now m e = e' := by
  unfold finishEntry
  cases m.expectedProc <;> cases m.expectedAttempt <;> cases m.expectedPoke <;>
    split_ifs <;> simp_all

/-- `mark_tasks_finished`; the result lists the keys applied. -/
def markTasksFinished (marks : List CompletionMark) (now : Time) (body : RunBody) :
    Option RunBody × List String :=
  let stored := storeBatch body now
    (applyBatch CompletionMark.taskkey (finishEntry now) marks body.tasks)
  (stored.1, stored.2.map CompletionMark.taskkey)

/-! ## Approval -/

/-- The entry of a decided gate. -/
def decideEntry (approved : Bool) (decidedBy : String) (now : Time) (onReject : TaskState)
    (entry : TaskEntry) : TaskEntry :=
  { entry with
    awaitingApproval := false
    approval := some { approved, decidedBy, decidedAt := now }
    finishedAt := some now
    state := if approved then .success else if onReject = .skipped then .skipped else .failed
    updatedAt := some now }

/-- `apply_approval`; the result is the state of the gate or the reason of the refusal. -/
def applyApproval (taskkey : String) (approved : Bool) (decidedBy : String) (now : Time)
    (onReject : TaskState) (body : RunBody) : Option RunBody × Except String TaskState :=
  match body.tasks.get? taskkey with
  | none => (none, .error "no such task")
  | some entry =>
    if entry.state ≠ .running ∨ entry.awaitingApproval = false then
      (none, .error "task is not awaiting approval")
    else
      let decided := decideEntry approved decidedBy now onReject entry
      (some { body.setEntry taskkey decided with updatedAt := now }, .ok decided.state)

/-! ## Runs -/

/-- One transform with its arguments. -/
inductive Op
  | plan (now : Time) (proc host : String) (expansions : Expansions)
  | reconcilePlan (now : Time) (proc host : String) (isPidAlive : ℤ → Bool)
  | reconcile (now : Time) (proc host : String) (isPidAlive : ℤ → Bool)
  | pids (entries : List PidWrite) (now : Time)
  | finish (marks : List CompletionMark) (now : Time)
  | release (claims : List LostClaim) (now : Time)
  | approve (taskkey : String) (approved : Bool) (decidedBy : String) (now : Time)
      (onReject : TaskState)

/-- The document a transform asks to store, `none` to keep the stored one. -/
def Op.write (spec : DagSpec) (body : RunBody) : Op → Option RunBody
  | .plan now proc host expansions => (planAndClaim spec now proc host expansions body).1
  | .reconcilePlan now proc host alive => (reconcileAndPlan spec now proc host alive body).1
  | .reconcile now proc host alive => (reconcileCrashed spec now proc host alive body).1
  | .pids entries now => (setTaskPids entries now body).1
  | .finish marks now => (markTasksFinished marks now body).1
  | .release claims now => (releaseLostClaims spec claims now body).1
  | .approve taskkey approved decidedBy now onReject =>
    (applyApproval taskkey approved decidedBy now onReject body).1

/-- The document stored after a transform. -/
def Op.apply (spec : DagSpec) (op : Op) (body : RunBody) : RunBody :=
  (op.write spec body).getD body

/-- The launches a transform hands to the driver. -/
def Op.launches (spec : DagSpec) (body : RunBody) : Op → List LaunchIntent
  | .plan now proc host expansions =>
    (planAndClaim spec now proc host expansions body).2.launches
  | .reconcilePlan now proc host alive =>
    (reconcileAndPlan spec now proc host alive body).2.advance.elim [] (·.launches)
  | _ => []

/-- The completions a transform applies. -/
def Op.completions (body : RunBody) : Op → List CompletionMark
  | .finish marks now =>
    (applyBatch CompletionMark.taskkey (finishEntry now) marks body.tasks).2
  | _ => []

/-- The documents of a DAG's runs: a fresh one, and whatever a transform makes of one. -/
inductive Reachable (spec : DagSpec) : RunBody → Prop
  | fresh (dag runKey runId : String) (logicalDate : Option String) (kind : String) (now : Time) :
      Reachable spec (newRunBody dag runKey runId logicalDate kind now spec)
  | step {body : RunBody} (op : Op) :
      Reachable spec body → Reachable spec (op.apply spec body)

end Cronstable.Dag

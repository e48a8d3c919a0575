import Cronstable.Dag.Holes
import Cronstable.Dag.Progress

/-!
# Fused and batched writes

A run document is written under a lock, and each write costs a parse, a rewrite and an `fsync` of
the whole document. The driver saves writes in two ways: a launch batch or a reaper flush applies
its pid records or completion marks in one transform (`set_task_pids`, `mark_tasks_finished`), and
an advance recovers crashed entries and claims ready ones in one transform (`reconcile_and_plan`).
Both are invisible in the document and in what the driver is told: a batch is the fold of the
single transforms, and the fused advance is its two halves one after the other.
-/

namespace Cronstable.Dag

open List Option Pass CompletionMark

/-! ## The single transforms -/

/-- `set_task_pid`. -/
def setTaskPid (w : PidWrite) (now : Time) (body : RunBody) : Option RunBody × Bool :=
  match body.tasks.get? w.taskkey with
  | none => (none, false)
  | some entry =>
    if entry.state ≠ .running then (none, false)
    -- the entry was re-claimed by another owner
    else if entry.proc ≠ some w.proc then (none, false)
    -- a newer attempt is the live one
    else if w.attempt.any (entry.attempt ≠ ·) then (none, false)
    else
      let entry := { entry with pid := w.pid, updatedAt := some now }
      (some { body.setEntry w.taskkey entry with updatedAt := now }, true)

/-- `mark_task_finished`, which takes no verification and no limits. -/
def markTaskFinished (m : CompletionMark) (now : Time) (body : RunBody) :
    Option RunBody × Bool :=
  match body.tasks.get? m.taskkey with
  | none => (none, false)
  | some entry =>
    -- already reconciled or terminal: a duplicate completion
    if entry.state ≠ .running then (none, false)
    else if m.expectedProc.any (entry.proc ≠ some ·) then (none, false)
    else if m.expectedAttempt.any (entry.attempt ≠ ·) then (none, false)
    -- proc and attempt do not tell the pokes of one sensor apart
    else if m.expectedPoke.any (entry.poke ≠ ·) then (none, false)
    else
      let finished :=
        if m.task.type = .sensor then finishSensor now m entry else finishPlain now m entry
      (some { body.setEntry m.taskkey finished with updatedAt := now }, true)

section Singles

variable {α : Type}

/-- Apply a single transform for one element after the other, each to the document the one before
it left. Returns the last document and the elements that applied. -/
def applySingles (single : α → RunBody → Option RunBody × Bool) (elements : List α)
    (body : RunBody) : RunBody × List α :=
  elements.foldl
    (fun s a =>
      let written := single a s.1
      (written.1.getD s.1, if written.2 then s.2 ++ [a] else s.2))
    (body, [])

/-- The fenced write of one entry as a transform of its own. -/
def applyOne (taskkey : String) (write : TaskEntry → Option TaskEntry) (now : Time)
    (body : RunBody) : Option RunBody × Bool :=
  match (body.tasks.get? taskkey).bind write with
  | none => (none, false)
  | some entry => (some { body.setEntry taskkey entry with updatedAt := now }, true)

lemma setTaskPid_eq (w : PidWrite) (now : Time) (body : RunBody) :
    setTaskPid w now body = applyOne w.taskkey (writePid now w) now body := by
  unfold setTaskPid applyOne
  cases body.tasks.get? w.taskkey with
  | none => rfl
  | some entry =>
    simp only [bind_some, writePid]
    split_ifs <;> rfl

/-- A mark without verification and limits is written as the single transform writes it. -/
theorem markTaskFinished_eq {m : CompletionMark} (hver : m.verification = none)
    (hlim : m.limits = none) (now : Time) (body : RunBody) :
    markTaskFinished m now body = applyOne m.taskkey (finishEntry now m) now body := by
  unfold markTaskFinished applyOne
  cases body.tasks.get? m.taskkey with
  | none => rfl
  | some entry =>
    simp only [bind_some, finishEntry]
    split_ifs <;> simp_all [completedEntry]

/-- The document after the part of a batch that led to `s`. -/
private def written (body : RunBody) (now : Time) (s : Dict String TaskEntry × List α) : RunBody :=
  { body with tasks := s.1, updatedAt := if s.2.isEmpty then body.updatedAt else now }

/-- A batch is the fold of its single writes: the induction is over the elements, and a prefix of
the fold leaves the document `written` of the batch's own state after that prefix. -/
theorem storeBatch_eq_applySingles (key : α → String)
    (write : α → TaskEntry → Option TaskEntry) (now : Time) (elements : List α)
    (body : RunBody) :
    let once := storeBatch body now (applyBatch key write elements body.tasks)
    (once.1.getD body, once.2) =
      applySingles (fun a => applyOne (key a) (write a) now) elements body := by
  have hfold : applySingles (fun a => applyOne (key a) (write a) now) elements body =
      (written body now (applyBatch key write elements body.tasks),
        (applyBatch key write elements body.tasks).2) := by
    change List.foldl _ (written body now (body.tasks, ([] : List α)), []) elements = _
    refine foldl_hom (fun s => (written body now s, s.2)) ?_
    rintro ⟨tasks, applied⟩ a
    cases hwrite : (tasks.get? (key a)).bind (write a) with
    | none => simp [applyOne, written, hwrite]
    | some entry => simp [applyOne, written, hwrite, RunBody.setEntry]
  intro once
  rw [hfold]
  by_cases hempty : (applyBatch key write elements body.tasks).2 = []
  · have hkept := applyBatch_unchanged key write elements body.tasks hempty
    simp [once, storeBatch, written, hempty, hkept]
  · simp [once, storeBatch, written, hempty]

end Singles

/-- Batching changes nothing: one batch of pid records, or of completion marks without
verification and limits, leaves the document that the single transforms leave one after the other,
and reports the records, or the task keys, that those apply. Keys may repeat, so an earlier mark
can end or re-arm the entry that a later one names. -/
theorem batch_eq_singles (now : Time) (body : RunBody) :
    (∀ entries : List PidWrite,
      let once := setTaskPids entries now body
      let folded := applySingles (fun w => setTaskPid w now) entries body
      once.1.getD body = folded.1 ∧ once.2 = folded.2.length) ∧
    (∀ marks : List CompletionMark,
      (∀ m ∈ marks, m.verification = none ∧ m.limits = none) →
      let once := markTasksFinished marks now body
      let folded := applySingles (fun m => markTaskFinished m now) marks body
      once.1.getD body = folded.1 ∧ once.2 = folded.2.map CompletionMark.taskkey) := by
  constructor
  · intro entries
    have hsingle : (fun w => setTaskPid w now) =
        fun w => applyOne (PidWrite.taskkey w) (writePid now w) now := by
      ext1 w
      ext1 body
      exact setTaskPid_eq w now body
    have hbatch := storeBatch_eq_applySingles PidWrite.taskkey (writePid now) now entries body
    rw [hsingle, ← hbatch]
    exact ⟨rfl, rfl⟩
  · intro marks hplain
    have hsingle : applySingles (fun m => markTaskFinished m now) marks body =
        applySingles (fun m => applyOne (taskkey m) (finishEntry now m) now) marks
          body := by
      apply foldl_ext
      intro s m hm
      simp only [markTaskFinished_eq (hplain m hm).1 (hplain m hm).2]
    have hbatch :=
      storeBatch_eq_applySingles taskkey (finishEntry now) now marks body
    rw [hsingle, ← hbatch]
    exact ⟨rfl, rfl⟩

/-- Two completions of the chain's first task, the second a duplicate. -/
def doubleMarks : List CompletionMark :=
  [{ taskkey := "a", success := true, exitCode := some 0, task := { id := "a" } },
    { taskkey := "a", success := false, exitCode := some 1, task := { id := "a" } }]

theorem batch_eq_singles_duplicate :
    (markTasksFinished doubleMarks 3 chainInFlight).2 = ["a"] ∧
      (markTasksFinished doubleMarks 3 chainInFlight).1.getD chainInFlight =
        (applySingles (fun m => markTaskFinished m 3) doubleMarks chainInFlight).1 :=
  ⟨by decide +kernel,
    ((batch_eq_singles 3 chainInFlight).2 doubleMarks (by simp [doubleMarks])).1⟩

/-! ## The fused advance -/

section Stamp

variable (u : Time)

/-- A pass on the same document with another `updatedAt`. -/
def Pass.stamp (p : Pass) : Pass := { p with body := { p.body with updatedAt := u } }

@[simp]
lemma Pass.stamp_result (p : Pass) : (p.stamp u).result = p.result := rfl

@[simp]
lemma Pass.stamp_tasks (p : Pass) : (p.stamp u).body.tasks = p.body.tasks := rfl

@[simp]
lemma Pass.stamp_mapped (p : Pass) : (p.stamp u).body.mapped = p.body.mapped := rfl

variable (spec : DagSpec) (now : Time) (proc host : String) (p : Pass)

private lemma depsVerdict_stamp (t : TaskSpec) :
    depsVerdict spec (p.stamp u).body t = depsVerdict spec p.body t := rfl

private lemma effectiveState_stamp (id : String) :
    effectiveState spec (p.stamp u).body id = effectiveState spec p.body id := rfl

private lemma instancesOf_stamp (t : TaskSpec) :
    instancesOf (p.stamp u).body t = instancesOf p.body t := rfl

private lemma terminalScan_stamp (tasks : List TaskSpec) (failed : Bool) :
    terminalScan (p.stamp u).body tasks failed = terminalScan p.body tasks failed := by
  induction tasks generalizing failed with
  | nil => rfl
  | cons t tasks ih => simp only [terminalScan, stamp_tasks, stamp_mapped, ih]

/-- A loop over the instances commutes with the stamp when its body does. -/
private lemma foldl_stamp {σ : Type} {f : Pass × σ → Instance → Pass × σ}
    (hf : ∀ s inst, f (s.1.stamp u, s.2) inst = ((f s inst).1.stamp u, (f s inst).2))
    (insts : List Instance) (c : σ) :
    (insts.foldl f (p.stamp u, c)).1 = (insts.foldl f (p, c)).1.stamp u := by
  change (insts.foldl f ((fun s : Pass × σ => (s.1.stamp u, s.2)) (p, c))).1 = _
  rw [foldl_hom (fun s : Pass × σ => (s.1.stamp u, s.2)) hf]

/-! No part of the pass reads or writes the document's own `updatedAt`. -/

private lemma propagatePlaceholder_stamp (t : TaskSpec) :
    propagatePlaceholder spec t now (p.stamp u) = (propagatePlaceholder spec t now p).stamp u := by
  have hstale : ∀ e, resolveStalePlaceholder t.id e now (p.stamp u) =
      (resolveStalePlaceholder t.id e now p).stamp u := by
    intro e
    unfold resolveStalePlaceholder
    split_ifs <;> rfl
  unfold propagatePlaceholder
  simp only [stamp_tasks, stamp_mapped, depsVerdict_stamp, effectiveState_stamp, hstale]
  cases p.body.tasks.get? t.id with
  | none => rfl
  | some entry =>
    by_cases hpending : entry.state = .pending
    · simp only [hpending, ne_eq, not_true, if_false]
      cases t.expand with
      | none => cases depsVerdict spec p.body t <;> rfl
      | some exp =>
        cases hsource : p.body.tasks.contains exp.fromTask || p.body.mapped.contains exp.fromTask
        · simp only [hsource, Bool.not_false, if_true]
          rfl
        · simp only [hsource, Bool.not_true, Bool.false_eq_true, if_false]
          cases effectiveState spec p.body exp.fromTask <;> cases depsVerdict spec p.body t <;> rfl
    · simp only [ne_eq, hpending, not_false_eq_true, if_true]

private lemma walkTask_stamp (t : TaskSpec) :
    walkTask spec now proc host (p.stamp u) t = (walkTask spec now proc host p t).stamp u := by
  have hinst : ∀ (s : Pass × Option Verdict) (inst : Instance),
      walkInstance spec now proc host t (s.1.stamp u, s.2) inst =
        ((walkInstance spec now proc host t s inst).1.stamp u,
          (walkInstance spec now proc host t s inst).2) := by
    intro s inst
    unfold walkInstance
    simp only [stamp_tasks, depsVerdict_stamp]
    cases s.1.body.tasks.get? inst.key with
    | some entry => rfl
    | none => cases inst.mapIndex <;> rfl
  unfold walkTask
  simp only [stamp_tasks, stamp_mapped, stamp_result, depsVerdict_stamp,
    instancesOf_stamp, foldl_stamp u p hinst, propagatePlaceholder_stamp]
  split_ifs
  · rfl
  · cases p.body.tasks.get? t.id with
    | none => rfl
    | some entry =>
      simp only
      by_cases hroot : entry.state = .pending ∧ p.result.deferred = true ∧
          t.dependsOn.isEmpty = true ∧ t.type ≠ .approval
      · exact (if_pos hroot).trans (congrArg (stamp u) (if_pos hroot)).symm
      · rw [if_neg hroot]
        exact if_neg hroot
  · rfl

private lemma settleTask_stamp (t : TaskSpec) :
    settleTask spec now (p.stamp u) t = (settleTask spec now p t).stamp u := by
  have hinst : ∀ (s : Pass × Option Verdict × Bool) (inst : Instance),
      settleInstance spec now t (s.1.stamp u, s.2) inst =
        ((settleInstance spec now t s inst).1.stamp u, (settleInstance spec now t s inst).2) := by
    intro s inst
    unfold settleInstance
    simp only [stamp_tasks, depsVerdict_stamp]
    split_ifs
    · rfl
    · cases s.1.body.tasks.get? inst.key with
      | none => rfl
      | some entry =>
        simp only
        split_ifs
        · rfl
        · cases s.2.1.getD (depsVerdict spec s.1.body t) <;> rfl
  unfold settleTask
  simp only [stamp_mapped, instancesOf_stamp, foldl_stamp u p hinst,
    propagatePlaceholder_stamp]
  split_ifs <;> rfl

private lemma walkAndClaim_stamp :
    walkAndClaim spec now proc host (p.stamp u) = (walkAndClaim spec now proc host p).stamp u :=
  foldl_hom (stamp u) fun q t => walkTask_stamp u spec now proc host q t

private lemma claimLoop_stamp (fuel settled : ℕ) :
    claimLoop spec now proc host fuel settled (p.stamp u) =
      (claimLoop spec now proc host fuel settled p).stamp u := by
  induction fuel generalizing settled p with
  | zero => rfl
  | succ fuel ih =>
    unfold claimLoop
    by_cases hended : settled < p.result.ended
    · rw [if_pos hended, if_pos (by exact hended)]
      cases upstreamFirst spec with
      | none => rfl
      | some order =>
        have hsettle : settleDependents spec now order (p.stamp u) =
            (settleDependents spec now order p).stamp u :=
          foldl_hom (stamp u) fun q t => settleTask_stamp u spec now q t
        simp only [hsettle, stamp_result, walkAndClaim_stamp, ih]
    · rw [if_neg hended, if_neg (by exact hended)]

/-- The claim half of a pass commutes with the stamp. -/
theorem claimHalf_stamp :
    maybeTerminalise spec (propagateAndClaim spec now proc host (p.stamp u)) =
      (maybeTerminalise spec (propagateAndClaim spec now proc host p)).stamp u := by
  have hclaim : propagateAndClaim spec now proc host (p.stamp u) =
      (propagateAndClaim spec now proc host p).stamp u := by
    unfold propagateAndClaim
    rw [walkAndClaim_stamp, claimLoop_stamp]
    rfl
  rw [hclaim]
  unfold maybeTerminalise
  rw [terminalScan_stamp]
  cases terminalScan (propagateAndClaim spec now proc host p).body spec.tasks false <;> rfl

end Stamp

section Halves

variable {spec : DagSpec} {body : RunBody}

/-- A recovery that finds no crashed entry leaves the document as it is. -/
private lemma reconcileEntries_of_none (now : Time) (proc host : String)
    (isPidAlive : ℤ → Bool)
    (h : (reconcileEntries spec now proc host isPidAlive body).2 = 0) :
    (reconcileEntries spec now proc host isPidAlive body).1 = body := by
  have htasks : body.tasks.mapVal (fun _ => reconcileEntry spec now proc host isPidAlive) =
      body.tasks := by
    apply Dict.ext
    refine (map_congr_left ?_).trans (map_id _)
    rintro ⟨key, e⟩ hmem
    have halive := countP_eq_zero.mp h e (mem_map_of_mem hmem)
    simp [reconcileEntry, halive]
  simp only [reconcileEntries, htasks]

/-- Neither half does anything on a document that the pre-scan calls quiescent. -/
private lemma halves_of_isQuiescent (hvalid : validateGraph spec = .ok ())
    (hreach : Reachable spec body) {now : Time} {proc : String}
    (hquiet : isQuiescent spec body now proc .empty = true) (host : String)
    (isPidAlive : ℤ → Bool) :
    reconcileEntries spec now proc host isPidAlive body = (body, 0) ∧
      fullPlan spec now proc host .empty body = { body } := by
  have hpass := fullPass_eq_of_isQuiescent hvalid hreach now proc host isPidAlive .empty hquiet
  have hnone : (reconcileEntries spec now proc host isPidAlive body).2 = 0 :=
    congrArg Prod.snd hpass
  have hsame := reconcileEntries_of_none now proc host isPidAlive hnone
  refine ⟨Prod.ext hsame hnone, ?_⟩
  rw [← hsame]
  exact (congrArg Prod.fst hpass).trans (by rw [hsame])

section Open

variable (hvalid : validateGraph spec = .ok ()) (hreach : Reachable spec body)
  (hopen : body.terminalRun = false) (now : Time) (proc host : String) (isPidAlive : ℤ → Bool)
include hvalid hreach hopen

/-- On the document of an open run the pre-scan of `plan_and_claim` decides nothing. -/
private lemma planAndClaim_eq :
    planAndClaim spec now proc host .empty body =
      let p := fullPlan spec now proc host .empty body
      if p.result.changed then (some { p.body with updatedAt := now }, p.result)
      else (none, p.result) := by
  unfold planAndClaim
  cases hquiet : isQuiescent spec body now proc .empty with
  | false => simp [hopen]
  | true =>
    obtain ⟨-, hplan⟩ := halves_of_isQuiescent hvalid hreach hquiet host fun _ => true
    simp [hopen, hplan]

/-- On the document of an open run the pre-scan of `reconcile_and_plan` decides nothing. -/
private lemma reconcileAndPlan_eq :
    reconcileAndPlan spec now proc host isPidAlive body =
      let reconciled := reconcileEntries spec now proc host isPidAlive body
      let p := fullPlan spec now proc host .empty reconciled.1
      if tasksAwaitingExpansion spec reconciled.1 ≠ [] then
        (if reconciled.2 = 0 then none else some { reconciled.1 with updatedAt := now },
          { reconciled := reconciled.2, expansionsNeeded := true, advance := none })
      else
        (if p.result.changed = false ∧ reconciled.2 = 0 then none
          else some { p.body with updatedAt := now },
          { reconciled := reconciled.2, advance := some p.result }) := by
  have hclaim : ∀ b, maybeTerminalise spec (propagateAndClaim spec now proc host { body := b }) =
      fullPlan spec now proc host .empty b := fun _ => rfl
  unfold reconcileAndPlan
  simp only [hopen, hclaim, Bool.false_eq_true, if_false]
  cases hquiet : isQuiescent spec body now proc .empty with
  | false =>
    simp only [Bool.false_eq_true, if_false, Bool.not_eq_true', isEmpty_eq_false_iff,
      Bool.and_eq_true, decide_eq_true_eq]
    split_ifs <;> rfl
  | true =>
    obtain ⟨hrec, hplan⟩ := halves_of_isQuiescent hvalid hreach hquiet host isPidAlive
    simp [hrec, hplan, (isQuiescent_iff.mp hquiet).2.1]

end Open

/-- The fused advance is its two halves. When no task awaits its item list after the recovery,
`reconcile_and_plan` leaves the document that `reconcile_crashed` and then `plan_and_claim` leave,
recovers the same entries and reports the same result of the claim half, launches and terminal
verdict included; when one does, it is `reconcile_crashed` alone. -/
theorem reconcileAndPlan_eq_halves (hvalid : validateGraph spec = .ok ())
    (hreach : Reachable spec body) (now : Time) (proc host : String) (isPidAlive : ℤ → Bool) :
    let fused := reconcileAndPlan spec now proc host isPidAlive body
    let first := reconcileCrashed spec now proc host isPidAlive body
    let recovered := first.1.getD body
    let second := planAndClaim spec now proc host .empty recovered
    (tasksAwaitingExpansion spec recovered = [] →
      fused.1.getD body = second.1.getD recovered ∧
      fused.2 =
        { reconciled := first.2, expansionsNeeded := false, advance := some second.2 }) ∧
    (tasksAwaitingExpansion spec recovered ≠ [] →
      fused.1.getD body = recovered ∧
      fused.2 = { reconciled := first.2, expansionsNeeded := true, advance := none }) := by
  have hspec := validSpec_of_validateGraph hvalid
  cases hterm : body.terminalRun with
  | true =>
    simp [reconcileAndPlan, reconcileCrashed, tasksAwaitingExpansion, planAndClaim, hterm]
  | false =>
    have hmid : Reachable spec
        ((reconcileCrashed spec now proc host isPidAlive body).1.getD body) :=
      .step (.reconcile now proc host isPidAlive) hreach
    rw [reconcileAndPlan_eq hvalid hreach hterm]
    unfold reconcileCrashed at hmid ⊢
    simp only [hterm, Bool.false_eq_true, if_false] at hmid ⊢
    set reconciled := reconcileEntries spec now proc host isPidAlive body
    by_cases hnone : reconciled.2 = 0
    · -- nothing is recovered, and both read the same document
      have hsame : reconciled.1 = body := reconcileEntries_of_none now proc host isPidAlive hnone
      simp only [hnone, hsame, if_true, getD_none,
        planAndClaim_eq hvalid hreach hterm now proc host]
      constructor
      · intro hawait
        simp only [hawait, ne_eq, not_true, if_false]
        cases (fullPlan spec now proc host .empty body).result.changed <;> simp
      · intro hawait
        simp [hawait]
    · -- the second half starts from the recovered document under a new `updatedAt`
      simp only [hnone, if_false, getD_some] at hmid ⊢
      have hstamp : fullPlan spec now proc host .empty { reconciled.1 with updatedAt := now } =
          (fullPlan spec now proc host .empty reconciled.1).stamp now :=
        claimHalf_stamp now spec now proc host { body := reconciled.1 }
      have hopen : RunBody.terminalRun { reconciled.1 with updatedAt := now } = false := hterm
      rw [planAndClaim_eq hvalid hmid hopen now proc host, hstamp]
      constructor
      · intro hawait
        have hawait' : tasksAwaitingExpansion spec reconciled.1 = [] := hawait
        simp only [hawait', ne_eq, not_true, if_false, and_false, getD_some]
        cases hchanged : (fullPlan spec now proc host .empty reconciled.1).result.changed with
        | true => simp [stamp, hchanged]
        | false =>
          have hbody := fullPlan_unchanged now proc host hspec hchanged
          simp [stamp, hchanged, hbody]
      · intro hawait
        have hawait' : tasksAwaitingExpansion spec reconciled.1 ≠ [] := hawait
        simp [hawait']

end Halves

/-- The chain's first task is found crashed by another process, and the run ends at once. -/
theorem reconcileAndPlan_eq_halves_crash :
    (reconcileAndPlan chainSpec 2 "q" "h" (fun _ => false) chainInFlight).2.reconciled = 1 ∧
      (reconcileAndPlan chainSpec 2 "q" "h" (fun _ => false) chainInFlight).2.advance.map
        AdvanceResult.runTerminal = some true ∧
      (reconcileAndPlan chainSpec 2 "q" "h" (fun _ => false) chainInFlight).1.getD chainInFlight =
        let recovered :=
          (reconcileCrashed chainSpec 2 "q" "h" (fun _ => false) chainInFlight).1.getD chainInFlight
        (planAndClaim chainSpec 2 "q" "h" .empty recovered).1.getD recovered :=
  ⟨by decide +kernel, by decide +kernel,
    ((reconcileAndPlan_eq_halves (by decide +kernel) (.step _ (.fresh ..)) 2 "q" "h" _).1
      (by decide +kernel)).1⟩

end Cronstable.Dag

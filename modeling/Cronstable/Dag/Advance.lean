import Cronstable.Dag.Deps

/-!
# The advance pass

The mutating half of an advance: apply the pre-read expansion lists, propagate upstream outcomes
and claim every ready instance, and terminalise the run. Every function of the source that
mutates one entry in place is a function on that entry here; the walk writes the result back
under the entry's key. The state threaded through a pass is `Pass`: the working copy of the
document and the `AdvanceResult` so far.

The `while` loop of `_propagate_and_claim` runs again only when the last round ended an entry, so
it is bounded by the number of entries that can still end (`claimFuel`).
-/

namespace Cronstable.Dag

/-! ## Ending an entry -/

/-- `_terminalise_task` on the entry. -/
def terminaliseTask (entry : TaskEntry) (state : TaskState) (now : Time) : TaskEntry :=
  { entry with
    state
    finishedAt := some now
    proc := none
    pid := none
    updatedAt := some now }

/-- `_terminalise_task` on the result. -/
def AdvanceResult.noteEnded (result : AdvanceResult) : AdvanceResult :=
  { result with changed := true, ended := result.ended + 1 }

/-- End the entry at `key` in place. -/
def Pass.endTask (p : Pass) (key : String) (entry : TaskEntry) (state : TaskState) (now : Time) :
    Pass :=
  { body := p.body.setEntry key (terminaliseTask entry state now)
    result := p.result.noteEnded }

/-! ## Expansions -/

/-- The pre-read item lists; `none` says that a list could not be read right now. -/
abbrev Expansions := Dict String (Option (List Json))

/-- The entry of instance `i` of a mapped task. -/
def instanceEntry (task : TaskSpec) (now : Time) (i : ℕ) (item : Json) : TaskEntry :=
  { newTaskEntry task now with mapped := false, mapIndex := some i, mapItem := some item }

@[simp]
lemma instanceEntry_state (task : TaskSpec) (now : Time) (i : ℕ) (item : Json) :
    (instanceEntry task now i item).state = .pending := rfl

@[simp]
lemma instanceEntry_awaitingApproval (task : TaskSpec) (now : Time) (i : ℕ) (item : Json) :
    (instanceEntry task now i item).awaitingApproval = false := rfl

/-- Materialise the instances of a mapped task. -/
def materialise (tasks : Dict String TaskEntry) (task : TaskSpec) (now : Time)
    (items : List Json) : Dict String TaskEntry :=
  items.zipIdx.foldl
    (fun tasks p => tasks.set (instanceKey task.id p.2) (instanceEntry task now p.2 p.1)) tasks

/-- The placeholder of a recorded fan-out becomes the group marker. -/
def markExpanded (tasks : Dict String TaskEntry) (task : TaskSpec) (now : Time) :
    Dict String TaskEntry :=
  match tasks.get? task.id with
  | none => tasks
  | some placeholder =>
    tasks.set task.id { placeholder with state := .expanded, updatedAt := some now }

/-- Record the fan-out of a mapped task: from now on the instances carry the work. -/
def recordExpansion (body : RunBody) (task : TaskSpec) (now : Time) (items : List Json) :
    RunBody :=
  { body with
    mapped := body.mapped.set task.id (some { items, expandedAt := now })
    tasks := materialise (markExpanded body.tasks task now) task now items }

/-- One round of `_apply_expansions`. -/
def applyExpansion (spec : DagSpec) (now : Time) (p : Pass) (taskId : String)
    (items : Option (List Json)) : Pass :=
  match items, spec.byId.get? taskId with
  | some items, some task =>
    match task.expand with
    | none => p
    | some exp =>
      -- already expanded (a stale pre-read)
      if p.body.mapped.contains taskId then p
      else if effectiveState spec p.body exp.fromTask ≠ .success then p
      else if maxMappedItems < items.length then
        match p.body.tasks.get? taskId with
        | none => p
        | some placeholder =>
          if placeholder.state = .pending then
            let reason := "mapped fan-out of " ++ toString items.length ++
              " items exceeds the cap of " ++ toString maxMappedItems
            p.endTask taskId { placeholder with failReason := some reason } .failed now
          else p
      else
        { body := recordExpansion p.body task now items
          result := { p.result with changed := true } }
  | _, _ => p

/-- `_apply_expansions`. -/
def applyExpansions (spec : DagSpec) (expansions : Expansions) (now : Time) (p : Pass) : Pass :=
  expansions.items.foldl (fun p e => applyExpansion spec now p e.1 e.2) p

/-! ## Instances -/

/-- A concrete instance of a task. -/
structure Instance where
  key : String
  mapIndex : Option ℕ
  item : Option Json

/-- `_instances_of`: the run's recorded fan-out wins over the spec. -/
def instancesOf (body : RunBody) (task : TaskSpec) : List Instance :=
  match body.mapped.get? task.id with
  | none => if task.expand.isSome then [] else [⟨task.id, none, none⟩]
  | some none => []
  | some (some record) =>
    record.items.zipIdx.map fun p => ⟨instanceKey task.id p.2, some p.2, some p.1⟩

/-! ## Placeholders and holes -/

/-- `_resolve_unmaterialised_source`. -/
def resolveUnmaterialisedSource (exp : ExpandSpec) (key : String) (entry : TaskEntry)
    (now : Time) (p : Pass) : Pass :=
  let reason := "expand source " ++ PyText.quoted exp.fromTask ++
    " has no entry in this run: it was added or renamed by a config reload after the run was " ++
    "created, so its item list can never exist and this task cannot fan out (the next run " ++
    "expands normally)"
  p.endTask key { entry with failReason := some reason } .failed now

/-- `_resolve_stale_placeholder`: fail an un-expanded mapped task's entry that a reload stranded
in an unmapped shape. -/
def resolveStalePlaceholder (key : String) (entry : TaskEntry) (now : Time) (p : Pass) : Pass :=
  if entry.state.inert then p
  else if entry.state = .running ∧ (entry.proc.isSome ∨ entry.awaitingApproval) then p
  else
    let reason := "task gained expand: across a config reload while parked " ++
      entry.state.name ++ "; its pre-reload state cannot be resumed under the mapped shape, " ++
      "so it is failed to let the run finish (the next run expands normally)"
    p.endTask key { entry with failReason := some reason } .failed now

/-- `_propagate_placeholder`: resolve an un-expanded placeholder whose fan-out can never be
built. -/
def propagatePlaceholder (spec : DagSpec) (task : TaskSpec) (now : Time) (p : Pass) : Pass :=
  match p.body.tasks.get? task.id with
  | none => p
  | some entry =>
    if entry.state ≠ .pending then resolveStalePlaceholder task.id entry now p
    else
      let byVerdict := match depsVerdict spec p.body task with
        | .fail => p.endTask task.id entry .upstreamFailed now
        | .skip => p.endTask task.id entry .skipped now
        | _ => p
      match task.expand with
      | none => byVerdict
      | some exp =>
        if !(p.body.tasks.contains exp.fromTask || p.body.mapped.contains exp.fromTask) then
          resolveUnmaterialisedSource exp task.id entry now p
        else match effectiveState spec p.body exp.fromTask with
        | .failed | .upstreamFailed => p.endTask task.id entry .upstreamFailed now
        | .skipped => p.endTask task.id entry .skipped now
        | _ => byVerdict

/-- The entry `_resolve_missing_instance` materialises for a recorded index without one. -/
def missingEntry (task : TaskSpec) (i : ℕ) (item : Option Json) (now : Time) : TaskEntry :=
  let reason := "this run records mapped index " ++ toString i ++ " for task " ++
    PyText.quoted task.id ++ " but holds no entry for it: the run document was restored from " ++
    "a partial backup, hand edited, or written by a foreign build. Failed so the run can " ++
    "finish (the next run expands normally)"
  terminaliseTask
    { newTaskEntry task now with
      mapped := false, mapIndex := some i, mapItem := item, failReason := some reason }
    .failed now

/-- `_resolve_missing_instance`. -/
def resolveMissingInstance (task : TaskSpec) (key : String) (i : ℕ) (item : Option Json)
    (now : Time) (p : Pass) : Pass :=
  { body := p.body.setEntry key (missingEntry task i item now)
    result := p.result.noteEnded }

/-! ## Claiming -/

/-- `_claims_full`: whether the pass used its launch quota. -/
def claimsFull (result : AdvanceResult) : Bool :=
  decide (maxClaimsPerPass ≤ result.launches.length)

/-- The mark `_claims_full` leaves on the result. -/
def AdvanceResult.defer (result : AdvanceResult) : AdvanceResult :=
  { result with deferred := true }

/-- Record a launch. -/
def AdvanceResult.launch (result : AdvanceResult) (intent : LaunchIntent) : AdvanceResult :=
  { result with launches := result.launches ++ [intent], changed := true }

/-- `_sensor_timed_out`. -/
def sensorTimedOut (task : TaskSpec) (entry : TaskEntry) (now : Time) : Bool :=
  match entry.firstPokeAt with
  | none => false
  | some started => decide (task.pokeTimeout ≤ now - started)

/-- The entry of an approval gate parked awaiting its decision. -/
def parkedEntry (entry : TaskEntry) (now : Time) : TaskEntry :=
  { entry with
    state := .running
    startedAt := some now
    awaitingApproval := true
    updatedAt := some now }

/-- The entry of a claimed instance: owned by `proc` from the claim on. -/
def claimedEntry (task : TaskSpec) (entry : TaskEntry) (now : Time) (proc host : String) :
    TaskEntry :=
  { entry with
    state := .running
    proc := some proc
    pid := none
    queued := none
    host := some host
    -- a zero start is falsy and is stamped again
    startedAt := match entry.startedAt with
      | some t => if t = 0 then some now else some t
      | none => some now
    updatedAt := some now
    pokeCount := if task.type = .sensor then some 0 else none
    firstPokeAt := if task.type = .sensor then some now else entry.firstPokeAt
    nextPokeAt := if task.type = .sensor then none else entry.nextPokeAt }

/-- The entry of a sensor whose next poke was claimed. -/
def pokedEntry (entry : TaskEntry) (now : Time) (proc host : String) : TaskEntry :=
  { entry with
    proc := some proc
    host := some host
    pid := none
    nextPokeAt := none
    updatedAt := some now }

section Dispatch

variable (task : TaskSpec) (inst : Instance) (now : Time) (proc host : String)

/-- `_claim_task`. -/
def claimTask (entry : TaskEntry) (result : AdvanceResult) : TaskEntry × AdvanceResult :=
  if task.type = .approval then
    (parkedEntry entry now, { result with changed := true })
  else if claimsFull result then
    (entry, result.defer)
  else
    (claimedEntry task entry now proc host,
      result.launch
        { taskId := task.id
          taskkey := inst.key
          mapIndex := inst.mapIndex
          mapItem := inst.item
          attempt := entry.attempt
          isSensor := decide (task.type = .sensor)
          pokeNumber := 0 })

/-- `_advance_running`. -/
def advanceRunning (entry : TaskEntry) (result : AdvanceResult) : TaskEntry × AdvanceResult :=
  if task.type ≠ .sensor then
    if entry.proc = none ∧ entry.pid = none ∧ entry.awaitingApproval = false then
      -- only a sensor idles in `running`: a reload retyped the task between two pokes
      let reason := "task was retyped from sensor to " ++ task.type.name ++
        " across a config reload while idle between pokes; its pre-reload state cannot be " ++
        "resumed under the new shape, so it is failed to let the run finish (the next run " ++
        "starts cleanly)"
      (terminaliseTask { entry with failReason := some reason } .failed now, result.noteEnded)
    else (entry, result)
  else if entry.pid.isSome ∨ entry.proc.isSome then
    (entry, result)
  else if entry.nextPokeAt.any (now < ·) then
    (entry, result)
  else if sensorTimedOut task entry now then
    (terminaliseTask { entry with failReason := some "sensor timed out" } .failed now,
      result.noteEnded)
  else if claimsFull result then
    (entry, result.defer)
  else
    (pokedEntry entry now proc host,
      result.launch
        { taskId := task.id
          taskkey := inst.key
          mapIndex := inst.mapIndex
          mapItem := inst.item
          attempt := entry.attempt
          isSensor := true
          pokeNumber := entry.poke })

/-- `_advance_task`: the per-instance dispatch on the entry's state. `fallback` is the verdict
the source computes itself when it was handed none. -/
def advanceTask (fallback : Verdict) (verdict : Option Verdict) (entry : TaskEntry)
    (result : AdvanceResult) : TaskEntry × AdvanceResult :=
  if entry.state.inert then (entry, result)
  else match entry.state with
  | .running => advanceRunning task inst now proc host entry result
  | .upForRetry =>
    if entry.nextRetryAt.getD 0 ≤ now ∧ ¬(result.deferred ∧ task.type ≠ .approval) then
      claimTask task inst now proc host entry result
    else (entry, result)
  | .pending =>
    match verdict.getD fallback with
    | .wait => (entry, result)
    | .fail => (terminaliseTask entry .upstreamFailed now, result.noteEnded)
    | .skip => (terminaliseTask entry .skipped now, result.noteEnded)
    | .ready =>
      if result.deferred ∧ task.type ≠ .approval then (entry, result)
      else claimTask task inst now proc host entry result
  | _ => (entry, result)

end Dispatch

/-! ## The walks -/

section Walk

variable (spec : DagSpec) (now : Time) (proc host : String)

/-- Advance one instance of an expanded task. The verdict of the task is computed at its first
pending instance and handed on. -/
def walkInstance (task : TaskSpec) (s : Pass × Option Verdict) (inst : Instance) :
    Pass × Option Verdict :=
  let p := s.1
  match p.body.tasks.get? inst.key with
  | none =>
    match inst.mapIndex with
    | none => s
    -- a hole: the run records the index, so the entry should exist
    | some i => (resolveMissingInstance task inst.key i inst.item now p, s.2)
  | some entry =>
    let verdict := match s.2 with
      | some v => some v
      | none => if entry.state = .pending then some (depsVerdict spec p.body task) else none
    let advanced := advanceTask task inst now proc host (depsVerdict spec p.body task) verdict
      entry p.result
    ({ body := p.body.setEntry inst.key advanced.1, result := advanced.2 }, verdict)

/-- One round of `_walk_and_claim`. -/
def walkTask (p : Pass) (task : TaskSpec) : Pass :=
  let expanded := p.body.mapped.contains task.id
  if task.expand.isSome && !expanded then
    -- readiness becomes expansion out of band, so only a failure or a skip is propagated
    propagatePlaceholder spec task now p
  else if !expanded then
    match p.body.tasks.get? task.id with
    | none => p
    | some entry =>
      -- the quota is spent and a root is always ready
      if entry.state = .pending ∧ p.result.deferred ∧ task.dependsOn.isEmpty ∧
          task.type ≠ .approval then p
      else
        let verdict :=
          if entry.state = .pending then some (depsVerdict spec p.body task) else none
        let advanced := advanceTask task ⟨task.id, none, none⟩ now proc host
          (depsVerdict spec p.body task) verdict entry p.result
        { body := p.body.setEntry task.id advanced.1, result := advanced.2 }
  else
    ((instancesOf p.body task).foldl (walkInstance spec now proc host task) (p, none)).1

/-- `_walk_and_claim`: advance every task instance once, in declaration order. -/
def walkAndClaim (p : Pass) : Pass := spec.tasks.foldl (walkTask spec now proc host) p

/-- Settle one instance: end it when the upstreams failed or were skipped. The flag says that the
loop was left. -/
def settleInstance (task : TaskSpec) (s : Pass × Option Verdict × Bool) (inst : Instance) :
    Pass × Option Verdict × Bool :=
  if s.2.2 then s
  else
    let p := s.1
    match p.body.tasks.get? inst.key with
    | none => s
    | some entry =>
      if entry.state ≠ .pending then s
      else
        let verdict := s.2.1.getD (depsVerdict spec p.body task)
        match verdict with
        | .fail => (p.endTask inst.key entry .upstreamFailed now, some verdict, false)
        | .skip => (p.endTask inst.key entry .skipped now, some verdict, false)
        | _ => (p, some verdict, true)

/-- One round of `_settle_dependents`. -/
def settleTask (p : Pass) (task : TaskSpec) : Pass :=
  if task.expand.isSome && !p.body.mapped.contains task.id then
    propagatePlaceholder spec task now p
  else
    ((instancesOf p.body task).foldl (settleInstance spec now task) (p, none, false)).1

/-- `_settle_dependents`: end every pending entry whose upstreams failed or were skipped, in
upstream-first order. -/
def settleDependents (order : List TaskSpec) (p : Pass) : Pass :=
  order.foldl (settleTask spec now) p

/-- The `while` loop of `_propagate_and_claim`; `settled` is how many entries had ended when the
last walk began. -/
def claimLoop : ℕ → ℕ → Pass → Pass
  | 0, _, p => p
  | fuel + 1, settled, p =>
    if settled < p.result.ended then
      match upstreamFirst spec with
      | none => p
      | some order =>
        let q := settleDependents spec now order p
        claimLoop fuel q.result.ended (walkAndClaim spec now proc host q)
    else p

/-- How many entries of the document can still end: the stored ones and the recorded instances
without one. -/
def claimFuel (body : RunBody) : ℕ :=
  body.tasks.items.length + (spec.tasks.map fun t => (body.items t.id).length).sum + 1

/-- `_propagate_and_claim`. -/
def propagateAndClaim (p : Pass) : Pass :=
  claimLoop spec now proc host (claimFuel spec p.body) p.result.ended
    (walkAndClaim spec now proc host p)

end Walk

/-! ## Terminalising the run -/

/-- The walk of `_maybe_terminalise`: `none` as soon as a task is not terminal, else whether one
failed. -/
def terminalScan (body : RunBody) : List TaskSpec → Bool → Option Bool
  | [], failed => some failed
  | task :: tasks, failed =>
    match body.mapped.get? task.id with
    | none =>
      match body.tasks.get? task.id with
      -- added by a reload after the run was created
      | none => terminalScan body tasks failed
      | some entry =>
        if entry.state.terminal then terminalScan body tasks (failed || entry.state.failure)
        else none
    | some record =>
      let folded := foldMappedInstances body.tasks task.id
        (record.elim [] MapRecord.items).length
      if folded.holds then none else terminalScan body tasks (failed || folded.failed)

/-- A task holds the run open: its entry, or an instance of its recorded fan-out, is not
terminal. -/
def HoldsOpen (body : RunBody) (task : TaskSpec) : Prop :=
  match body.mapped.get? task.id with
  | none => ∃ entry, body.tasks.get? task.id = some entry ∧ entry.state.terminal = false
  | some record => ∃ i < (record.elim [] MapRecord.items).length,
      (stateOrPending body.tasks (instanceKey task.id i)).terminal = false

/-- The walk stops early exactly when a task holds the run open. -/
theorem terminalScan_eq_none {body : RunBody} {tasks : List TaskSpec} {failed : Bool} :
    terminalScan body tasks failed = none ↔ ∃ task ∈ tasks, HoldsOpen body task := by
  induction tasks generalizing failed with
  | nil => simp [terminalScan]
  | cons task tasks ih =>
    rw [List.exists_mem_cons_iff]
    -- only the head is looked into
    generalize (∃ task ∈ tasks, HoldsOpen body task) = tail at ih ⊢
    unfold terminalScan HoldsOpen
    cases body.mapped.get? task.id with
    | none =>
      cases body.tasks.get? task.id with
      | none => simpa using ih
      | some entry => cases hterm : entry.state.terminal <;> simp [hterm, ih]
    | some record =>
      have hholds := reduceStates_holds
        ((List.range (record.elim [] MapRecord.items).length).map fun i =>
          stateOrPending body.tasks (instanceKey task.id i)) false false
      simp only [List.mem_map, List.mem_range, exists_exists_and_eq_and] at hholds
      simp only [foldMappedInstances, ← hholds]
      split_ifs with hopen
      · simp [hopen]
      · simp [hopen, ih]

/-- `_maybe_terminalise`. -/
def maybeTerminalise (spec : DagSpec) (p : Pass) : Pass :=
  match terminalScan p.body spec.tasks false with
  | none => p
  | some failed =>
    let runState := if failed then TaskState.failed else TaskState.success
    { body := { p.body with state := runState }
      result := { p.result with
        changed := p.result.changed || decide (p.body.state ≠ runState)
        runTerminal := true } }

end Cronstable.Dag

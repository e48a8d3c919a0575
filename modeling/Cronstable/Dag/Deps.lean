import Cronstable.Dag.Body

/-!
# Dependency resolution over a run document

How the states of a task's upstreams become one verdict (`depsVerdict`), with the reduction of a
mapped task's instances to one group state (`mappedGroupState`) that every dependency check and
the run terminaliser share. The two loops of the source that fold states are one function here,
`reduceStates`: both stop at the first non-terminal state and otherwise remember whether they
saw a failure or a skip.

`mappedGroupState_congr` and `depsVerdict_congr` say what a verdict depends on: the recorded
fan-outs of the upstreams and the states of the entries that belong to them.
-/

namespace Cronstable.Dag

open List

/-! ## Folding states -/

/-- The outcome of folding a list of states: `holds` when a state is not terminal (the flags then
cover the states before it), `failed` and `skipped` when such a state was seen. -/
structure Reduction where
  holds : Bool
  failed : Bool
  skipped : Bool
  deriving DecidableEq, Repr

/-- The equality chain shared by `_fold_mapped_instances` and `_deps_verdict`. -/
def reduceStates : List TaskState → Bool → Bool → Reduction
  | [], failed, skipped => ⟨false, failed, skipped⟩
  | .success :: states, failed, skipped => reduceStates states failed skipped
  | .failed :: states, _, skipped => reduceStates states true skipped
  | .upstreamFailed :: states, _, skipped => reduceStates states true skipped
  | .skipped :: states, failed, _ => reduceStates states failed true
  | _ :: _, failed, skipped => ⟨true, failed, skipped⟩

/-- The state an entry contributes to a fold; a missing entry reads as pending. -/
def stateOrPending (tasks : Dict String TaskEntry) (key : String) : TaskState :=
  match tasks.get? key with
  | none => .pending
  | some entry => entry.state

lemma stateOrPending_of_get? {tasks : Dict String TaskEntry} {key : String} {entry : TaskEntry}
    (h : tasks.get? key = some entry) : stateOrPending tasks key = entry.state := by
  rw [stateOrPending, h]

/-- `_fold_mapped_instances`: the reduction over the first `count` instances of a mapped task. -/
def foldMappedInstances (tasks : Dict String TaskEntry) (taskId : String) (count : ℕ) :
    Reduction :=
  reduceStates ((List.range count).map fun i => stateOrPending tasks (instanceKey taskId i))
    false false

/-- `_mapped_group_state`: the aggregate state of a mapped task. Without a recorded fan-out it is
the placeholder's own state; with one it is `running` until every instance is terminal. -/
def mappedGroupState (body : RunBody) (taskId : String) : TaskState :=
  match body.mapped.get? taskId with
  | none | some none => stateOrPending body.tasks taskId
  | some (some record) =>
    if record.items.isEmpty then .success
    else
      let folded := foldMappedInstances body.tasks taskId record.items.length
      if folded.holds then .running
      else if folded.failed then .upstreamFailed
      else if folded.skipped then .skipped
      else .success

/-- `effective_state`: the state a dependency check sees for a task, keyed on the run's recorded
fan-out as well as on the spec. -/
def effectiveState (spec : DagSpec) (body : RunBody) (taskId : String) : TaskState :=
  if (spec.byId.get? taskId).any (·.expand.isSome) || body.mapped.contains taskId then
    mappedGroupState body taskId
  else
    stateOrPending body.tasks taskId

/-! ## Verdicts -/

/-- What the upstreams of a task allow. -/
inductive Verdict
  | ready
  | wait
  | fail
  | skip
  deriving DecidableEq, Repr

/-- The state of one upstream, or `none` when it has no entry in this run: it was added by a
reload after the run was created and gates nothing. -/
def depState (spec : DagSpec) (body : RunBody) (dep : String) : Option TaskState :=
  match body.tasks.get? dep with
  | none => none
  | some entry =>
    if body.mapped.contains dep || (spec.byId.get? dep).any (·.expand.isSome) then
      some (mappedGroupState body dep)
    else
      some entry.state

/-- `_deps_verdict`: resolve a task's upstreams. -/
def depsVerdict (spec : DagSpec) (body : RunBody) (task : TaskSpec) : Verdict :=
  if task.dependsOn.isEmpty then .ready
  else
    let reduced := reduceStates (task.dependsOn.filterMap (depState spec body)) false false
    if reduced.holds then .wait
    else if task.triggerRule = .allDone then .ready
    else if reduced.failed then .fail
    else if reduced.skipped then .skip
    else .ready

/-- `tasks_awaiting_expansion`: the mapped tasks whose source succeeded and that are not expanded
yet, with the source and the XCom key to read. -/
def tasksAwaitingExpansion (spec : DagSpec) (body : RunBody) : List (String × String × String) :=
  if body.terminalRun then []
  else spec.mappedTasks.filterMap fun task =>
    match task.expand with
    | none => none
    | some exp =>
      if body.mapped.contains task.id then none
      -- the placeholder was resolved without expanding
      else if (body.tasks.get? task.id).any (·.state != .pending) then none
      else if effectiveState spec body exp.fromTask = .success then
        some (task.id, exp.fromTask, exp.key)
      else none

/-! ## Facts about the fold -/

/-- A fold holds exactly when some state is not terminal. -/
theorem reduceStates_holds (states : List TaskState) (failed skipped : Bool) :
    (reduceStates states failed skipped).holds = true ↔ ∃ s ∈ states, s.terminal = false := by
  induction states generalizing failed skipped with
  | nil => simp [reduceStates]
  | cons s states ih => cases s <;> simp [reduceStates, ih]

/-- Once every state is terminal, the fold reports a failure exactly when it saw one, and a skip
exactly when it saw one. -/
theorem reduceStates_saw {states : List TaskState} (failed skipped : Bool)
    (h : ∀ s ∈ states, s.terminal = true) :
    ((reduceStates states failed skipped).failed = true ↔
        failed = true ∨ ∃ s ∈ states, s.failure = true) ∧
      ((reduceStates states failed skipped).skipped = true ↔
        skipped = true ∨ TaskState.skipped ∈ states) := by
  induction states generalizing failed skipped with
  | nil => simp [reduceStates]
  | cons s states ih =>
    have hs := h s mem_cons_self
    replace ih := fun failed skipped => ih failed skipped fun s hs =>
      h s (mem_cons_of_mem _ hs)
    cases s <;> first | exact absurd hs Bool.false_ne_true | simp [reduceStates, ih]

/-- The one state a finished fold stands for. -/
def Reduction.outcome (r : Reduction) : TaskState :=
  if r.holds then .running
  else if r.failed then .upstreamFailed
  else if r.skipped then .skipped
  else .success

/-- The outcome of a fold is terminal exactly when every state is. -/
theorem outcome_terminal (states : List TaskState) :
    (reduceStates states false false).outcome.terminal = true ↔
      ∀ s ∈ states, s.terminal = true := by
  have hholds := reduceStates_holds states false false
  unfold Reduction.outcome
  split
  next h =>
    obtain ⟨s, hs, hterm⟩ := hholds.mp h
    simp only [TaskState.terminal_ctor, Bool.false_eq_true, false_iff, not_forall]
    exact ⟨s, hs, by simp [hterm]⟩
  next h =>
    have hall : ∀ s ∈ states, s.terminal = true := by
      intro s hs
      by_contra hterm
      exact h (hholds.mpr ⟨s, hs, by simpa using hterm⟩)
    refine ⟨fun _ => hall, fun _ => ?_⟩
    split
    · rfl
    · split <;> rfl

/-- The outcome of a fold is a success exactly when every state is. -/
theorem outcome_success (states : List TaskState) :
    (reduceStates states false false).outcome = .success ↔ ∀ s ∈ states, s = .success := by
  constructor
  · intro h
    have hall := (outcome_terminal states).mp (by rw [h]; rfl)
    obtain ⟨hf, hs⟩ := reduceStates_saw false false hall
    unfold Reduction.outcome at h
    split at h
    · cases h
    · split at h
      · cases h
      · split at h
        · cases h
        · next hfail hskip =>
          intro s hmem
          refine TaskState.eq_success (hall s hmem) ?_ ?_
          · by_contra hne
            exact hfail (hf.mpr (.inr ⟨s, hmem, by simpa using hne⟩))
          · rintro rfl
            exact hskip (hs.mpr (.inr hmem))
  · intro h
    have hred : reduceStates states false false = ⟨false, false, false⟩ := by
      induction states with
      | nil => rfl
      | cons s states ih =>
        rw [h s mem_cons_self]
        exact ih fun s hs => h s (mem_cons_of_mem _ hs)
    simp [hred, Reduction.outcome]

/-! ## Group states -/

/-- The state stored at a key, if there is an entry. -/
def RunBody.stateAt (body : RunBody) (key : String) : Option TaskState :=
  (body.tasks.get? key).map (·.state)

/-- The keys of the entries that belong to a task: its own key and those of its instances. -/
def Owns (taskId key : String) : Prop := key = taskId ∨ ∃ i, key = instanceKey taskId i

lemma stateOrPending_eq (body : RunBody) (key : String) :
    stateOrPending body.tasks key = (body.stateAt key).getD .pending := by
  unfold stateOrPending RunBody.stateAt
  cases body.tasks.get? key <;> rfl

variable {body : RunBody} {taskId : String} {record : MapRecord}

/-- With a recorded fan-out the group state is the outcome of folding the instances; an empty
fan-out folds to a success. -/
theorem mappedGroupState_of_record (h : body.mapped.get? taskId = some (some record)) :
    mappedGroupState body taskId =
      (foldMappedInstances body.tasks taskId record.items.length).outcome := by
  unfold mappedGroupState
  rw [h]
  simp only [Reduction.outcome]
  cases hitems : record.items with
  | nil => simp [foldMappedInstances, reduceStates]
  | cons item items => simp

/-- Without a recorded fan-out the group state is the placeholder's own state. -/
theorem mappedGroupState_of_no_record (h : ∀ record, body.mapped.get? taskId ≠ some (some record)) :
    mappedGroupState body taskId = stateOrPending body.tasks taskId := by
  unfold mappedGroupState
  split
  · rfl
  · rfl
  next record hrecord => exact absurd hrecord (h record)

/-- The spec does not matter to the effective state: without a recorded fan-out both branches
read the task's own entry. -/
theorem effectiveState_eq (spec : DagSpec) (body : RunBody) (taskId : String) :
    effectiveState spec body taskId = mappedGroupState body taskId := by
  unfold effectiveState
  split
  · rfl
  next h =>
    have hnone : body.mapped.contains taskId = false := by simp_all
    rw [Dict.contains_eq_false_iff] at hnone
    exact (mappedGroupState_of_no_record (by simp [hnone])).symm

variable {body' : RunBody}

/-- A group state depends on the recorded fan-out of the task and on the states of its
entries. -/
theorem mappedGroupState_congr (hmapped : body'.mapped.get? taskId = body.mapped.get? taskId)
    (hstate : ∀ key, Owns taskId key → body'.stateAt key = body.stateAt key) :
    mappedGroupState body' taskId = mappedGroupState body taskId := by
  have hown : stateOrPending body'.tasks taskId = stateOrPending body.tasks taskId := by
    rw [stateOrPending_eq, stateOrPending_eq, hstate taskId (.inl rfl)]
  have hinst : ∀ i, stateOrPending body'.tasks (instanceKey taskId i) =
      stateOrPending body.tasks (instanceKey taskId i) := by
    intro i
    rw [stateOrPending_eq, stateOrPending_eq, hstate _ (.inr ⟨i, rfl⟩)]
  unfold mappedGroupState foldMappedInstances
  simp only [hmapped, hown, hinst]

/-- The group state of an expanded task is terminal exactly when every instance is. -/
theorem mappedGroupState_terminal_of_record (h : body.mapped.get? taskId = some (some record)) :
    (mappedGroupState body taskId).terminal = true ↔
      ∀ i < record.items.length,
        (stateOrPending body.tasks (instanceKey taskId i)).terminal = true := by
  rw [mappedGroupState_of_record h, foldMappedInstances, outcome_terminal]
  simp

/-- The group state of an expanded task is a success exactly when every instance is. -/
theorem mappedGroupState_success_of_record (h : body.mapped.get? taskId = some (some record)) :
    mappedGroupState body taskId = .success ↔
      ∀ i < record.items.length,
        stateOrPending body.tasks (instanceKey taskId i) = .success := by
  rw [mappedGroupState_of_record h, foldMappedInstances, outcome_success]
  simp

/-! ## Verdict facts -/

/-- An upstream with an entry contributes its group state. -/
theorem depState_eq (spec : DagSpec) (body : RunBody) (dep : String) :
    depState spec body dep =
      (body.tasks.get? dep).map fun _ => mappedGroupState body dep := by
  unfold depState
  cases hentry : body.tasks.get? dep with
  | none => rfl
  | some entry =>
    simp only [Option.map_some]
    split
    · rfl
    next h =>
      have hnone : body.mapped.contains dep = false := by simp_all
      rw [Dict.contains_eq_false_iff] at hnone
      rw [mappedGroupState_of_no_record (by simp [hnone])]
      simp [stateOrPending, hentry]

variable {spec : DagSpec} {task : TaskSpec}

/-- The states a verdict folds are the group states of the upstreams that have an entry. -/
theorem mem_depStates {s : TaskState} :
    s ∈ task.dependsOn.filterMap (depState spec body) ↔
      ∃ dep ∈ task.dependsOn, body.tasks.contains dep = true ∧ mappedGroupState body dep = s := by
  simp only [mem_filterMap, depState_eq, Option.map_eq_some_iff, Dict.contains_iff]
  constructor
  · rintro ⟨dep, hdep, entry, hentry, hs⟩
    exact ⟨dep, hdep, ⟨entry, hentry⟩, hs⟩
  · rintro ⟨dep, hdep, ⟨entry, hentry⟩, hs⟩
    exact ⟨dep, hdep, entry, hentry, hs⟩

/-- A verdict other than "wait" means that every upstream in this run is terminal. -/
theorem terminal_of_depsVerdict (h : depsVerdict spec body task ≠ .wait) {dep : String}
    (hdep : dep ∈ task.dependsOn) (hentry : body.tasks.contains dep = true) :
    (mappedGroupState body dep).terminal = true := by
  by_contra hterm
  have hne : task.dependsOn.isEmpty = false := by
    cases hdeps : task.dependsOn with
    | nil => rw [hdeps] at hdep; cases hdep
    | cons => rfl
  have hholds := (reduceStates_holds (task.dependsOn.filterMap (depState spec body))
    false false).mpr ⟨_, mem_depStates.mpr ⟨dep, hdep, hentry, rfl⟩, by simpa using hterm⟩
  apply h
  simp [depsVerdict, hne, hholds]

/-- Conversely, terminal upstreams never let a task wait. -/
theorem depsVerdict_ne_wait
    (h : ∀ dep ∈ task.dependsOn, (mappedGroupState body dep).terminal = true) :
    depsVerdict spec body task ≠ .wait := by
  have hholds : (reduceStates (task.dependsOn.filterMap (depState spec body))
      false false).holds = false := by
    by_contra hne
    obtain ⟨s, hs, hterm⟩ := (reduceStates_holds _ _ _).mp (by simpa using hne)
    obtain ⟨dep, hdep, -, rfl⟩ := mem_depStates.mp hs
    rw [h dep hdep] at hterm
    cases hterm
  unfold depsVerdict
  split
  · decide
  · simp only [hholds, Bool.false_eq_true, if_false]
    split
    · decide
    · split
      · decide
      · split <;> decide

/-- An `all_success` task is ready only when every upstream in this run succeeded. -/
theorem success_of_depsVerdict_ready (hrule : task.triggerRule = .allSuccess)
    (h : depsVerdict spec body task = .ready) {dep : String} (hdep : dep ∈ task.dependsOn)
    (hentry : body.tasks.contains dep = true) : mappedGroupState body dep = .success := by
  have hne : task.dependsOn.isEmpty = false := by
    cases hdeps : task.dependsOn with
    | nil => rw [hdeps] at hdep; cases hdep
    | cons => rfl
  have hout : (reduceStates (task.dependsOn.filterMap (depState spec body))
      false false).outcome = .success := by
    unfold depsVerdict at h
    rw [hne, hrule] at h
    unfold Reduction.outcome
    split
    next hholds => simp [hholds] at h
    next hholds =>
      split
      next hfailed => simp [hholds, hfailed] at h
      next hfailed =>
        split
        next hskipped => simp [hholds, hfailed, hskipped] at h
        next => rfl
  exact (outcome_success _).mp hout _ (mem_depStates.mpr ⟨dep, hdep, hentry, rfl⟩)

/-- A verdict depends on which upstreams are in the run and on their group states alone. -/
theorem depsVerdict_of_groups
    (h : ∀ dep ∈ task.dependsOn, body'.tasks.contains dep = body.tasks.contains dep ∧
      mappedGroupState body' dep = mappedGroupState body dep) :
    depsVerdict spec body' task = depsVerdict spec body task := by
  have hdeps : task.dependsOn.filterMap (depState spec body') =
      task.dependsOn.filterMap (depState spec body) := by
    apply filterMap_congr
    intro dep hdep
    obtain ⟨hpresent, hgroup⟩ := h dep hdep
    rw [depState_eq, depState_eq]
    simp only [Dict.contains] at hpresent
    cases hget : body.tasks.get? dep <;> cases hget' : body'.tasks.get? dep <;> simp_all
  unfold depsVerdict
  rw [hdeps]

/-- A verdict depends on the recorded fan-outs and the entry states of the upstreams alone. -/
theorem depsVerdict_congr
    (hmapped : ∀ dep ∈ task.dependsOn, body'.mapped.get? dep = body.mapped.get? dep)
    (hstate : ∀ dep ∈ task.dependsOn, ∀ key, Owns dep key →
      body'.stateAt key = body.stateAt key) :
    depsVerdict spec body' task = depsVerdict spec body task := by
  refine depsVerdict_of_groups fun dep hdep =>
    ⟨?_, mappedGroupState_congr (hmapped dep hdep) (hstate dep hdep)⟩
  have hentry := congrArg Option.isSome (hstate dep hdep dep (.inl rfl))
  simpa [RunBody.stateAt, Dict.contains] using hentry

end Cronstable.Dag

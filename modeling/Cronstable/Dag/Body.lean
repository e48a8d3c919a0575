import Cronstable.Dag.Spec

/-!
# The run document

A DAG run is stored as one mutable document. This module gives the document its type: task
states, task entries keyed by task id or by `<id>#<i>` for the instances of a mapped task, the
recorded fan-outs, and the results the transforms hand back to the driver.

Entries live in a `Dict`, so an in-place update of an entry is a write at its key. A stored
document can also hold the two null shapes that `_refuse_null_shapes` rejects; `StoredBody` is a
document before that check and `RunBody` one that passed it. A state string that this build does
not know, or no state at all, is `TaskState.unrecognised`.
-/

namespace Cronstable.Dag

/-- The JSON values that a run document carries without looking at them. -/
inductive Json
  | null
  | bool (b : Bool)
  | num (q : ℚ)
  | str (s : String)
  | arr (items : List Json)
  | obj (fields : List (String × Json))

/-- A JSON object. What a finished job reports is one or is missing; it is never null. -/
abbrev JsonObject := List (String × Json)

/-! ## States -/

/-- The states of a task entry; the run itself uses `running`, `success` and `failed`. -/
inductive TaskState
  | pending
  | running
  | upForRetry
  | success
  | failed
  | skipped
  | upstreamFailed
  /-- The group placeholder of a mapped task whose instances were materialised. -/
  | expanded
  /-- A stored value this build does not know. -/
  | unrecognised (raw : String)
  deriving DecidableEq, Repr

namespace TaskState

/-- `TERMINAL_STATES`: the states dependency resolution treats as done. -/
def terminal : TaskState → Bool
  | success | failed | skipped | upstreamFailed => true
  | _ => false

/-- `FAILURE_STATES`: the terminal states that fail a downstream `all_success`. -/
def failure : TaskState → Bool
  | failed | upstreamFailed => true
  | _ => false

/-- `_INERT_TASK_STATES`: the states a claim pass leaves untouched. -/
def inert (s : TaskState) : Bool := s.terminal || s == expanded

@[simp]
lemma terminal_ctor :
    success.terminal = true ∧ failed.terminal = true ∧ skipped.terminal = true ∧
      upstreamFailed.terminal = true ∧ pending.terminal = false ∧ running.terminal = false ∧
      upForRetry.terminal = false ∧ expanded.terminal = false ∧
      ∀ raw, (unrecognised raw).terminal = false :=
  ⟨rfl, rfl, rfl, rfl, rfl, rfl, rfl, rfl, fun _ => rfl⟩

@[simp]
lemma failure_ctor :
    success.failure = false ∧ failed.failure = true ∧ skipped.failure = false ∧
      upstreamFailed.failure = true ∧ pending.failure = false ∧ running.failure = false ∧
      upForRetry.failure = false ∧ expanded.failure = false ∧
      ∀ raw, (unrecognised raw).failure = false :=
  ⟨rfl, rfl, rfl, rfl, rfl, rfl, rfl, rfl, fun _ => rfl⟩

/-- A terminal state that is neither a failure nor a skip is a success. -/
theorem eq_success {s : TaskState} (h : s.terminal = true) (hf : s.failure = false)
    (hs : s ≠ skipped) : s = success := by
  cases s <;> simp_all

/-- The stored string of a state. -/
def name : TaskState → String
  | pending => "pending"
  | running => "running"
  | upForRetry => "up_for_retry"
  | success => "success"
  | failed => "failed"
  | skipped => "skipped"
  | upstreamFailed => "upstream_failed"
  | expanded => "expanded"
  | unrecognised raw => raw

end TaskState

/-- `MAX_MAPPED_ITEMS`: the cap on a mapped task's fan-out. -/
def maxMappedItems : ℕ := 1000

/-- `MAX_CLAIMS_PER_PASS`: how many instances one pass may launch. -/
def maxClaimsPerPass : ℕ := 32

/-! ## Task entries -/

/-- The recorded decision of an approval gate. -/
structure ApprovalDecision where
  approved : Bool
  decidedBy : String
  decidedAt : Time

/-- One task entry. An absent key of the stored dictionary is `none` (`false` for the two
flags). -/
structure TaskEntry where
  /-- The id of the task the entry belongs to. -/
  id : Option String := none
  /-- The index of a mapped instance. -/
  mapIndex : Option ℤ := none
  state : TaskState := .pending
  attempt : ℕ := 0
  /-- The token of the process that claimed the instance. -/
  proc : Option String := none
  pid : Option ℤ := none
  host : Option String := none
  startedAt : Option Time := none
  finishedAt : Option Time := none
  exitCode : Option ℤ := none
  failReason : Option String := none
  resources : Option JsonObject := none
  updatedAt : Option Time := none
  /-- Marks the group placeholder of a mapped task. -/
  mapped : Bool := false
  /-- How many pokes of a sensor completed. -/
  pokeCount : Option ℕ := none
  nextPokeAt : Option Time := none
  firstPokeAt : Option Time := none
  approval : Option ApprovalDecision := none
  awaitingApproval : Bool := false
  nextRetryAt : Option Time := none
  /-- The list item of a mapped instance. -/
  mapItem : Option Json := none
  /-- Why the driver put a claimed instance back, for display. -/
  queued : Option Json := none
  verification : Option JsonObject := none
  limits : Option JsonObject := none

namespace TaskEntry

/-- `int(entry.get("pokeCount", 0))`. -/
def poke (e : TaskEntry) : ℕ := e.pokeCount.getD 0

end TaskEntry

/-- `_new_task_entry`: the pending entry of a task. -/
def newTaskEntry (task : TaskSpec) (now : Time) : TaskEntry :=
  { id := some task.id
    updatedAt := some now
    mapped := task.expand.isSome
    pokeCount := if task.type = .sensor then some 0 else none }

@[simp]
lemma newTaskEntry_state (task : TaskSpec) (now : Time) :
    (newTaskEntry task now).state = .pending := rfl

/-- The key of instance `i` of a mapped task. -/
def instanceKey (taskId : String) (i : ℕ) : String := taskId ++ "#" ++ toString i

/-- `task_display_key`: the per-instance key, `id` or `id#<map_index>`. -/
def taskDisplayKey (taskId : String) : Option ℕ → String
  | none => taskId
  | some i => instanceKey taskId i

/-! ## The document -/

/-- The recorded fan-out of a mapped task. -/
structure MapRecord where
  /-- The items mapped over, one instance each. -/
  items : List Json
  expandedAt : Time

/-- A run document. A fan-out record can be null, which reads as "no instances". -/
structure RunBody where
  dag : String
  runKey : String
  runId : String
  logicalDate : Option String
  kind : String
  state : TaskState
  createdAt : Time
  updatedAt : Time
  /-- The task entries. -/
  tasks : Dict String TaskEntry
  /-- The recorded fan-outs. -/
  mapped : Dict String (Option MapRecord)

namespace RunBody

/-- Write the entry at `key`. -/
def setEntry (body : RunBody) (key : String) (entry : TaskEntry) : RunBody :=
  { body with tasks := body.tasks.set key entry }

@[simp]
lemma setEntry_tasks (body : RunBody) (key : String) (entry : TaskEntry) :
    (body.setEntry key entry).tasks = body.tasks.set key entry := rfl

@[simp]
lemma setEntry_mapped (body : RunBody) (key : String) (entry : TaskEntry) :
    (body.setEntry key entry).mapped = body.mapped := rfl

@[simp]
lemma setEntry_state (body : RunBody) (key : String) (entry : TaskEntry) :
    (body.setEntry key entry).state = body.state := rfl

/-- Writing back the stored entry changes nothing. -/
theorem setEntry_eq_self {body : RunBody} {key : String} {entry : TaskEntry}
    (h : body.tasks.get? key = some entry) : body.setEntry key entry = body := by
  rw [setEntry, Dict.set_eq_self h]

/-- `is_terminal_run`. -/
def terminalRun (body : RunBody) : Bool := body.state == .success || body.state == .failed

/-- The items of a recorded fan-out; a null record has none. -/
def items (body : RunBody) (taskId : String) : List Json :=
  match body.mapped.get? taskId with
  | some (some record) => record.items
  | _ => []

end RunBody

/-- `new_run_body`: every task pending, the run running. -/
def newRunBody (dag runKey runId : String) (logicalDate : Option String) (kind : String)
    (now : Time) (spec : DagSpec) : RunBody :=
  { dag, runKey, runId, logicalDate, kind
    state := .running
    createdAt := now
    updatedAt := now
    tasks := Dict.ofList (spec.tasks.map fun t => (t.id, newTaskEntry t now))
    mapped := .empty }

/-- A stored document before the null-shape check: `body` holds everything that is not null,
`mappedNull` says that `mapped` is null and `nullTasks` are the keys of the null entries. -/
structure StoredBody where
  body : RunBody
  mappedNull : Bool
  nullTasks : List String

/-- `_refuse_null_shapes`: refuse a null `mapped` and null task entries. -/
def refuseNullShapes (stored : StoredBody) : Except String Unit :=
  if stored.mappedNull then
    .error "damaged run document: 'mapped' is null"
  else match stored.nullTasks with
  | taskkey :: _ =>
    .error ("damaged run document: task entry " ++ PyText.quoted taskkey ++ " is null")
  | [] => .ok ()

/-! ## Results of the transforms -/

/-- One task instance the driver should start a subprocess for. -/
structure LaunchIntent where
  taskId : String
  taskkey : String
  mapIndex : Option ℕ
  mapItem : Option Json
  attempt : ℕ
  isSensor : Bool
  /-- The poke count of a sensor; 0 for a plain task. -/
  pokeNumber : ℕ

/-- What a claim pass decided. -/
structure AdvanceResult where
  launches : List LaunchIntent := []
  changed : Bool := false
  runTerminal : Bool := false
  /-- The launch quota was spent: more instances are claimable right now. -/
  deferred : Bool := false
  /-- How many entries the pass brought to a terminal state. -/
  ended : ℕ := 0

/-- A pass in progress: the working copy of the document and the result so far. -/
structure Pass where
  body : RunBody
  result : AdvanceResult := {}

end Cronstable.Dag

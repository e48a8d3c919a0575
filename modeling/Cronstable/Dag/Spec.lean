import Cronstable.Lib.Kahn
import Cronstable.Lib.PyText

/-!
# Static DAG specifications

The static half of `dag.py`: the specification of one task (`TaskSpec`), of a whole DAG
(`DagSpec`), the checks a configuration must pass (`validateGraph`) and the upstream-first order
of the tasks (`upstreamFirst`).

`_check_acyclic` and `_upstream_first` are both Kahn's algorithm over the deduplicated
`depends_on` edges, one taking nodes from a stack and the other from a queue. Both are written
over `Kahn.release`, the count-down of the dependents of one node.

Seconds are rationals: the source compares and adds wall-clock readings, and nothing here depends
on how floating point rounds them. The fields `poke_jitter` and `on_reject` are read by the driver
alone and are left out.
-/

namespace Cronstable.Dag

/-- Wall-clock seconds, and durations in seconds. -/
abbrev Time := ℚ

/-- The node types: a plain task, a sensor, an approval gate. -/
inductive TaskType
  | task
  | sensor
  | approval
  deriving DecidableEq, Repr

/-- The source's name of a node type. -/
def TaskType.name : TaskType → String
  | .task => "task"
  | .sensor => "sensor"
  | .approval => "approval"

/-- When a task's upstreams let it start. -/
inductive TriggerRule
  | allSuccess
  | allDone
  deriving DecidableEq, Repr

/-- A dynamic-mapping directive: fan out over an upstream's XCom list. -/
structure ExpandSpec where
  /-- The task whose list is mapped over. -/
  fromTask : String
  /-- The XCom key of the list. -/
  key : String
  deriving DecidableEq, Repr

/-- One node of a DAG. -/
structure TaskSpec where
  /-- The task id. -/
  id : String
  /-- The node type. -/
  type : TaskType := .task
  /-- The ids of the upstream tasks. -/
  dependsOn : List String := []
  /-- When the upstreams let the task start. -/
  triggerRule : TriggerRule := .allSuccess
  /-- How often the task is attempted. -/
  maxAttempts : ℕ := 1
  /-- Seconds between a failed attempt and the next one. -/
  retryDelay : Time := 0
  /-- The mapping directive of a mapped task. -/
  expand : Option ExpandSpec := none
  /-- Seconds between two pokes of a sensor. -/
  pokeInterval : Time := 30
  /-- Seconds after the first poke at which a sensor gives up. -/
  pokeTimeout : Time := 3600
  /-- The configuration loader refuses negative `retries` and stores `retries + 1`. -/
  maxAttempts_pos : 1 ≤ maxAttempts := by exact Nat.one_pos
  deriving DecidableEq

/-- A whole DAG: its tasks in declaration order. -/
structure DagSpec where
  /-- The DAG's name. -/
  name : String
  /-- The tasks, in declaration order. -/
  tasks : List TaskSpec

namespace DagSpec

/-- The id index `by_id` that `DagSpec.build` stores. -/
def byId (spec : DagSpec) : Dict String TaskSpec :=
  Dict.ofList (spec.tasks.map fun t => (t.id, t))

/-- The `expand`-carrying tasks that `DagSpec.build` stores as `mapped_tasks`. -/
def mappedTasks (spec : DagSpec) : List TaskSpec := spec.tasks.filter (·.expand.isSome)

end DagSpec

/-! ## Graph validation -/

/-- A malformed DAG graph. -/
structure DagValidationError where
  /-- The error text. -/
  message : String
  deriving DecidableEq, Repr

/-- The characters barred from a task id: the C0 control range and DEL. -/
def idControl (c : Char) : Bool := decide (c.toNat ≤ 0x1f) || decide (c.toNat = 0x7f)

/-- The checks on one task id, against the tasks seen before it. -/
def validateId (task : TaskSpec) (seen : Dict String TaskSpec) :
    Except DagValidationError Unit :=
  if task.id = "" then
    .error ⟨"a task id must be non-empty"⟩
  else if '#' ∈ task.id.toList ∨ '/' ∈ task.id.toList then
    .error ⟨"task id " ++ PyText.quoted task.id ++ " may not contain '#' or '/'"⟩
  else if task.id.toList.any idControl then
    .error ⟨"task id " ++ PyText.quoted task.id ++ " may not contain control characters"⟩
  else if seen.contains task.id then
    .error ⟨"duplicate task id " ++ PyText.quoted task.id⟩
  else
    .ok ()

/-- The first loop of `validate_graph`: check the ids and index the tasks by them. -/
def validateIds : List TaskSpec → Dict String TaskSpec →
    Except DagValidationError (Dict String TaskSpec)
  | [], seen => .ok seen
  | task :: tasks, seen => do
    validateId task seen
    validateIds tasks (seen.set task.id task)

/-- `_validate_expand`: a mapping directive names a direct, unmapped dependency of a plain
task. -/
def validateExpand (task : TaskSpec) (exp : ExpandSpec) (seen : Dict String TaskSpec) :
    Except DagValidationError Unit :=
  if task.type ≠ .task then
    .error ⟨"task " ++ PyText.quoted task.id ++
      ": only a plain task can be mapped with expand, not a " ++ task.type.name⟩
  else match seen.get? exp.fromTask with
  | none =>
    .error ⟨"task " ++ PyText.quoted task.id ++ ": expand.fromTask " ++
      PyText.quoted exp.fromTask ++ " is not a task"⟩
  | some source =>
    if exp.fromTask ∉ task.dependsOn then
      .error ⟨"task " ++ PyText.quoted task.id ++ ": expand.fromTask " ++
        PyText.quoted exp.fromTask ++ " must be a direct dependsOn"⟩
    else if source.expand.isSome then
      .error ⟨"task " ++ PyText.quoted task.id ++ ": expand.fromTask " ++
        PyText.quoted exp.fromTask ++
        " is itself mapped; chaining mapped tasks is not supported"⟩
    else
      .ok ()

/-- The checks on one `depends_on` entry of `task`. -/
def validateDep (task : TaskSpec) (seen : Dict String TaskSpec) (dep : String) :
    Except DagValidationError Unit :=
  if !seen.contains dep then
    .error ⟨"task " ++ PyText.quoted task.id ++ " dependsOn unknown task " ++
      PyText.quoted dep⟩
  else if dep = task.id then
    .error ⟨"task " ++ PyText.quoted task.id ++ " dependsOn itself"⟩
  else
    .ok ()

/-- The second loop of `validate_graph`: check the edges and the mapping directives. -/
def validateEdges (tasks : List TaskSpec) (seen : Dict String TaskSpec) :
    Except DagValidationError Unit :=
  tasks.forM fun task => do
    task.dependsOn.forM (validateDep task seen)
    match task.expand with
    | none => .ok ()
    | some exp => validateExpand task exp seen

/-! ### The acyclicity check -/

/-- The deduplicated upstreams of a task: a repeated `depends_on` entry is one edge. -/
def TaskSpec.deps (task : TaskSpec) : List String := task.dependsOn.dedup

section Kahn

-- `_check_acyclic` counts every deduplicated edge, `_upstream_first` those with a known upstream
variable (deps : TaskSpec → List String)

/-- The reverse adjacency: the ids of the tasks that depend on `dep`, in declaration order. -/
def dependents (tasks : List TaskSpec) (dep : String) : List String :=
  (tasks.filter fun t => dep ∈ deps t).map (·.id)

/-- The initial number of upstreams of each task. -/
def indegrees (tasks : List TaskSpec) : Dict String ℤ :=
  Dict.ofList (tasks.map fun t => (t.id, ((deps t).length : ℤ)))

/-- The tasks without upstreams, in declaration order. -/
def roots (tasks : List TaskSpec) : List String :=
  (tasks.filter fun t => (deps t).isEmpty).map (·.id)

end Kahn

/-- The loop of `_check_acyclic`: take the top of the ready stack, count it, and push the
dependents it was the last upstream of. Each task is taken at most once, so `fuel` many rounds
are enough. Returns how many tasks were taken and the indegrees left. -/
def kahnLoop (tasks : List TaskSpec) : ℕ → Dict String ℤ → List String → ℕ → ℕ × Dict String ℤ
  | 0, indeg, _, ordered => (ordered, indeg)
  | _ + 1, indeg, [], ordered => (ordered, indeg)
  | fuel + 1, indeg, tid :: ready, ordered =>
    let released := Kahn.release indeg (dependents TaskSpec.deps tasks tid)
    -- the source appends and pops at the end of the list, the top of the stack is our head
    kahnLoop tasks fuel released.1 (released.2.reverse ++ ready) (ordered + 1)

/-- `_check_acyclic`: every task can be taken after its upstreams. -/
def checkAcyclic (spec : DagSpec) : Except DagValidationError Unit :=
  let taken := kahnLoop spec.tasks spec.tasks.length (indegrees TaskSpec.deps spec.tasks)
    (roots TaskSpec.deps spec.tasks).reverse 0
  if taken.1 ≠ spec.tasks.length then
    let cyclic := (taken.2.items.filter fun p => 0 < p.2).map Prod.fst
    .error ⟨"the dependency graph has a cycle involving: " ++
      ", ".intercalate (cyclic.mergeSort fun a b => decide (a ≤ b))⟩
  else
    .ok ()

/-- `validate_graph`: the checks a DAG must pass before it is loaded. -/
def validateGraph (spec : DagSpec) : Except DagValidationError Unit := do
  let seen ← validateIds spec.tasks .empty
  validateEdges spec.tasks seen
  checkAcyclic spec

/-! ## The upstream-first order -/

/-- Whether every task is listed after its upstreams, `listed` being the ids seen so far. -/
def listedInOrder : List TaskSpec → List String → Bool
  | [], _ => true
  | task :: tasks, listed =>
    task.dependsOn.all (listed.contains ·) && listedInOrder tasks (task.id :: listed)

/-- The upstreams of a task that the DAG defines: an undefined one constrains nothing. -/
def knownDeps (spec : DagSpec) (task : TaskSpec) : List String :=
  task.deps.filter spec.byId.contains

/-- The queue loop of `_upstream_first`: `placed` are the tasks whose dependents were counted
down, `queue` those still ahead in `order`. -/
def orderLoop (spec : DagSpec) : ℕ → Dict String ℤ → List String → List String → List String
  | 0, _, placed, queue => placed ++ queue
  | _ + 1, _, placed, [] => placed
  | fuel + 1, waiting, placed, tid :: queue =>
    let released := Kahn.release waiting (dependents (knownDeps spec) spec.tasks tid)
    orderLoop spec fuel released.1 (placed ++ [tid]) (queue ++ released.2)

/-- `_upstream_first`: the tasks ordered so that each one follows its upstreams, or `none` when
they are already listed that way. -/
def upstreamFirst (spec : DagSpec) : Option (List TaskSpec) :=
  if listedInOrder spec.tasks [] then
    none
  else
    let order := orderLoop spec spec.tasks.length (indegrees (knownDeps spec) spec.tasks) []
      (roots (knownDeps spec) spec.tasks)
    some (order.filterMap spec.byId.get?)

end Cronstable.Dag

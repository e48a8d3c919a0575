import Cronstable.Dag.Ownership

/-!
# The completions of a node's tasks

The reaper hands every finished task to `on_task_finished`, which buffers its completion;
`flush_completions` records the buffer, one batched document write per run. A write may raise for
its caller, and then still be carried out later or never, so a completion whose write raised is
queued, and `_retry_completions` tries it again on later service passes. An advance whose launch
fails reports the failure by the same `_finish_task` as the retry.

The flush, the retry and the advances are coroutines of one node, suspended at each document write.
`Node` holds what they share, `Node.step` is what each does between two suspensions. The loops of
the flush and the retry are cut between two rounds as well, so the model has every interleaving of
the program, and more.

## Main definitions

* `queueCompletion`, `settleCompletion`, `dropCompletion`: the retry queue;
* `Node.flushRunCompletions`, `Node.finishTask`, `Node.retryCompletion`: the writers;
* `Node.Owed`, `Node.Carried`: where a completion is;
* `Node.Clear`: a step has the store it needs, and the queue holds nothing in its way.
-/

namespace Cronstable.Dag.Completions

/-- The name of the DAG and the key of the run. -/
abbrev RunRef := String × String

/-- What a finished task reports, with the identity of the launch that produced it. -/
structure Completion where
  taskkey : String
  taskId : String
  success : Bool
  exitCode : Option ℤ := none
  failReason : Option String := none
  proc : String
  attempt : ℕ
  /-- The poke count of a sensor. -/
  poke : Option ℕ := none
  resources : Option JsonObject := none
  verification : Option JsonObject := none
  limits : Option JsonObject := none
  /-- Which finished job this is, in the order in which the node hands them over. -/
  job : ℕ

/-- What `_queue_completion` keeps of a completion. -/
def Completion.queued (c : Completion) : Completion :=
  { c with verification := none, limits := none }

@[simp]
lemma Completion.queued_queued (c : Completion) : c.queued.queued = c.queued := rfl

/-! ## The retry queue -/

/-- A completion whose write raised. -/
structure Pending where
  completion : Completion
  delay : Time
  nextTryAt : Time

/-- `_pending_completions`, by run and task key. -/
abbrev Queue := Dict (RunRef × String) Pending

/-- `COMPLETION_RETRY_DELAY`. -/
def completionRetryDelay : Time := 5

/-- `COMPLETION_RETRY_MAX_DELAY`. -/
def completionRetryMaxDelay : Time := 60

/-- `_queue_completion`. -/
def queueCompletion (q : Queue) (ref : RunRef) (now : Time) (c : Completion) : Queue :=
  let delay := match q.get? (ref, c.taskkey) with
    | none => completionRetryDelay
    | some prior => min (prior.delay * 2) completionRetryMaxDelay
  q.set (ref, c.taskkey) { completion := c.queued, delay, nextTryAt := now + delay }

/-- `_requeue_entries`. -/
def requeueEntries (q : Queue) (ref : RunRef) (now : Time) (entries : List Completion) : Queue :=
  entries.foldl (fun q c => queueCompletion q ref now c) q

/-- What `_settle_completion` and `_drop_completion` both do to the queue. -/
def popCompletion (q : Queue) (ref : RunRef) (c : Completion) : Queue := q.erase (ref, c.taskkey)

/-- `_settle_completion`: the completion was applied or fenced out. -/
def settleCompletion : Queue → RunRef → Completion → Queue := popCompletion

/-- `_drop_completion`: the completion will never be recorded. -/
def dropCompletion : Queue → RunRef → Completion → Queue := popCompletion

/-- Popping every completion of a batch. -/
def popAll (q : Queue) (ref : RunRef) (entries : List Completion) : Queue :=
  entries.foldl (fun q c => popCompletion q ref c) q

/-! ## Document writes -/

/-- The coroutine that waits for a write. -/
inductive Caller
  | flush
  | retry
  /-- An advance whose launch failed. -/
  | launch
  deriving DecidableEq

/-- What a write is to its caller. -/
inductive Status
  | awaited
  | returned
  | raised
  deriving DecidableEq

/-- A completion that is about to be recorded, with the task it belongs to. -/
structure Live where
  entry : Completion
  task : TaskSpec
  jitter : Time

/-- The mark of a completion. -/
def Live.mark (l : Live) : CompletionMark :=
  { taskkey := l.entry.taskkey
    success := l.entry.success
    exitCode := l.entry.exitCode
    failReason := l.entry.failReason
    task := l.task
    jitter := l.jitter
    expectedProc := some l.entry.proc
    expectedAttempt := some l.entry.attempt
    expectedPoke := l.entry.poke
    resources := l.entry.resources
    verification := l.entry.verification
    limits := l.entry.limits }

/-- A `_mutate` that records completions. -/
structure Call where
  ref : RunRef
  live : List Live
  now : Time
  caller : Caller
  /-- The store has carried it out. -/
  landed : Bool := false
  status : Status := .awaited

/-- The write carries the completion, as it was handed over or as it was queued. -/
def Call.Carries (call : Call) (ref : RunRef) (c : Completion) : Prop :=
  call.ref = ref ∧ ∃ l ∈ call.live, l.entry.queued = c.queued

/-- What the clock and the random source answer. -/
structure Env where
  now : Time
  jitter : Completion → Time

/-- A completion of a task of the DAG. -/
def Env.live (env : Env) (spec : DagSpec) (c : Completion) : Option Live :=
  (spec.byId.get? c.taskId).map fun task =>
    { entry := c, task, jitter := if task.type = .sensor then env.jitter c else 0 }

/-! ## The node -/

/-- A loop over a list with document writes in its body. -/
structure Loop (α : Type) where
  rest : List α
  /-- It is suspended at a write. -/
  waiting : Bool := false

/-- What the coroutines of a node share, and the documents. -/
structure Node where
  /-- `_dags()`. -/
  dags : Dict String DagSpec
  /-- There is a store. -/
  backend : Bool
  docs : Dict RunRef RunBody
  /-- How many jobs were handed over. -/
  jobs : ℕ := 0
  /-- `_completion_buffer`. -/
  buffer : Dict RunRef (List Completion) := .empty
  /-- `_pending_completions`. -/
  pending : Queue := .empty
  /-- `flush_completions`, with the batches it has still to record. -/
  flush : Option (Loop (RunRef × List Completion)) := none
  /-- `_retry_completions`, with its `now` and the keys it has still to look at. -/
  retry : Option (Time × Loop (RunRef × String)) := none
  /-- The writes so far, oldest first. -/
  calls : List Call := []

inductive Event
  /-- A configuration reload. -/
  | reload (dags : Dict String DagSpec)
  /-- `start_stop_state` takes the store away, or brings one. -/
  | rebuild (backend : Bool)
  /-- `on_task_finished`. -/
  | hand (ref : RunRef) (c : Completion)
  /-- `flush_completions` is called. -/
  | flush
  /-- Its loop goes on. -/
  | flushNext (env : Env)
  /-- `_retry_completions` is called. -/
  | retry (now : Time)
  /-- Its loop goes on. -/
  | retryNext (env : Env)
  /-- An advance fails to launch a task of the DAG it read. -/
  | launchFailed (env : Env) (ref : RunRef) (spec : DagSpec) (c : Completion)
  /-- The store carries a write out. -/
  | land (call : ℕ)
  /-- A write that was carried out returns to its caller. -/
  | returns (call : ℕ)
  /-- A write raises or times out for its caller. -/
  | raises (env : Env) (call : ℕ)
  /-- A run is created. -/
  | create (ref : RunRef) (spec : DagSpec) (runId : String) (logicalDate : Option String)
      (kind : String) (now : Time)
  /-- Another write of an advance is carried out, and launches instances at these keys. -/
  | advance (ref : RunRef) (spec : DagSpec) (op : Op) (launched : List String)

namespace Node

/-- A coroutine is suspended, or goes on. -/
def setWaiting (s : Node) (waiting : Bool) : Caller → Node
  | .flush => { s with flush := s.flush.map ({ · with waiting }) }
  | .retry => { s with retry := s.retry.map fun r => (r.1, { r.2 with waiting }) }
  | .launch => s

/-- `_mutate`, up to its suspension. -/
def mutate (s : Node) (ref : RunRef) (live : List Live) (caller : Caller) (now : Time) : Node :=
  ({ s with calls := s.calls ++ [{ ref, live, now, caller }] } : Node).setWaiting true caller

/-- `on_task_finished`. -/
def onTaskFinished (s : Node) (ref : RunRef) (c : Completion) : Node :=
  if s.dags.contains ref.1 then
    { s with buffer := s.buffer.set ref ((s.buffer.get? ref).getD [] ++ [c]) }
  else { s with pending := dropCompletion s.pending ref c }

/-- `_flush_run_completions`. -/
def flushRunCompletions (s : Node) (env : Env) (ref : RunRef) (entries : List Completion) : Node :=
  match s.dags.get? ref.1 with
  | none => { s with pending := popAll s.pending ref entries }
  | some spec =>
    let removed := entries.filter fun c => (spec.byId.get? c.taskId).isNone
    let live := entries.filterMap (env.live spec)
    let s := { s with pending := popAll s.pending ref removed }
    if live.isEmpty then s
    else if s.backend then s.mutate ref live .flush env.now
    else { s with pending := requeueEntries s.pending ref env.now (live.map Live.entry) }

/-- `_finish_task`. Without a store `_mutate` returns at once. -/
def finishTask (s : Node) (env : Env) (spec : DagSpec) (ref : RunRef) (c : Completion)
    (caller : Caller) : Node :=
  match env.live spec c with
  | none => { s with pending := dropCompletion s.pending ref c }
  | some live =>
    if s.backend then s.mutate ref [live] caller env.now
    else { s with pending := settleCompletion s.pending ref c }

/-- One round of `_retry_completions`. -/
def retryCompletion (s : Node) (env : Env) (now : Time) (key : RunRef × String) : Node :=
  match s.pending.get? key with
  | none => s
  | some pc =>
    if now < pc.nextTryAt then s
    else match s.dags.get? key.1.1 with
      | none => { s with pending := dropCompletion s.pending key.1 pc.completion }
      | some spec => s.finishTask env spec key.1 pc.completion .retry

/-- The store carries a write out. -/
def land (s : Node) (i : ℕ) (call : Call) : Node :=
  { s with
    calls := s.calls.set i { call with landed := true }
    docs := match s.docs.get? call.ref with
      | none => s.docs
      | some body =>
        s.docs.set call.ref
          ((markTasksFinished (call.live.map Live.mark) call.now body).1.getD body) }

/-- A write returns: its completions are settled, and its caller goes on. -/
def returns (s : Node) (i : ℕ) (call : Call) : Node :=
  ({ s with
    calls := s.calls.set i { call with status := .returned }
    pending := popAll s.pending call.ref (call.live.map Live.entry) } : Node).setWaiting false
      call.caller

/-- A write raises: its completions are queued, and its caller goes on. -/
def raises (s : Node) (env : Env) (i : ℕ) (call : Call) : Node :=
  ({ s with
    calls := s.calls.set i { call with status := .raised }
    pending := requeueEntries s.pending call.ref env.now (call.live.map Live.entry) } :
      Node).setWaiting false call.caller

/-- What happens at an event; `none` when it cannot occur. -/
def step (s : Node) : Event → Option Node
  | .reload dags => some { s with dags }
  | .rebuild backend => some { s with backend }
  | .hand ref c =>
    if c.job = s.jobs then some (({ s with jobs := s.jobs + 1 } : Node).onTaskFinished ref c)
    else none
  | .flush =>
    if s.flush.isNone then
      some { s with buffer := .empty, flush := some { rest := s.buffer.items } }
    else none
  | .flushNext env =>
    match s.flush with
    | some ⟨(ref, entries) :: rest, false⟩ =>
      some (({ s with flush := some { rest } } : Node).flushRunCompletions env ref entries)
    | some ⟨[], false⟩ => some { s with flush := none }
    | _ => none
  | .retry now =>
    if s.retry.isNone && s.backend then
      some { s with retry := some (now, { rest := s.pending.keys }) }
    else none
  | .retryNext env =>
    match s.retry with
    | some (now, ⟨key :: rest, false⟩) =>
      some (({ s with retry := some (now, { rest }) } : Node).retryCompletion env now key)
    | some (_, ⟨[], false⟩) => some { s with retry := none }
    | _ => none
  | .launchFailed env ref spec c =>
    if c.job = s.jobs ∧ spec.byId.contains c.taskId then
      some (({ s with jobs := s.jobs + 1 } : Node).finishTask env spec ref c .launch)
    else none
  | .land i =>
    match s.calls[i]? with
    | some call => if call.landed then none else some (s.land i call)
    | none => none
  | .returns i =>
    match s.calls[i]? with
    | some call =>
      if call.status = .awaited ∧ call.landed then some (s.returns i call) else none
    | none => none
  | .raises env i =>
    match s.calls[i]? with
    | some call => if call.status = .awaited then some (s.raises env i call) else none
    | none => none
  | .create ref spec runId logicalDate kind now =>
    if (s.docs.get? ref).isNone ∧ validateGraph spec = .ok () then
      some { s with
        docs := s.docs.set ref (newRunBody ref.1 ref.2 runId logicalDate kind now spec) }
    else none
  | .advance ref spec op launched =>
    match s.docs.get? ref with
    | some body =>
      if validateGraph spec = .ok () ∧
          launched = (op.launches spec body).map LaunchIntent.taskkey then
        some { s with docs := s.docs.set ref (op.apply spec body) }
      else none
    | none => none

/-! ## Where a completion is -/

/-- The completion has still to be recorded. -/
inductive Owed (s : Node) (ref : RunRef) (c : Completion) : Prop
  | buffered {entries : List Completion} (hget : s.buffer.get? ref = some entries)
      (hmem : c ∈ entries)
  /-- The flush took it over and has not come to it. -/
  | taken {loop : Loop (RunRef × List Completion)} {entries : List Completion}
      (hflush : s.flush = some loop) (hrest : (ref, entries) ∈ loop.rest) (hmem : c ∈ entries)
  | queued {p : Pending} (hget : s.pending.get? (ref, c.taskkey) = some p)
      (hcopy : p.completion = c.queued)
  /-- It is in a write that is not finished. -/
  | awaited {i : ℕ} {call : Call} (hget : s.calls[i]? = some call) (hcarries : call.Carries ref c)
      (hstatus : call.status = .awaited)

/-- A write that carried the completion has returned. -/
def Carried (s : Node) (ref : RunRef) (c : Completion) : Prop :=
  ∃ (i : ℕ) (call : Call),
    s.calls[i]? = some call ∧ call.Carries ref c ∧ call.status = .returned

/-- The task entry runs under the token, the attempt and the poke of the completion. -/
def LeftRunning (s : Node) (ref : RunRef) (c : Completion) : Prop :=
  ∃ body e, s.docs.get? ref = some body ∧ body.tasks.get? c.taskkey = some e ∧
    e.state = .running ∧ e.proc = some c.proc ∧ e.attempt = c.attempt ∧
    ∀ n, c.poke = some n → e.poke = n

/-- The DAG and the task of a completion are configured. -/
def Configured (dags : Dict String DagSpec) (ref : RunRef) (c : Completion) : Prop :=
  ∃ spec, dags.get? ref.1 = some spec ∧ spec.byId.contains c.taskId

/-! ## What stands in the way -/

/-- The completions that a step settles or queues, or drops because their tasks are gone. -/
def handles (s : Node) : Event → List (RunRef × Completion)
  | .flushNext _ =>
    match s.flush with
    | some ⟨(ref, entries) :: _, false⟩ =>
      match s.dags.get? ref.1 with
      | none => []
      | some spec =>
        (entries.filter fun c => !s.backend || (spec.byId.get? c.taskId).isNone).map
          (Prod.mk ref)
    | _ => []
  | .returns i | .raises _ i =>
    match s.calls[i]? with
    | some call => call.live.map fun l => (call.ref, l.entry)
    | none => []
  | _ => []

/-- A `_finish_task` that is called finds a store. Without one it settles the completion that it did
not record. -/
def served (s : Node) : Event → Bool
  | .retryNext _ =>
    match s.retry with
    | some (now, ⟨key :: _, false⟩) =>
      (s.pending.get? key).all fun pc => decide (now < pc.nextTryAt) || s.backend
    | _ => true
  | .launchFailed .. => s.backend
  | _ => true

/-- The step has a store where it needs one. At the run and task key of each completion that it
handles, the queue holds nothing but that completion, and the step handles no other. -/
def Clear (s : Node) (ev : Event) : Prop :=
  s.served ev ∧ ∀ x ∈ s.handles ev,
    (∀ p, s.pending.get? (x.1, x.2.taskkey) = some p → p.completion = x.2.queued) ∧
    ∀ y ∈ s.handles ev, y.2.taskkey = x.2.taskkey → y.2.queued = x.2.queued

/-- A step with nothing in its way. -/
def ClearStep (s : Node) (ev : Event) (s' : Node) : Prop := s.step ev = some s' ∧ s.Clear ev

end Node

end Cronstable.Dag.Completions

import Cronstable.Lib.Dict
import Cronstable.Lib.Trace

/-!
# Run retention and recovery

A recovery replays a finished run, its source. `recover` writes the recovery run, which is
`preparing` until its artifacts are copied; `recover_range` first writes a batch that names the
sources of several recoveries. Run retention deletes finished runs, except those that a recovery in
preparation or an open batch names. The two meet at the lease of the source run: a recovery is
written under it, and retention reads the references and deletes under it.

`State.step` is the store with any number of requests and retention passes, cut at their store
calls. Time passes between the steps. A call that returns does so within `STATE_OP_TIMEOUT`; a write
that its caller gave up may be carried out later, while the lease it was made under is unexpired. A
read of the references sees every document that was there before it began and is still there.
Who holds a lease beside these, and how runs and batches go on, is left to events of their own.

The model numbers its steps. A plan keeps the step at which its source was read, a document the one
at which it was written, a deletion the one at which it happened; nothing is decided by them.

## Main definitions

* `Request`: where a `recover`, a `recover_range` or a retention pass is;
* `State.step`: their steps;
* `State.Clear`: what a step must be clear of for the sources of recoveries to be safe.
-/

namespace Cronstable.Dag.Retention

/-- Instants and delays, in microseconds. -/
abbrev Instant := ℕ

/-- A second. -/
def second : Instant := 1000000

/-- `STATE_OP_TIMEOUT`. -/
def stateOpTimeout : Instant := 10 * second

/-- `GC_LEASE_TTL`, `RECOVERY_SOURCE_LEASE_TTL`, and what `recover` takes its lease for. -/
def leaseTtl : Instant := 60 * second

/-- `RECOVERY_BATCH_TTL`. -/
def recoveryBatchTtl : Instant := 7 * 86400 * second

/-- `RECOVERY_MAX_ARTIFACTS`. -/
def recoveryMaxArtifacts : ℕ := 10000

/-- Run keys. That of a recovery run is `recovery-` and the token of its plan. -/
inductive RunKey
  | run (key : String)
  | recovery (token : String)
  deriving DecidableEq

/-- A recovery plan. -/
structure Plan where
  sourceRunKey : RunKey
  sourceRunId : String
  /-- How many artifacts it keeps. -/
  artifacts : ℕ
  /-- When the source was read. -/
  planned : ℕ
  deriving DecidableEq

/-- A run document. -/
structure Run where
  runId : String
  createdAt : Instant
  /-- `is_terminal_run`. -/
  terminal : Bool
  /-- The plan of a recovery run with status `preparing`. -/
  preparing : Option Plan := none
  born : ℕ
  deriving DecidableEq

/-- A recovery batch. -/
structure Batch where
  plans : List Plan
  complete : Bool
  expiresAt : Instant
  born : ℕ
  deriving DecidableEq

/-- A batch is open until it is complete or expires. -/
def Batch.isOpen (b : Batch) (now : Instant) : Bool := !b.complete && decide (now < b.expiresAt)

/-- A finished run that a retention pass listed. -/
structure Target where
  key : RunKey
  runId : String
  createdAt : Instant

/-- A run whose lease a retention pass holds. -/
structure Held where
  target : Target
  /-- When it asked for the lease. -/
  taken : Instant
  /-- When the lease was granted. -/
  since : Instant

/-- The leases a request has, with the time since when. -/
abbrev Leases := List (RunKey × Instant)

/-- Where a request is. `since` is when the first of its leases was granted, `issued` when the call
it waits for began. -/
inductive Request
  | idle
  /-- `recover` asks for the lease of the source. -/
  | leasing (source : RunKey) (issued : Instant)
  /-- `recover` reads the source. -/
  | planning (source : RunKey) (since issued : Instant)
  /-- `recover` checks the artifacts; so many calls are left. -/
  | checking (token : String) (plan : Plan) (since issued : Instant) (left : ℕ)
  /-- `recover` writes the recovery run. -/
  | creating (token : String) (plan : Plan) (since issued : Instant)
  /-- It gave up on that write. -/
  | createOut (token : String) (plan : Plan) (since : Instant)
  /-- `recover_range` has planned some of its sources. -/
  | ranging (plans : List Plan)
  /-- `recover_range` asks for the leases of its sources, and has those of `got`. -/
  | sourcing (token : String) (left got : List Plan) (started since issued : Instant)
  /-- `recover_range` lists the runs. -/
  | listing (token : String) (plans : List Plan) (started since issued : Instant)
  /-- `recover_range` writes the batch under its leases. -/
  | writing (token : String) (plans : List Plan) (since issued : Instant)
  /-- It gave up on that write. -/
  | writeOut (token : String) (plans : List Plan) (since : Instant)
  /-- `recover_range` writes a batch that it found, without leases. -/
  | rewriting (token : String) (plans : List Plan)
  /-- Retention takes leases. -/
  | taking (todo : List Target) (held : List Held) (started : Instant)
  /-- Retention asks for one. -/
  | acquiring (target : Target) (todo : List Target) (held : List Held) (started taken : Instant)
  /-- Retention lists the recovery runs. -/
  | readingRuns (held : List Held) (begun : ℕ) (issued : Instant)
  /-- Retention lists the batches. -/
  | readingBatches (held : List Held) (referenced : List RunKey) (begun : ℕ) (issued : Instant)
  /-- Retention goes through the runs it holds. -/
  | deleting (held : List Held) (referenced : List RunKey)
  /-- Retention deletes a run. -/
  | deletion (entry : Held) (held : List Held) (referenced : List RunKey) (issued : Instant)
  /-- It gave up on that. -/
  | deleteOut (entry : Held)

/-- The runs under lease. -/
def Held.leases (held : List Held) : Leases := held.map fun h => (h.target.key, h.since)

/-- The sources under lease. -/
def Plan.leases (plans : List Plan) (since : Instant) : Leases :=
  plans.map fun plan => (plan.sourceRunKey, since)

namespace Request

/-- The leases that a request works under. -/
def leases : Request → Leases
  | .idle | .leasing .. | .ranging _ | .rewriting .. => []
  | .planning source since _ => [(source, since)]
  | .checking _ plan since _ _ | .creating _ plan since _ | .createOut _ plan since =>
    [(plan.sourceRunKey, since)]
  | .sourcing _ _ plans _ since _ | .listing _ plans _ since _ | .writing _ plans since _
  | .writeOut _ plans since => Plan.leases plans since
  | .taking _ held _ | .acquiring _ _ held _ _ | .readingRuns held _ _ | .readingBatches held _ _ _
  | .deleting held _ => Held.leases held
  | .deletion entry held _ _ => Held.leases (entry :: held)
  | .deleteOut entry => Held.leases [entry]

end Request

/-- Who holds a lease: a request, or somebody else. -/
abbrev Holder := Option ℕ

structure State where
  clock : Instant
  /-- How many steps there were. -/
  steps : ℕ
  runs : Dict RunKey Run
  batches : Dict String Batch
  /-- The leases of the runs, with their expiry. -/
  leases : RunKey → Option (Holder × Instant)
  requests : ℕ → Request
  /-- What retention deleted. -/
  deleted : List (RunKey × ℕ) := []

/-- A step of a request. -/
inductive Action
  /-- The call it waits for raises or times out. -/
  | giveUp
  -- `recover`
  | recover (source : RunKey)
  | leased
  | plan (token : String) (artifacts : ℕ)
  | checked
  | created
  | createdLate
  -- `recover_range`
  | planSource (source : RunKey) (artifacts : ℕ)
  | accept (token : String)
  /-- The batch of the token exists. -/
  | resume (token : String)
  | sourced
  | listed
  | written
  | writtenLate
  -- run retention
  | retain (targets : List Target)
  | take
  | taken
  /-- The read sees these references as well. -/
  | readRuns (more : List RunKey)
  | readBatches (more : List RunKey)
  | next
  | deleted
  | deletedLate

inductive Event
  | tick (delay : Instant)
  /-- A run is created. -/
  | start (key runId : String)
  /-- The owner of a run updates it. -/
  | advance (key : RunKey) (terminal prepared : Bool)
  /-- A result is recorded in a batch. -/
  | record (token : String) (complete : Bool)
  /-- An expired batch is deleted. -/
  | dropBatch (token : String)
  /-- Somebody else takes the lease of a run, or gives one back. -/
  | lease (key : RunKey) (ttl : Instant)
  | unlease (key : RunKey)
  /-- A request releases a lease that it no longer works under. -/
  | release (request : ℕ) (key : RunKey)
  | act (request : ℕ) (action : Action)

namespace State

/-- A request moves on. -/
def setRequest (s : State) (p : ℕ) (x : Request) : State :=
  { s with requests := Function.update s.requests p x }

/-- The lease of a run can be had. -/
def grants (s : State) (holder : Holder) (key : RunKey) : Bool :=
  (s.leases key).all fun lease => decide (lease.1 = holder ∨ lease.2 ≤ s.clock)

/-- `acquire_lease`. -/
def acquire (s : State) (holder : Holder) (key : RunKey) (ttl : Instant) : State :=
  { s with leases := Function.update s.leases key (some (holder, s.clock + ttl)) }

/-- `release_lease`. -/
def releaseLease (s : State) (holder : Holder) (key : RunKey) : State :=
  if (s.leases key).any fun lease => decide (lease.1 = holder) then
    { s with leases := Function.update s.leases key none }
  else s

/-- A call that began then may return now. -/
def inTime (s : State) (issued : Instant) : Bool := decide (s.clock ≤ issued + stateOpTimeout)

/-- The lease that was granted then is unexpired. -/
def unexpired (s : State) (since : Instant) : Bool := decide (s.clock < since + leaseTtl)

/-- `new_run` and its write: an existing document is kept. -/
def createRun (s : State) (token : String) (plan : Plan) : State :=
  let run : Run :=
    { runId := token, createdAt := s.clock, terminal := false, preparing := some plan
      born := s.steps }
  if s.runs.contains (.recovery token) then s
  else { s with runs := s.runs.set (.recovery token) run }

/-- The write of a batch: an existing document is kept. -/
def createBatch (s : State) (token : String) (plans : List Plan) : State :=
  let batch : Batch :=
    { plans, complete := plans.isEmpty, expiresAt := s.clock + recoveryBatchTtl, born := s.steps }
  if s.batches.contains token then s else { s with batches := s.batches.set token batch }

/-- `_delete_run_locked`: the document goes only while it is the finished run that was listed. -/
def deleteRun (s : State) (target : Target) : State :=
  match s.runs.get? target.key with
  | some run =>
    if run.terminal ∧ run.runId = target.runId ∧ run.createdAt = target.createdAt then
      { s with
        runs := s.runs.erase target.key, deleted := (target.key, s.steps) :: s.deleted }
    else s
  | none => s

/-- The sources of the recovery runs in preparation that were there when the read began. -/
def runReferences (s : State) (begun : ℕ) : List RunKey :=
  s.runs.items.filterMap fun
    | (.recovery _, run) =>
      if run.born ≤ begun then run.preparing.map Plan.sourceRunKey else none
    | (.run _, _) => none

/-- The sources of the open batches that were there when the read began. -/
def batchReferences (s : State) (begun : ℕ) : List RunKey :=
  s.batches.values.flatMap fun b =>
    if b.born ≤ begun ∧ b.isOpen s.clock then b.plans.map Plan.sourceRunKey else []

/-- The plan of a finished run. -/
def planOf (s : State) (source : RunKey) (artifacts : ℕ) : Option Plan :=
  match s.runs.get? source with
  | some run =>
    if run.terminal ∧ artifacts ≤ recoveryMaxArtifacts then
      some { sourceRunKey := source, sourceRunId := run.runId, artifacts, planned := s.steps }
    else none
  | none => none

/-- Every planned source is the run it was, by its run ID. -/
def sourcesMatch (s : State) (plans : List Plan) : Bool :=
  plans.all fun plan => (s.runs.get? plan.sourceRunKey).any (·.runId == plan.sourceRunId)

/-- A step of one request. -/
def move (s : State) (p : ℕ) : Request → Action → Option State
  -- recover
  | .idle, .recover source => some (s.setRequest p (.leasing source s.clock))
  | .leasing source issued, .leased =>
    if s.inTime issued then
      if s.grants (some p) source then
        some ((s.acquire (some p) source leaseTtl).setRequest p
          (.planning source s.clock s.clock))
      else some (s.setRequest p .idle)
    else none
  | .planning source since issued, .plan token artifacts =>
    if s.inTime issued then
      match s.planOf source artifacts with
      -- the artifacts are listed, and each one is looked for
      | some plan => some (s.setRequest p (.checking token plan since s.clock (artifacts + 1)))
      | none => some (s.setRequest p .idle)
    else none
  | .checking token plan since issued left, .checked =>
    if s.inTime issued then
      if left ≤ 1 then some (s.setRequest p (.creating token plan since s.clock))
      else some (s.setRequest p (.checking token plan since s.clock (left - 1)))
    else none
  | .creating token plan _ issued, .created =>
    if s.inTime issued then some ((s.createRun token plan).setRequest p .idle) else none
  | .createOut token plan since, .createdLate =>
    if s.unexpired since then some ((s.createRun token plan).setRequest p .idle) else none
  -- recover_range
  | .idle, .planSource source artifacts =>
    (s.planOf source artifacts).map fun plan => s.setRequest p (.ranging [plan])
  | .ranging plans, .planSource source artifacts =>
    (s.planOf source artifacts).map fun plan => s.setRequest p (.ranging (plans ++ [plan]))
  | .ranging plans, .accept token =>
    if s.batches.contains token then none
    else some (s.setRequest p (.sourcing token plans [] s.clock s.clock s.clock))
  | .idle, .resume token =>
    (s.batches.get? token).map fun b => s.setRequest p (.rewriting token b.plans)
  | .sourcing token (plan :: left) got started since issued, .sourced =>
    if s.inTime issued then
      if s.grants (some p) plan.sourceRunKey then
        let since := if got.isEmpty then s.clock else since
        let t := s.acquire (some p) plan.sourceRunKey leaseTtl
        some (t.setRequest p
          (if left.isEmpty then .listing token (got ++ [plan]) started since s.clock
            else .sourcing token left (got ++ [plan]) started since s.clock))
      else some (s.setRequest p .idle)
    else none
  | .listing token plans started since issued, .listed =>
    if s.inTime issued then
      if s.sourcesMatch plans ∧ s.clock - started < leaseTtl / 2 then
        some (s.setRequest p (.writing token plans since s.clock))
      else some (s.setRequest p .idle)
    else none
  | .writing token plans _ issued, .written =>
    if s.inTime issued then some ((s.createBatch token plans).setRequest p .idle) else none
  | .writeOut token plans since, .writtenLate =>
    if s.unexpired since then some ((s.createBatch token plans).setRequest p .idle) else none
  | .rewriting token plans, .written => some ((s.createBatch token plans).setRequest p .idle)
  -- run retention
  | .idle, .retain targets => some (s.setRequest p (.taking targets [] s.clock))
  | .taking todo held started, .take =>
    match todo with
    | target :: todo =>
      if held ≠ [] ∧ leaseTtl / 4 ≤ s.clock - started then
        some (s.setRequest p (.readingRuns held s.steps s.clock))
      else some (s.setRequest p (.acquiring target todo held started s.clock))
    | [] =>
      if held = [] then some (s.setRequest p .idle)
      else some (s.setRequest p (.readingRuns held s.steps s.clock))
  | .acquiring target todo held started taken, .taken =>
    if s.inTime taken then
      if s.grants (some p) target.key then
        some ((s.acquire (some p) target.key leaseTtl).setRequest p
          (.taking todo (held ++ [{ target, taken, since := s.clock }]) started))
      else some (s.setRequest p (.taking todo held started))
    else none
  | .readingRuns held begun issued, .readRuns more =>
    if s.inTime issued then
      some (s.setRequest p
        (.readingBatches held (s.runReferences begun ++ more) s.steps s.clock))
    else none
  | .readingBatches held referenced begun issued, .readBatches more =>
    if s.inTime issued then
      some (s.setRequest p (.deleting held (referenced ++ s.batchReferences begun ++ more)))
    else none
  | .deleting held referenced, .next =>
    match held with
    | entry :: held =>
      if entry.target.key ∉ referenced ∧ s.clock < entry.taken + leaseTtl / 2 then
        some (s.setRequest p (.deletion entry held referenced s.clock))
      else some (s.setRequest p (.deleting held referenced))
    | [] => some (s.setRequest p .idle)
  | .deletion entry held referenced issued, .deleted =>
    if s.inTime issued then
      some ((s.deleteRun entry.target).setRequest p (.deleting held referenced))
    else none
  | .deleteOut entry, .deletedLate =>
    if s.unexpired entry.since then some ((s.deleteRun entry.target).setRequest p .idle)
    else none
  -- a write that its caller gave up may still be carried out
  | .creating token plan since _, .giveUp => some (s.setRequest p (.createOut token plan since))
  | .writing token plans since _, .giveUp => some (s.setRequest p (.writeOut token plans since))
  | .deletion entry _ _ _, .giveUp => some (s.setRequest p (.deleteOut entry))
  | _, .giveUp => some (s.setRequest p .idle)
  | _, _ => none

/-- What an event does, apart from being counted. -/
def apply (s : State) : Event → Option State
  | .tick delay => some { s with clock := s.clock + delay }
  | .start key runId =>
    let run : Run := { runId, createdAt := s.clock, terminal := false, born := s.steps }
    if s.runs.contains (.run key) then none
    else some { s with runs := s.runs.set (.run key) run }
  | .advance key terminal prepared =>
    (s.runs.get? key).map fun run =>
      let run := { run with terminal, preparing := if prepared then none else run.preparing }
      { s with runs := s.runs.set key run }
  | .record token complete =>
    (s.batches.get? token).map fun b =>
      { s with batches := s.batches.set token { b with complete := b.complete || complete } }
  | .dropBatch token =>
    match s.batches.get? token with
    | some b =>
      if b.expiresAt < s.clock then some { s with batches := s.batches.erase token } else none
    | none => none
  | .lease key ttl => if s.grants none key then some (s.acquire none key ttl) else none
  | .unlease key => some (s.releaseLease none key)
  | .release p key =>
    if key ∈ (s.requests p).leases.map Prod.fst then none
    else some (s.releaseLease (some p) key)
  | .act p action => s.move p (s.requests p) action

/-- One step. -/
def step (s : State) (e : Event) : Option State :=
  (s.apply e).map fun t => { t with steps := s.steps + 1 }

/-- What a step must be clear of: a recovery run is written after the lease of its source expired;
a batch that was found is gone when it is written again; a listed source was deleted since it was
planned, and is there anew under the same run ID. -/
def Clear (s : State) : Event → Prop
  | .act p .created => ∀ token plan since issued,
      s.requests p = .creating token plan since issued → s.unexpired since
  | .act p .written => ∀ token plans, s.requests p = .rewriting token plans →
      s.batches.contains token
  | .act p .listed => ∀ token plans started since issued,
      s.requests p = .listing token plans started since issued → ∀ plan ∈ plans,
        ∀ run ∈ s.runs.get? plan.sourceRunKey, run.runId = plan.sourceRunId →
          run.born ≤ plan.planned
  | _ => True

end State

end Cronstable.Dag.Retention

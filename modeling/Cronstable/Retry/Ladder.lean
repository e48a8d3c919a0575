import Cronstable.Lib.Trace
import Mathlib.Algebra.Order.Group.Int

/-!
# The retry ladder of a job, across the nodes of a cluster

A scheduled run that fails arms retry #1; a retry that fails arms the next one. What a node does
with the ladder is recorded on a stream of the shared store, of which only the newest record
counts: a `pending` record while a retry is armed, a `settled` one before it is launched and when
the ladder ends, a `handoff` when the leadership moved away from the node that armed it. Another
node resumes a ladder whose newest record is a stale `pending` or a `handoff`.

`State.step` is one job's ladder on any number of nodes, cut at the calls of the store. Records are
written by a chain of tasks per node, so they land in the order in which the node queued them, and
later than they were queued. Every call is answered, and a claim lease does not expire while its
holder works under it. The gates of a retry that is due (the leadership, a pause) are not modelled:
which event comes next is what they answered. The job has no pool: with one, a retry that is due
goes another way (`Retry.Pooled`).

## Main definitions

* `Record`: the records of the stream, with the fields that each kind carries;
* `claimable`: which record another node may resume;
* `State.step`: the steps of `schedule_retry_job`, `_retry_consume_decision`, `_maybe_claim_retry`,
  `_abandon_retry` and `handle_job_failure`.
-/

namespace Cronstable.Retry

/-- Instants and delays, in microseconds. -/
abbrev Time := ℤ

/-- `RETRY_CLAIM_GRACE`. -/
def retryClaimGrace : Time := 30 * 1000000

/-- `RETRY_GATE_RECHECK_FLOOR`. -/
def retryGateRecheckFloor : Time := 1000000

/-- What the ladder reads of the configuration of its job. -/
structure Job where
  /-- `-1` for no limit. -/
  maximumRetries : ℤ
  /-- `0` for none. -/
  startingDeadlineSeconds : Time
  /-- What `next_delay` gives for an attempt. -/
  delay : ℕ → Time

/-- Why a ladder record was settled. -/
inductive Reason
  | launched
  | succeeded
  | cancelled
  | exhausted
  | supersededByRun
  deriving DecidableEq

/-- The records of a retry stream. A handoff names its node in `fromHost`, the others in `host`. -/
inductive Record (Host : Type)
  | pending (attempt : ℕ) (notBefore : Time) (host : Host) (at_ : Time) (claimedFrom : Option Host)
  | settled (reason : Reason) (attempt : ℕ) (host : Host) (at_ : Time)
  | handoff (attempt : ℕ) (notBefore : Time) (fromHost : Host) (at_ armedAt : Time)
  deriving DecidableEq

variable {Host : Type}

namespace Record

/-- `rec.get("host")`. -/
def host? : Record Host → Option Host
  | .pending _ _ host _ _ => some host
  | .settled _ _ host _ => some host
  | .handoff .. => none

/-- The node that wrote the record: `rec.get("host") or rec.get("fromHost")`. -/
def writer : Record Host → Host
  | .pending _ _ host _ _ => host
  | .settled _ _ host _ => host
  | .handoff _ _ fromHost _ _ => fromHost

/-- The attempt that the record leaves to be launched. -/
def attempt? : Record Host → Option ℕ
  | .pending attempt .. => some attempt
  | .settled .. => none
  | .handoff attempt .. => some attempt

/-- `rec.get("armedAt") or rec.get("at")`. -/
def armedAt : Record Host → Time
  | .pending _ _ _ at_ _ => at_
  | .settled _ _ _ at_ => at_
  | .handoff _ _ _ _ armedAt => armedAt

end Record

/-- What `_retry_record_claimable` asks of every record. -/
def resumable (job : Job) (now : Time) (attempt : ℕ) (notBefore : Time) : Bool :=
  decide (1 ≤ attempt) && (job.maximumRetries == -1 || decide ((attempt : ℤ) ≤ job.maximumRetries))
    && (job.startingDeadlineSeconds == 0 ||
      decide (now - notBefore ≤ job.startingDeadlineSeconds))

/-- `last_at is not None and last_at > armed_at`. -/
def ranSince (last : Option Time) (armedAt : Time) : Bool :=
  last.any fun at_ => decide (armedAt < at_)

/-- `_retry_record_claimable`: the attempt and the instant it is due, when node `n` may resume the
ladder. -/
def claimable [DecidableEq Host] (job : Job) (n : Host) (last : Option Time) (now : Time) :
    Record Host → Option (ℕ × Time)
  | .settled .. => none
  | .pending attempt notBefore host at_ _ =>
    if resumable job now attempt notBefore ∧ host ≠ n ∧ ¬ ranSince last at_ ∧
        -- the owner of a pending record may be alive until the grace is over
        retryClaimGrace < now - max notBefore at_ then
      some (attempt, notBefore)
    else none
  | .handoff attempt notBefore _ _ armedAt =>
    if resumable job now attempt notBefore ∧ ¬ ranSince last armedAt then
      some (attempt, max notBefore now)
    else none

/-- What may be resumed is the attempt of the record. -/
lemma attempt?_of_claimable [DecidableEq Host] {job : Job} {n : Host} {last : Option Time}
    {now : Time} {r : Record Host} {c : ℕ × Time} (h : claimable job n last now r = some c) :
    r.attempt? = some c.1 := by
  cases r with
  | settled => simp [claimable] at h
  | pending | handoff =>
    obtain ⟨-, h⟩ := Option.ite_none_right_eq_some.mp h
    cases h
    rfl

/-! ## The nodes -/

/-- Where the task of a ladder is. `lease` says whether it holds the claim lease. -/
inductive Phase
  /-- Asleep, until the retry is due or until its gates are asked again. -/
  | waiting
  /-- `acquire_lease` answered that another node holds the claim. -/
  | denied
  /-- About to read the newest record. -/
  | reading (lease : Bool)
  /-- The newest record is not another host's: about to settle it. -/
  | settling (lease : Bool)
  /-- Settled; the launch follows the release of the lease. -/
  | launching (lease : Bool)
  /-- The ladder moved: it ends here after the release of the lease. -/
  | aborting (lease : Bool)
  /-- The attempt was launched and has not ended. -/
  | running
  deriving DecidableEq

/-- `JobRetryState`. -/
structure Ladder where
  /-- The attempt that is armed or runs; `0` for the scheduled run. -/
  count : ℕ
  armedAt : Option Time := none
  /-- What its task slept before it was due. -/
  delay : Time := 0
  /-- When its task wakes up. -/
  due : Time := 0
  phase : Phase

/-- Where `_maybe_claim_retry` is, with the record it found, the attempt and the instant it is
due. -/
inductive Scan (Host : Type)
  | idle
  /-- About to acquire the lease. -/
  | found (rec : Record Host) (attempt : ℕ) (notBefore : Time)
  /-- About to read the record again. -/
  | holding (rec : Record Host) (attempt : ℕ) (notBefore : Time)
  /-- About to read the run ledger. -/
  | checked (rec : Record Host) (attempt : ℕ) (notBefore : Time)
  /-- Waiting for the claim record to land. -/
  | writing (claim : Record Host) (attempt : ℕ) (notBefore : Time)
  /-- The claim landed; the lease is to be released and the ladder armed. -/
  | claimed (attempt : ℕ) (notBefore : Time)
  /-- Not claimed; the lease is to be released. -/
  | declined

/-- What a node knows of the ladder. -/
structure Node (Host : Type) where
  /-- The ladder writes that have not landed, oldest first (`_retry_write_tail`). -/
  queue : List (Record Host) := []
  /-- The ends of runs whose rows have not landed in the run ledger. -/
  rows : List Time := []
  /-- `_last_completed_at`. -/
  lastCompletedAt : Option Time := none
  ladder : Option Ladder := none
  scan : Scan Host := .idle

namespace Node

/-- `_queue_retry_write`. -/
def queueRetryWrite (x : Node Host) (r : Record Host) : Node Host :=
  { x with queue := x.queue ++ [r] }

/-- `schedule_retry_job`, up to its sleep. -/
def scheduleRetryJob (x : Node Host) (n : Host) (now delay : Time) (attempt : ℕ) : Node Host :=
  { x.queueRetryWrite (.pending attempt (now + delay) n now none) with
    ladder := some
      { count := attempt, armedAt := some now, delay, due := now + delay, phase := .waiting } }

/-- `cancel_job_retries`. Nothing was recorded of a ladder that armed no retry. -/
def cancelJobRetries (x : Node Host) (n : Host) (now : Time) (count : ℕ) (settle : Reason) :
    Node Host :=
  if 0 < count then
    { x.queueRetryWrite (.settled settle count n now) with ladder := none }
  else { x with ladder := none }

/-- The retries of `handle_job_failure`. -/
def handleJobFailure (x : Node Host) (job : Job) (n : Host) (now : Time) (count : ℕ) : Node Host :=
  if job.maximumRetries ≤ count ∧ job.maximumRetries ≠ -1 then
    x.cancelJobRetries n now count .exhausted
  else x.scheduleRetryJob n now (job.delay (count + 1)) (count + 1)

/-- `_abandon_retry`: the newest record is not looked at. -/
def abandonRetry (x : Node Host) (n : Host) (now : Time) (l : Ladder) : Node Host :=
  { x.queueRetryWrite (.handoff l.count now n now (l.armedAt.getD now)) with ladder := none }

/-- The task of the ladder moves on. -/
def setPhase (x : Node Host) (l : Ladder) (phase : Phase) : Node Host :=
  { x with ladder := some { l with phase } }

/-- The task of the ladder asks its gates again later. -/
def defer (x : Node Host) (l : Ladder) (now : Time) : Node Host :=
  { x with
    ladder := some
      { l with phase := .waiting, due := now + max l.delay retryGateRecheckFloor } }

/-- The scan moves on. -/
def setScan (x : Node Host) (scan : Scan Host) : Node Host := { x with scan }

/-- The ladder that waits, when it is due. -/
def due? (x : Node Host) (now : Time) : Option Ladder :=
  x.ladder.filter fun l => l.phase = .waiting ∧ l.due ≤ now

end Node

/-! ## The cluster -/

/-- How a run of the job ended. -/
inductive Outcome
  | failed
  | succeeded
  | cancelled
  deriving DecidableEq

/-- The store and the nodes. -/
structure State (Host : Type) where
  /-- The records of the ladder, newest first. -/
  records : List (Record Host) := []
  /-- The records of earlier ladders, newest first. -/
  older : List (Record Host) := []
  /-- Who holds the claim lease of the job. -/
  lease : Option Host := none
  nodes : Host → Node Host
  /-- The end of the last run in the run ledger. -/
  ranAt : Option Time := none
  /-- The attempts launched, with their nodes, newest first. -/
  launched : List (Host × ℕ) := []

/-- What happens in the cluster. -/
inductive Event (Host : Type)
  /-- A run ends and its completion is handled. -/
  | finish (n : Host) (now : Time) (outcome : Outcome)
  /-- The oldest ladder write of a node lands. -/
  | land (n : Host)
  /-- The oldest run row of a node lands. -/
  | landRow (n : Host)
  /-- A due retry is held back by a pause or by the leadership gate. -/
  | defer (n : Host) (now : Time)
  /-- A due retry passes its gates and asks for the claim lease. -/
  | acquire (n : Host) (now : Time)
  /-- It was denied, and looks who holds the lease. -/
  | observe (n : Host) (now : Time)
  /-- It reads the newest record. -/
  | read (n : Host)
  /-- It settles the record. -/
  | consume (n : Host) (now : Time)
  /-- It releases the lease. -/
  | release (n : Host)
  /-- A due retry finds that the ownership moved. -/
  | abandon (n : Host) (now : Time)
  /-- The claim scan reads the newest record. -/
  | scan (n : Host) (now : Time)
  | scanAcquire (n : Host)
  | recheck (n : Host)
  | ledger (n : Host) (now : Time)
  /-- The claim record lands. -/
  | claim (n : Host)
  | scanRelease (n : Host) (now : Time)

namespace State

/-- The newest record of the stream. -/
def newest (s : State Host) : Option (Record Host) := (s.records ++ s.older).head?

variable [DecidableEq Host]

/-- A node changes. -/
def setNode (s : State Host) (n : Host) (x : Node Host) : State Host :=
  { s with nodes := Function.update s.nodes n x }

/-- `acquire_lease`. -/
def grants (s : State Host) (n : Host) : Bool := s.lease.all (· == n)

/-- `release_lease`, by a node that holds the lease or by one that does not. -/
def releaseLease (s : State Host) (held : Bool) : State Host :=
  if held then { s with lease := none } else s

/-- A record lands. -/
def append (s : State Host) (r : Record Host) : State Host :=
  { s with records := r :: s.records }

/-- What a run that ended leaves on its node: its row, and its retry or the end of the ladder. -/
def finish (s : State Host) (job : Job) (n : Host) (now : Time) (outcome : Outcome) :
    Option (State Host) :=
  let x := { s.nodes n with
    rows := (s.nodes n).rows ++ [now], lastCompletedAt := some now }
  match (s.nodes n).ladder with
  | some { count, phase := .running, .. } =>
    match outcome with
    | .failed => some (s.setNode n (x.handleJobFailure job n now count))
    | .succeeded => some (s.setNode n (x.cancelJobRetries n now count .succeeded))
    | .cancelled => some (s.setNode n (x.cancelJobRetries n now count .cancelled))
  | _ => none

/-- `_retry_consume_decision`, from its read of the lease: under `degrade` a lease that nobody holds
is taken for an unanswered store, and the decision goes on without it. -/
def observe (s : State Host) (failClosed : Bool) (n : Host) (now : Time) (l : Ladder) :
    State Host :=
  match s.lease with
  | some h =>
    if h = n then s.setNode n ((s.nodes n).setPhase l (.reading true))
    else s.setNode n ((s.nodes n).defer l now)
  | none =>
    if failClosed then s.setNode n ((s.nodes n).defer l now)
    else s.setNode n ((s.nodes n).setPhase l (.reading false))

/-- The newest record is one that another host wrote, as `_retry_consume_decision` sees it. -/
def moved (s : State Host) (n : Host) : Bool :=
  (s.newest.bind Record.host?).any (· != n)

/-- `_claim_retry_under_lease`, from its read of the run ledger: the ladder was resolved by a run,
or the claim is queued. -/
def ledger (s : State Host) (n : Host) (now : Time) (rec : Record Host) (attempt : ℕ)
    (notBefore : Time) : State Host :=
  if ranSince s.ranAt rec.armedAt then
    s.setNode n
      (((s.nodes n).queueRetryWrite (.settled .supersededByRun attempt n now)).setScan .declined)
  else
    s.setNode n ((s.nodes n).setScan
      (.writing (.pending attempt notBefore n now (some rec.writer)) attempt notBefore))

/-- The end of `_maybe_claim_retry`: a ladder that was armed meanwhile outranks the claim. -/
def arm (s : State Host) (n : Host) (now : Time) (attempt : ℕ) (notBefore : Time) : State Host :=
  let x := (s.nodes n).setScan .idle
  s.setNode n
    (if x.ladder.isSome then x else x.scheduleRetryJob n now (max 0 (notBefore - now)) attempt)

/-- One step of the cluster. -/
def step (job : Job) (failClosed : Bool) (s : State Host) : Event Host → Option (State Host)
  | .finish n now outcome => s.finish job n now outcome
  | .land n =>
    match (s.nodes n).queue with
    | r :: rest => some ((s.append r).setNode n { s.nodes n with queue := rest })
    | [] => none
  | .landRow n =>
    match (s.nodes n).rows with
    | at_ :: rest =>
      some ({ s with ranAt := some (s.ranAt.elim at_ (max at_)) }.setNode n
        { s.nodes n with rows := rest })
    | [] => none
  | .defer n now =>
    ((s.nodes n).due? now).map fun l => s.setNode n ((s.nodes n).defer l now)
  | .acquire n now =>
    ((s.nodes n).due? now).map fun l =>
      if s.grants n then
        { s with lease := some n }.setNode n ((s.nodes n).setPhase l (.reading true))
      else s.setNode n ((s.nodes n).setPhase l .denied)
  | .observe n now =>
    match (s.nodes n).ladder with
    | some l => if l.phase = .denied then some (s.observe failClosed n now l) else none
    | none => none
  | .read n =>
    match (s.nodes n).ladder with
    | some l =>
      match l.phase with
      | .reading lease =>
        some (s.setNode n ((s.nodes n).setPhase l
          (if s.moved n then .aborting lease else .settling lease)))
      | _ => none
    | none => none
  | .consume n now =>
    match (s.nodes n).ladder with
    | some l =>
      match l.phase with
      | .settling lease =>
        -- the settle waits for the ladder writes of this node that have not landed
        if (s.nodes n).queue = [] then
          some ({ s.append (.settled .launched l.count n now) with
            launched := (n, l.count) :: s.launched }.setNode n
              ((s.nodes n).setPhase l (.launching lease)))
        else none
      | _ => none
    | none => none
  | .release n =>
    match (s.nodes n).ladder with
    | some l =>
      match l.phase with
      | .launching lease =>
        some ((s.releaseLease lease).setNode n ((s.nodes n).setPhase l .running))
      | .aborting lease =>
        some ((s.releaseLease lease).setNode n { s.nodes n with ladder := none })
      | _ => none
    | none => none
  | .abandon n now =>
    ((s.nodes n).due? now).map fun l => s.setNode n ((s.nodes n).abandonRetry n now l)
  | .scan n now =>
    match s.newest with
    | some rec =>
      match (s.nodes n).scan, (s.nodes n).ladder,
        claimable job n (s.nodes n).lastCompletedAt now rec with
      | .idle, none, some (attempt, notBefore) =>
        if job.maximumRetries = 0 then none
        else some (s.setNode n ((s.nodes n).setScan (.found rec attempt notBefore)))
      | _, _, _ => none
    | none => none
  | .scanAcquire n =>
    match (s.nodes n).scan with
    | .found rec attempt notBefore =>
      some (if s.grants n then
          { s with lease := some n }.setNode n
            ((s.nodes n).setScan (.holding rec attempt notBefore))
        else s.setNode n ((s.nodes n).setScan .idle))
    | _ => none
  | .recheck n =>
    match (s.nodes n).scan with
    | .holding rec attempt notBefore =>
      some (s.setNode n ((s.nodes n).setScan
        (if s.newest = some rec then .checked rec attempt notBefore else .declined)))
    | _ => none
  | .ledger n now =>
    match (s.nodes n).scan with
    | .checked rec attempt notBefore => some (s.ledger n now rec attempt notBefore)
    | _ => none
  | .claim n =>
    match (s.nodes n).scan with
    | .writing claim attempt notBefore =>
      -- the claim is chained behind the ladder writes of this node
      if (s.nodes n).queue = [] then
        some ((s.append claim).setNode n ((s.nodes n).setScan (.claimed attempt notBefore)))
      else none
    | _ => none
  | .scanRelease n now =>
    match (s.nodes n).scan with
    | .declined => some ((s.releaseLease true).setNode n ((s.nodes n).setScan .idle))
    | .claimed attempt notBefore => some ((s.releaseLease true).arm n now attempt notBefore)
    | _ => none

end State

end Cronstable.Retry

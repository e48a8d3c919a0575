import Cronstable.Election.Filesystem

/-!
# Leader election over a Kubernetes Lease

`KubernetesBackend` elects a leader through one Lease object. A round (`_renew_once`) reads the
object, decides on an action and writes the object with the resource version it read, so the
apiserver refuses the write if another one came in between. A node leads up to a deadline on its
monotonic clock, which is anchored between the read and the write. A challenger takes a lease over
when it has seen the same holder and renew time for the duration that the object states.

`Sys` holds the object, the nodes and the requests to the apiserver. A round may give up on a
request, and a write may be applied later. The renew loop and the eager persist of the reboot-ran
set share one lock, so a node has at most one round; `stop` runs beside it. Monotonic clocks advance
with real time (`Sys.time`), and the wall clock of a node only stamps what it writes. A node is
named by the identity it writes, which is unique to its process. Annotations and what only the
dashboard shows are left out.
-/

namespace Cronstable.Election.Kubernetes

open Store (Time)
open Filesystem (fenceDeadline skewSeconds)

/-! ## The Lease object -/

/-- What a node writes to the object. -/
structure Body where
  holder : Option String
  /-- `renewTime` and `acquireTime`, in microseconds. -/
  renewTime : Option ℕ
  acquireTime : Option ℕ
  duration : Option ℕ
  transitions : ℕ
  deriving DecidableEq, Repr

/-- The stored object. -/
structure Record extends Body where
  version : ℕ
  /-- When the write was applied; the object does not tell. -/
  landedAt : Time
  deriving DecidableEq, Repr

/-- `lease_is_expired` on the monotonic clock. -/
def leaseIsExpired (state : Record) (mono : Time) (observedAt : Option Time) : Bool :=
  match state.duration, observedAt with
  | none, _ | some 0, _ | _, none => true
  | some duration, some anchor => decide (anchor + duration ≤ mono)

/-- `_deadline_passed`. -/
def deadlinePassed (mono : Time) (anchor : Option Time) (duration : ℕ) : Bool :=
  match anchor with
  | none => true
  | some anchor => duration == 0 || decide (anchor + duration ≤ mono)

/-- What a round decides to do. -/
inductive Action
  | create
  | renew
  | acquire
  | wait
  deriving DecidableEq, Repr

/-- `decide_lease_action`. -/
def decideLeaseAction (state : Option Record) (identity : String) (mono : Time)
    (observedAt : Option Time) (lastHolder : Option String) (lastObservedAt : Option Time)
    (duration : ℕ) : Action :=
  match state with
  | none =>
    match lastHolder with
    | none => .create
    | some holder =>
      if holder ≠ "" ∧ holder ≠ identity ∧ !deadlinePassed mono lastObservedAt duration then
        .wait
      else .create
  | some state =>
    if state.holder = some identity then .renew
    else if state.holder = none ∨ state.holder = some "" ∨ leaseIsExpired state mono observedAt
    then .acquire
    else .wait

/-- `build_lease_body`. -/
def buildLeaseBody (identity : String) (now duration : ℕ) (state : Option Record)
    (action : Action) : Body :=
  let (acquireTime, transitions) := match action, state with
    | .renew, some state => (state.acquireTime.getD now, state.transitions)
    | .acquire, some state => (now, state.transitions + 1)
    | _, _ => (now, 0)
  { holder := some identity, renewTime := some now, acquireTime := some acquireTime
    duration := some duration, transitions }

/-! ## Nodes -/

/-- What the round of a node waits for. -/
inductive Phase
  | idle
  | observing (request : ℕ)
  /-- The write it decided on when the monotonic clock showed `mono`. -/
  | writing (request : ℕ) (mono : Time)
  deriving DecidableEq, Repr

/-- How far `stop` has come. -/
inductive Stopping
  | running
  /-- `_release` reads the object. -/
  | observing (request : ℕ)
  /-- `_release` clears the holder. -/
  | handing (request : ℕ)
  /-- The transport is closed next. -/
  | closing
  | stopped
  deriving DecidableEq, Repr

/-- What a node remembers of the election. -/
structure Node where
  isLeader : Bool := false
  leaderUntil : Option Time := none
  lastContact : Option Time := none
  observedHolder : Option String := none
  observedRenew : Option ℕ := none
  observedAt : Option Time := none
  phase : Phase := .idle
  stopping : Stopping := .running
  deriving DecidableEq, Repr

namespace Node

/-- `is_leader`, when the monotonic clock shows `mono`. -/
def leads (mono : Time) (n : Node) : Bool :=
  n.isLeader && n.leaderUntil.any fun deadline => decide (mono < deadline)

/-- `is_quorate`. -/
def isQuorate (duration : ℕ) (mono : Time) (n : Node) : Bool :=
  n.lastContact.any fun contact => decide (mono < contact + duration)

/-- `_track_observation`: an absent object carries no new timing. -/
def trackObservation (state : Option Record) (mono : Time) (n : Node) : Node :=
  match state with
  | none => n
  | some state =>
    if state.holder ≠ n.observedHolder ∨ state.renewTime ≠ n.observedRenew then
      { n with
        observedHolder := state.holder, observedRenew := state.renewTime
        observedAt := some mono }
    else n

/-- `_apply_round` of a round that waits. -/
def applyWait (mono : Time) (n : Node) : Node :=
  { n with lastContact := some mono, isLeader := false }

/-- `_apply_round` of a round that wrote. -/
def applyWrite (duration : ℕ) (mono : Time) (ok : Bool) (n : Node) : Node :=
  if ok then
    { n with
      lastContact := some mono, isLeader := true
      leaderUntil := some (fenceDeadline duration mono) }
  else { n with lastContact := some mono, isLeader := false }

end Node

/-! ## The system -/

/-- A request to the apiserver. -/
inductive RequestOp
  | observe
  | create (body : Body)
  /-- A replace carries the resource version of the object it was planned on. -/
  | replace (state : Record) (body : Body)
  deriving DecidableEq, Repr

/-- What the apiserver answers. -/
inductive Answer
  | found (object : Option Record)
  | written (ok : Bool)
  deriving DecidableEq, Repr

/-- A request of a node, and its answer once there is one. -/
structure Request where
  node : String
  op : RequestOp
  answer : Option Answer := none
  deriving DecidableEq, Repr

/-- What a request would write. -/
def RequestOp.body : RequestOp → Option Body
  | observe => none
  | create body | replace _ body => some body

/-- The object, the nodes and the requests. -/
structure Sys where
  /-- Real time, which the monotonic clocks follow. -/
  time : Time
  object : Option Record
  nodes : Dict String Node
  requests : List Request
  deriving DecidableEq

/-- What happens in the system. -/
inductive Event
  | tick (elapsed : Time)
  /-- The renew loop or an eager persist starts a round. -/
  | round (node : String)
  /-- The apiserver answers a request. -/
  | land (request : ℕ)
  /-- A round goes on; its wall clock shows `now`. -/
  | deliver (node : String) (now : ℕ)
  /-- A round ends early: it timed out, raised or was cancelled. -/
  | abandon (node : String)
  | stop (node : String)
  /-- `_release` goes on. -/
  | release (node : String)
  /-- `_release` ends early. -/
  | giveUp (node : String)
  /-- The transport is closed and `stop` returns. -/
  | closed (node : String)
  deriving DecidableEq

namespace Sys

/-- Nobody has created the object. -/
def init (time : Time) : Sys := ⟨time, none, .empty, []⟩

/-- A node that has done nothing yet has the defaults. -/
def node (s : Sys) (i : String) : Node := (s.nodes.get? i).getD {}

/-- A node changes. -/
def setNode (s : Sys) (i : String) (n : Node) : Sys := { s with nodes := s.nodes.set i n }

/-- A request goes out. -/
def send (s : Sys) (i : String) (op : RequestOp) : Sys :=
  { s with requests := s.requests ++ [{ node := i, op }] }

/-- `is_leader` of a node, now. -/
def leads (s : Sys) (i : String) : Bool := (s.node i).leads s.time

/-- The answer to a request, if it was answered. -/
def answer (s : Sys) (c : ℕ) : Option Answer := (s.requests[c]?).bind Request.answer

/-- The object the apiserver stores for a write. -/
def store (s : Sys) (version : ℕ) (body : Body) : Record :=
  { toBody := body, version, landedAt := s.time }

/-- What the apiserver makes of a request, and its answer. -/
def serve (s : Sys) : RequestOp → Option Record × Answer
  | .observe => (s.object, .found s.object)
  | .create body =>
    match s.object with
    | none => (some (s.store 1 body), .written true)
    | some _ => (s.object, .written false)
  | .replace state body =>
    match s.object with
    | some object =>
      if object.version = state.version then
        (some (s.store (object.version + 1) body), .written true)
      else (s.object, .written false)
    | none => (s.object, .written false)

/-- `_renew_once` between its read and its write, by a node with this lease duration whose wall
clock shows `now`. -/
def plan (duration : ℕ) (s : Sys) (i : String) (now : ℕ) (state : Option Record) : Sys :=
  let n := s.node i
  let n' := n.trackObservation state s.time
  let action := decideLeaseAction state i s.time n'.observedAt n.observedHolder n.observedAt
    duration
  let body := buildLeaseBody i now duration state action
  match action, state with
  | .wait, _ => s.setNode i { n'.applyWait s.time with phase := .idle }
  | .create, _ =>
    (s.setNode i { n' with phase := .writing s.requests.length s.time }).send i (.create body)
  | _, some state =>
    (s.setNode i { n' with phase := .writing s.requests.length s.time }).send i
      (.replace state body)
  | _, none => s

/-- A round goes on with the answer to its request. A round that wants to write after the transport
was closed raises. -/
def deliver (duration : ℕ) (s : Sys) (i : String) (now : ℕ) : Option Sys :=
  match (s.node i).phase with
  | .idle => none
  | .observing c =>
    match s.answer c with
    | some (.found state) =>
      let s' := s.plan duration i now state
      if (s.node i).stopping = .stopped ∧ (s'.node i).phase ≠ .idle then
        some (s.setNode i
          { (s.node i).trackObservation state s.time with phase := .idle })
      else some s'
    | _ => none
  | .writing c mono =>
    match s.answer c with
    | some (.written ok) =>
      some (s.setNode i { (s.node i).applyWrite duration mono ok with phase := .idle })
    | _ => none

/-- `stop` up to its first request: only a node that counts as leader releases the Lease. -/
def stop (s : Sys) (i : String) : Sys :=
  let n := s.node i
  if n.isLeader then
    (s.setNode i { n with stopping := .observing s.requests.length }).send i .observe
  else s.setNode i { n with stopping := .closing }

/-- The body with which `_release` clears the holder. -/
def releaseBody (duration : ℕ) (state : Record) : Body :=
  { holder := none, renewTime := none, acquireTime := none, duration := some duration
    transitions := state.transitions }

/-- `_release` goes on with the answer to its request. -/
def release (duration : ℕ) (s : Sys) (i : String) : Option Sys :=
  let n := s.node i
  match n.stopping with
  | .observing c =>
    match s.answer c with
    | some (.found (some state)) =>
      if state.holder = some i then
        some ((s.setNode i { n with stopping := .handing s.requests.length }).send i
          (.replace state (releaseBody duration state)))
      else some (s.setNode i { n with stopping := .closing })
    | some (.found none) => some (s.setNode i { n with stopping := .closing })
    | _ => none
  | .handing c =>
    if (s.answer c).isSome then some (s.setNode i { n with stopping := .closing }) else none
  | _ => none

/-- The wall clock of a node does not show a microsecond that an earlier round of it has written. -/
def Fresh (s : Sys) (i : String) (now : ℕ) : Prop :=
  ∀ r ∈ s.requests, r.node = i → ∀ body ∈ r.op.body, body.renewTime ≠ some now

instance (s : Sys) (i : String) (now : ℕ) : Decidable (s.Fresh i now) :=
  inferInstanceAs (Decidable (∀ r ∈ s.requests, r.node = i →
    ∀ body ∈ r.op.body, body.renewTime ≠ some now))

/-- One step of the system, for nodes with these lease durations. -/
def step (duration : String → ℕ) (s : Sys) : Event → Option Sys
  | .tick elapsed => if 0 ≤ elapsed then some { s with time := s.time + elapsed } else none
  | .round i =>
    let n := s.node i
    -- an identity ends in the token of its process, and is not empty
    if i ≠ "" ∧ n.phase = .idle ∧ n.stopping ≠ .stopped then
      some ((s.setNode i { n with phase := .observing s.requests.length }).send i .observe)
    else none
  | .land c =>
    match s.requests[c]? with
    | some ⟨i, op, none⟩ =>
      let result := s.serve op
      some { s with
        object := result.1, requests := s.requests.set c ⟨i, op, some result.2⟩ }
    | _ => none
  | .deliver i now => if s.Fresh i now then s.deliver (duration i) i now else none
  | .abandon i => some (s.setNode i { s.node i with phase := .idle })
  | .stop i => if (s.node i).stopping = .running then some (s.stop i) else none
  | .release i => s.release (duration i) i
  | .giveUp i =>
    match (s.node i).stopping with
    | .observing _ | .handing _ => some (s.setNode i { s.node i with stopping := .closing })
    | _ => none
  | .closed i =>
    if (s.node i).stopping = .closing then
      some (s.setNode i { s.node i with stopping := .stopped, isLeader := false })
    else none

/-- Take events one after another. -/
def exec (duration : String → ℕ) (s : Sys) (events : List Event) : Option Sys :=
  events.foldlM (Sys.step duration) s

end Sys

end Cronstable.Election.Kubernetes

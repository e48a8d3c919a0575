import Cronstable.Lib.Dict
import Cronstable.Store.Lease
import Mathlib.Tactic.Linarith

/-!
# Leader election over the filesystem store

`FilesystemBackend` elects a leader through one lease of the store. A node runs rounds
(`_renew_once`): it renews the lease it holds, or reads the lease and, if it finds none or an
expired one, tries to acquire it. `is_leader` answers by a deadline on the monotonic clock, which
is anchored before the write is sent and lies a skew margin before the end of the ttl. A challenger
waits until the expiry it reads is a skew margin in the past by its own wall clock.

`Sys` holds the lease file, what each node remembers and where its round stands, and the calls of
the store. A call runs in a thread of its own: its round may give up on it, and it may land later.
Monotonic clocks advance with real time, so `Sys.time` stands for all of them; wall clocks are
arbitrary. A node is named by its holder token, which is unique to its process. What only the
dashboard shows (`_holder`, `_lease_deadline`) and the reboot-ran set are left out.
-/

namespace Cronstable.Election.Filesystem

open Store (Lease Time Io)

/-- `_SKEW_SECONDS`. -/
def skewSeconds : Time := 1

/-- `fence_deadline`. -/
def fenceDeadline (ttl anchor : Time) : Time := anchor + ttl - skewSeconds

/-! ## Nodes -/

/-- What the round of a node waits for. -/
inductive Phase
  /-- There is no round. -/
  | idle
  /-- The renew it sent when the monotonic clock showed `anchor`. -/
  | renewing (call : ℕ) (anchor : Time)
  | reading (call : ℕ)
  | acquiring (call : ℕ) (anchor : Time)
  | confirming (call : ℕ)
  /-- The forced refresh of the reboot-ran set, before leadership is applied. -/
  | gaining (lease : Lease) (anchor : Time)
  /-- The refresh of the reboot-ran set at the end of the round. -/
  | maintaining
  deriving DecidableEq, Repr

/-- What a node remembers of the election. -/
structure Node where
  isLeader : Bool := false
  /-- A renew was refused. -/
  leaseLost : Bool := false
  /-- The lease the node holds. -/
  lease : Option Lease := none
  leaseDeadline : Option Time := none
  quorumDeadline : Option Time := none
  observedFence : Option ℕ := none
  /-- Whether the node was leader when its round began. -/
  wasLeader : Bool := false
  phase : Phase := .idle
  stopped : Bool := false
  deriving DecidableEq, Repr

namespace Node

/-- `is_leader`, when the monotonic clock shows `mono`. -/
def leads (mono : Time) (n : Node) : Bool :=
  n.isLeader && !n.leaseLost && n.leaseDeadline.any fun deadline => decide (mono < deadline)

/-- `is_quorate`. -/
def isQuorate (mono : Time) (n : Node) : Bool :=
  n.quorumDeadline.any fun deadline => decide (mono < deadline)

/-- `_apply_round` after a read: someone holds the lease, and leadership is not asserted. -/
def applyFollower (ttl mono : Time) (observed : Lease) (n : Node) : Node :=
  { n with
    quorumDeadline := some (mono + ttl)
    isLeader := false
    leaseLost := false
    observedFence := some observed.fence
    leaseDeadline := none
    lease := none }

/-- `_apply_round` after a locked write that was sent at `anchor`. -/
def applyLeader (ttl mono : Time) (written : Lease) (anchor : Time) (n : Node) : Node :=
  { n with
    quorumDeadline := some (mono + ttl)
    isLeader := true
    leaseLost := false
    observedFence := some written.fence
    leaseDeadline := some (fenceDeadline ttl anchor) }

end Node

/-! ## The system -/

/-- A call of the store. -/
inductive StoreOp
  | renew (lease : Lease)
  | acquire
  | release (lease : Lease)
  /-- `read_lease`, without a lock. -/
  | read
  deriving DecidableEq, Repr

/-- A call, by which node, and what it returned once it landed. -/
structure StoreCall where
  node : String
  op : StoreOp
  answer : Option (Option Lease) := none
  deriving DecidableEq, Repr

/-- The lease file, the clocks, the nodes and the calls. -/
structure Sys where
  /-- Real time, which the monotonic clocks follow. -/
  time : Time
  wall : String → Time
  file : Option Lease
  nodes : Dict String Node
  calls : List StoreCall

/-- What happens in the system. -/
inductive Event
  /-- Time passes and the wall clocks show something else. -/
  | tick (elapsed : Time) (wall : String → Time)
  /-- A node starts a round. -/
  | round (node : String)
  /-- A call runs in its thread. -/
  | land (call : ℕ) (io : Io)
  /-- A round goes on with the answer to its call. -/
  | deliver (node : String)
  /-- A round ends early: an operation timed out or raised, or the whole round did. -/
  | abandon (node : String)
  /-- The refresh of the reboot-ran set is over. -/
  | maintained (node : String)
  | stop (node : String)

namespace Sys

/-- No node has started; the file is whatever it was. -/
def init (time : Time) (wall : String → Time) (file : Option Lease) : Sys :=
  ⟨time, wall, file, .empty, []⟩

/-- A node that has done nothing yet has the defaults. -/
def node (s : Sys) (i : String) : Node := (s.nodes.get? i).getD {}

/-- A node changes. -/
def setNode (s : Sys) (i : String) (n : Node) : Sys := { s with nodes := s.nodes.set i n }

/-- A node sends a call. -/
def send (s : Sys) (i : String) (op : StoreOp) : Sys :=
  { s with calls := s.calls ++ [{ node := i, op }] }

/-- `is_leader` of a node, now. -/
def leads (s : Sys) (i : String) : Bool := (s.node i).leads s.time

/-- The answer to a call that has landed. -/
def answer (s : Sys) (c : ℕ) : Option (Option Lease) := (s.calls[c]?).bind StoreCall.answer

/-- What a call makes of the file, and what it returns. `read_lease` reports a file it cannot read
and a released lease as absent. -/
def runCall (name : String) (ttl : Time) (s : Sys) (call : StoreCall) (io : Io) :
    Option Lease × Option Lease :=
  let now := s.wall call.node
  match call.op with
  | .renew lease => (Store.Section.renew lease ttl now io).run name s.file
  | .acquire => (Store.Section.acquire call.node ttl now io).run name s.file
  | .release lease => (Store.Section.release lease io).run name s.file
  | .read =>
    (s.file, if io.readable then s.file.filter fun lease => decide (0 < lease.expiresAt)
      else none)

/-- `_renew_once` up to its first call. -/
def startRound (s : Sys) (i : String) : Sys :=
  let n := { s.node i with wasLeader := s.leads i }
  match n.lease with
  | some lease =>
    (s.setNode i { n with phase := .renewing s.calls.length s.time }).send i (.renew lease)
  | none => (s.setNode i { n with phase := .reading s.calls.length }).send i .read

/-- The renew was answered. -/
def renewed (ttl : Time) (s : Sys) (i : String) (anchor : Time) : Option Lease → Sys
  | some lease =>
    let n := { s.node i with lease := some lease }
    if n.leads s.time then
      s.setNode i { n.applyLeader ttl s.time lease anchor with phase := .maintaining }
    else s.setNode i { n with phase := .gaining lease anchor }
  | none =>
    -- refused: fence closed at once, then look at the store like any other node
    (s.setNode i { s.node i with
      leaseLost := true, lease := none, phase := .reading s.calls.length }).send i .read

/-- The lease was read: adopt one's own, defer to a live one, or campaign. -/
def observed (ttl : Time) (s : Sys) (i : String) : Option Lease → Sys
  | some lease =>
    if lease.holder = i then
      s.setNode i { (s.node i).applyFollower ttl s.time lease with
        lease := some lease, phase := .maintaining }
    else if s.wall i - skewSeconds < lease.expiresAt then
      s.setNode i { (s.node i).applyFollower ttl s.time lease with phase := .maintaining }
    else campaign s i
  | none => campaign s i
where
  campaign (s : Sys) (i : String) : Sys :=
    (s.setNode i { s.node i with phase := .acquiring s.calls.length s.time }).send i .acquire

/-- The acquire was answered. -/
def acquired (ttl : Time) (s : Sys) (i : String) (anchor : Time) : Option Lease → Sys
  | some lease =>
    let n := { s.node i with lease := some lease }
    if n.wasLeader && n.leads s.time then
      s.setNode i { n.applyLeader ttl s.time lease anchor with phase := .maintaining }
    else s.setNode i { n with phase := .gaining lease anchor }
  | none => (s.setNode i { s.node i with phase := .confirming s.calls.length }).send i .read

/-- The confirming read was answered. -/
def confirmed (ttl : Time) (s : Sys) (i : String) : Option Lease → Sys
  | some lease =>
    s.setNode i { (s.node i).applyFollower ttl s.time lease with
      lease := if lease.holder = i then some lease else none, phase := .maintaining }
  | none => s.setNode i { s.node i with phase := .idle }

/-- A round goes on with the answer to the call it waits for. -/
def deliver (ttl : Time) (s : Sys) (i : String) : Option Sys :=
  match (s.node i).phase with
  | .renewing c anchor => (s.answer c).map (s.renewed ttl i anchor)
  | .reading c => (s.answer c).map (s.observed ttl i)
  | .acquiring c anchor => (s.answer c).map (s.acquired ttl i anchor)
  | .confirming c => (s.answer c).map (s.confirmed ttl i)
  | _ => none

/-- `stop`: leadership is given up first, then the lease is released. -/
def stop (s : Sys) (i : String) : Sys :=
  let n := s.node i
  let s' := s.setNode i { n with stopped := true, phase := .idle, lease := none, isLeader := false }
  match n.lease with
  | some lease => s'.send i (.release lease)
  | none => s'

/-- One step of the system, for the election `name` with the ttl of every node. -/
def step (name : String) (ttl : Time) (s : Sys) : Event → Option Sys
  | .tick elapsed wall => some { s with time := s.time + elapsed, wall }
  | .round i =>
    if (s.node i).stopped = false ∧ (s.node i).phase = .idle then some (s.startRound i) else none
  | .land c io =>
    match s.calls[c]? with
    | some ⟨i, op, none⟩ =>
      let result := s.runCall name ttl ⟨i, op, none⟩ io
      some { s with file := result.1, calls := s.calls.set c ⟨i, op, some result.2⟩ }
    | _ => none
  | .deliver i => s.deliver ttl i
  | .abandon i => some (s.setNode i { s.node i with phase := .idle })
  | .maintained i =>
    match (s.node i).phase with
    | .gaining lease anchor =>
      some (s.setNode i
        { (s.node i).applyLeader ttl s.time lease anchor with phase := .idle })
    | .maintaining => some (s.setNode i { s.node i with phase := .idle })
    | _ => none
  | .stop i => if (s.node i).stopped = false then some (s.stop i) else none

/-- Take events one after another. -/
def exec (name : String) (ttl : Time) (s : Sys) (events : List Event) : Option Sys :=
  events.foldlM (Sys.step name ttl) s

end Sys

end Cronstable.Election.Filesystem

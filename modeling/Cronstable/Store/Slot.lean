import Cronstable.Store.Lease

/-!
# The cluster slot of a job on one node

A job with `concurrencyScope: cluster` runs under a lease of the shared store. Its launches claim
the lease, a task renews it, and the finish of its last run releases it. All launches of a process
present one holder, and an acquire by the holder of an unexpired lease keeps the fence, so the store
cannot tell two claims of one process apart: claims and releases are serialised by a mutex of the
process.

`Node.step` cuts the coroutines of one job on one node at their awaits. A store call may be given up
by its caller, and be carried out later all the same, once or never.

## Main definitions

* `Node.step`: `_claim_cluster_slot`, `_release_cluster_slot`, `_release_slot_lease`,
  `_release_phantom_slot` and `_slot_renewer`;
* `Node.Clear`: no claim installs a lease whose release is still out.
-/

namespace Cronstable.Slot

open Store

/-! ## The node -/

/-- What the coroutines read of their process and of the configuration. -/
structure Config where
  /-- `_slot_name`. -/
  name : String
  /-- `_slot_holder`. -/
  holder : String
  /-- `onStoreUnavailable` is `fail-closed`. -/
  failClosed : Bool

/-- The calls on the slot lease. -/
inductive Op
  | acquire
  | read
  | renew (lease : Lease)
  | release (lease : Lease)

/-- The lease that a call presents. -/
def Op.lease? : Op → Option Lease
  | .acquire | .read => none
  | .renew lease | .release lease => some lease

/-- A store call. -/
structure Call where
  op : Op
  /-- What it answered, once it was carried out. -/
  answer : Option (Option Lease) := none

/-- Who is inside the slot mutex, and the call it waits for. -/
inductive Mutex
  | free
  /-- A claim waits for its acquire. -/
  | acquiring (call : ℕ)
  /-- A claim whose acquire gave nothing waits for its read. -/
  | reading (call : ℕ)
  /-- A claim installed its lease and reconciles the in-flight records. -/
  | reconciling
  /-- A release waits for its call. -/
  | releasing (call : ℕ)
  /-- A release without a lease waits for its read. -/
  | phantom (call : ℕ)

/-- Where the renewer of the slot is. -/
inductive Renewer
  | asleep
  | renewing (call : ℕ)
  /-- The renew was refused, and it reads the lease. -/
  | reading (call : ℕ)
  | done

/-- `not renewer.done()`. -/
def Renewer.alive : Renewer → Bool
  | .asleep | .renewing _ | .reading _ => true
  | .done => false

/-- What a node and the store know of the slot. -/
structure Node where
  /-- The lease file. -/
  stored : Option Lease
  /-- `_slot_leases[name]`. -/
  lease : Option Lease := none
  /-- `_slot_refs[name]`. -/
  refs : ℕ := 0
  /-- `len(self.running_jobs[name])`. -/
  instances : ℕ := 0
  /-- `_slot_renewers[name]`. -/
  renewer : Option Renewer := none
  /-- The releases that wait for the mutex; `none` for the check for a phantom. -/
  tasks : List (Option Lease) := []
  mutex : Mutex := .free
  /-- The store calls so far, oldest first. -/
  calls : List Call := []

/-- What happens on the node and in the store. -/
inductive Event
  /-- `_claim_cluster_slot` enters the mutex. -/
  | claim
  /-- Its acquire returns, or is given up. -/
  | acquired (answered : Bool)
  /-- Its read returns, or is given up. -/
  | observed (answered : Bool) (now : Time)
  /-- It leaves the mutex. -/
  | reconciled
  /-- Instances are launched, or end. -/
  | instances (count : ℕ)
  /-- `_release_cluster_slot` enters the mutex. -/
  | finish
  /-- A release enters the mutex. -/
  | release (task : ℕ)
  /-- Its call returns, or is given up. -/
  | released
  /-- The read of the check for a phantom returns, or is given up. -/
  | phantomRead (answered : Bool)
  /-- The renewer wakes up. -/
  | renew
  /-- Its renew returns, or is given up. -/
  | renewed (answered : Bool)
  /-- Its read returns, or is given up. -/
  | renewRead (answered : Bool)
  /-- The store carries a call out. -/
  | land (call : ℕ) (ttl now : Time) (io : Io)
  /-- Another process works on the lease. -/
  | foreign (sec : Section)

/-- `read_lease`: a released lease is nobody's. -/
def readLease (stored : Option Lease) : Option Lease :=
  stored.filter fun lease => decide (0 < lease.expiresAt)

/-- Who works on the lease in a section. -/
def sectionHolder : Section → String
  | .acquire holder .. => holder
  | .renew lease .. | .release lease _ => lease.holder

namespace Node

/-- A call carried out: the lease file after it, and the answer. -/
def serve (cfg : Config) (s : Node) (ttl now : Time) (io : Io) : Op → Option Lease × Option Lease
  | .acquire => (Section.acquire cfg.holder ttl now io).run cfg.name s.stored
  | .read => (s.stored, if io.readable then readLease s.stored else none)
  | .renew lease => (Section.renew lease ttl now io).run cfg.name s.stored
  | .release lease => (Section.release lease io).run cfg.name s.stored

/-- A store call begins. -/
def issue (s : Node) (op : Op) : Node := { s with calls := s.calls ++ [{ op }] }

/-- What a caller gets of its call: the answer, or nothing when it gave up. -/
def result (s : Node) (call : ℕ) (answered : Bool) : Option (Option Lease) :=
  if answered then s.calls[call]?.bind Call.answer else some none

/-- A claim installs its lease and starts a renewer. -/
def install (s : Node) (lease : Lease) : Node :=
  { s with
    lease := some lease, refs := s.refs + 1, renewer := some .asleep, mutex := .reconciling }

/-- A claim without a lease: skipped, or enforced on this node only. -/
def unavailable (s : Node) (cfg : Config) : Node :=
  { s with refs := if cfg.failClosed then s.refs else s.refs + 1, mutex := .free }

/-- One step of the coroutines, or of the store. -/
def step (cfg : Config) (s : Node) : Event → Option Node
  | .claim =>
    match s.mutex with
    | .free =>
      if s.lease.isSome && s.renewer.any Renewer.alive then some { s with refs := s.refs + 1 }
      else some { s.issue .acquire with mutex := .acquiring s.calls.length }
    | _ => none
  | .acquired answered =>
    match s.mutex with
    | .acquiring call =>
      (s.result call answered).map fun
        | some lease => s.install lease
        | none => { s.issue .read with mutex := .reading s.calls.length }
    | _ => none
  | .observed answered now =>
    match s.mutex with
    | .reading call =>
      (s.result call answered).map fun
        | some lease =>
          -- our own acquire landed after it was given up
          if lease.holder = cfg.holder then s.install lease
          else if lease.expiresAt < now then s.unavailable cfg
          -- held by another node: skipped, or pursued in the background
          else { s with mutex := .free }
        | none => s.unavailable cfg
    | _ => none
  | .reconciled =>
    match s.mutex with
    | .reconciling => some { s with mutex := .free }
    | _ => none
  | .instances count => some { s with instances := count }
  | .finish =>
    match s.mutex with
    | .free =>
      if 1 < s.refs then some { s with refs := s.refs - 1 }
      else if 0 < s.instances then some { s with refs := 0 }
      else some { s with
        refs := 0, lease := none, renewer := none, tasks := s.tasks ++ [s.lease] }
    | _ => none
  | .release task =>
    match s.mutex, s.tasks[task]? with
    | .free, some claimed =>
      let s := { s with tasks := s.tasks.eraseIdx task }
      -- a claim that came first keeps the lease
      if s.lease.isSome then some s
      else match claimed with
        | some lease =>
          some { s.issue (.release lease) with mutex := .releasing s.calls.length }
        | none => some { s.issue .read with mutex := .phantom s.calls.length }
    | _, _ => none
  | .released =>
    match s.mutex with
    | .releasing _ => some { s with mutex := .free }
    | _ => none
  | .phantomRead answered =>
    match s.mutex with
    | .phantom call =>
      (s.result call answered).map fun
        | some lease =>
          if lease.holder = cfg.holder ∧ s.lease = none then
            { s.issue (.release lease) with mutex := .releasing s.calls.length }
          else { s with mutex := .free }
        | none => { s with mutex := .free }
    | _ => none
  | .renew =>
    match s.renewer with
    | some .asleep =>
      some (match s.lease with
        | some lease =>
          { s.issue (.renew lease) with renewer := some (.renewing s.calls.length) }
        | none => { s with renewer := some .done })
    | _ => none
  | .renewed answered =>
    match s.renewer with
    | some (.renewing call) =>
      (s.result call answered).map fun
        | some lease => { s with lease := some lease, renewer := some .asleep }
        | none =>
          -- given up, it tries again; refused, it looks who holds the lease
          if answered then
            { s.issue .read with renewer := some (.reading s.calls.length) }
          else { s with renewer := some .asleep }
    | _ => none
  | .renewRead answered =>
    match s.renewer, s.lease with
    | some (.reading call), some lease =>
      (s.result call answered).map fun
        | some observed =>
          if observed.holder ≠ lease.holder ∨ observed.fence ≠ lease.fence then
            { s with lease := none, renewer := some .done }
          else { s with renewer := some .asleep }
        | none => { s with renewer := some .asleep }
    | _, _ => none
  | .land call ttl now io =>
    match s.calls[call]? with
    | some { op, answer := none } =>
      some { s with
        stored := (s.serve cfg ttl now io op).1
        calls := s.calls.set call { op, answer := some (s.serve cfg ttl now io op).2 } }
    | _ => none
  | .foreign sec =>
    if sectionHolder sec = cfg.holder then none
    else some { s with stored := (sec.run cfg.name s.stored).1 }

/-- The lease that a step of a claim installs. -/
def installs (cfg : Config) (s : Node) : Event → Option Lease
  | .acquired answered =>
    match s.mutex with
    | .acquiring call => (s.result call answered).join
    | _ => none
  | .observed answered _ =>
    match s.mutex with
    | .reading call =>
      (s.result call answered).join.filter fun lease => decide (lease.holder = cfg.holder)
    | _ => none
  | _ => none

/-- A release of the fence is out: it was issued, and the store has not carried it out. -/
def ReleaseOut (s : Node) (fence : ℕ) : Prop :=
  ∃ call ∈ s.calls, call.answer = none ∧ ∃ lease, call.op = .release lease ∧ lease.fence = fence

/-- What a step must be clear of: it installs a lease whose release is out. -/
def Clear (cfg : Config) (s : Node) (e : Event) : Prop :=
  ∀ lease ∈ s.installs cfg e, ¬ s.ReleaseOut lease.fence

/-- The process starts: it has claimed nothing. The lease file is as it was left. -/
structure Starts (s : Node) : Prop where
  lease : s.lease = none
  renewer : s.renewer = none
  tasks : s.tasks = []
  mutex : s.mutex = .free
  calls : s.calls = []

end Node

end Cronstable.Slot

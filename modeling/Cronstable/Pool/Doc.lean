import Cronstable.Lib.Dict
import Cronstable.Lib.PyText
import Mathlib.Algebra.Order.Ring.Rat
import Mathlib.Data.List.Sort

/-!
# Pool documents

A pool is a durable admission queue shared by the nodes of a cluster. Its document holds the
capacity, the entries by key, and for each retry scope the generation that is current. Every
operation is a transform of the document that the store applies atomically: it first maintains the
document (`maintain`: lapsed leases, queue timeouts, retention), then resizes it if it may, then
runs its action. An action that raises leaves the stored document alone.

The JSON text of a retry scope determines the job name and the host, so a scope is that pair here.
Texts that are only displayed are kept where a transform writes them; of the payload, the fields
that no transform reads are left out.
-/

namespace Cronstable.Pool

/-- Wall-clock seconds, as a node reads them. -/
abbrev Time := ℚ

/-- `LEASE_SECONDS`. -/
def leaseSeconds : Time := 30

/-- How many finished entries `_maintain` keeps. -/
def finishedKept : ℕ := 100

/-! ## Entries -/

/-- The states of an entry. -/
inductive EntryState
  | queued
  | running
  | finished
  | expired
  | cancelled
  deriving DecidableEq, Repr

namespace EntryState

/-- `TERMINAL`. -/
def terminal : EntryState → Bool
  | finished | expired | cancelled => true
  | queued | running => false

@[simp]
lemma terminal_eq_false_iff {s : EntryState} : s.terminal = false ↔ s = queued ∨ s = running := by
  cases s <;> simp [terminal]

end EntryState

/-- What a payload asks for. -/
inductive Kind
  | job
  | task
  deriving DecidableEq, Repr

/-- `_retry_scope`: the job and the host a ladder belongs to. -/
structure Scope where
  name : String
  host : Option String
  deriving DecidableEq, Repr

/-- The generation a retry was enqueued under. -/
structure RetryGuard where
  pool : String
  scope : Scope
  generation : String
  deriving DecidableEq, Repr

/-- Where a retry stands in its ladder. -/
structure Retry where
  count : ℕ
  delay : ℚ
  deriving DecidableEq, Repr

/-- The payload of an entry. -/
structure Payload where
  kind : Option Kind := none
  targetHost : Option String := none
  retryGuard : Option RetryGuard := none
  retryCancelled : Bool := false
  retry : Option Retry := none
  deriving DecidableEq, Repr

/-- One entry of the queue. -/
structure Entry where
  id : String
  job : String
  state : EntryState
  slots : ℕ
  priority : ℤ
  queuedAt : Time
  expiresAt : Time
  digest : String
  owner : Option String
  payload : Payload
  /-- Set by a claim. -/
  leaseUntil : Option Time := none
  reason : Option String := none
  finishedAt : Option Time := none
  /-- The driver has seen that the entry was closed. -/
  observed : Bool := false
  deriving DecidableEq, Repr

namespace Entry

/-- `_unobserved_task`. -/
def unobservedTask (e : Entry) : Bool :=
  (e.state == .cancelled || e.state == .expired) && e.payload.kind == some .task && !e.observed

/-- `_retry_scope` of an entry. -/
def scope (e : Entry) : Scope := ⟨e.job, e.payload.targetHost⟩

/-- `_queue_order`: by priority, then age, then id. -/
def before (e e' : Entry) : Bool :=
  decide (e'.priority < e.priority) ||
    (e.priority == e'.priority && (decide (e.queuedAt < e'.queuedAt) ||
      (e.queuedAt == e'.queuedAt && decide (e.id < e'.id))))

/-- The slots an entry takes up. -/
def usedSlots (e : Entry) : ℕ := if e.state = .running then e.slots else 0

/-- Whether the entry waits or runs. -/
def live (e : Entry) : Bool := !e.state.terminal

end Entry

/-! ## The document -/

/-- A pool document. -/
structure PoolBody where
  slots : ℕ
  entries : Dict String Entry
  /-- The current generation of each retry scope; the empty one where none is stored. -/
  retryGenerations : Dict Scope String
  deriving DecidableEq

/-- The configuration of a pool on one node. -/
structure PoolConf where
  slots : ℕ
  maxQueued : ℕ
  deriving DecidableEq, Repr

namespace PoolBody

/-- The generation of a scope. -/
def generation (body : PoolBody) (scope : Scope) : String :=
  (body.retryGenerations.get? scope).getD ""

/-- `_used_slots`. -/
def usedSlots (body : PoolBody) : ℕ := body.entries.total Entry.usedSlots

/-- Write the entry at `key`. -/
def setEntry (body : PoolBody) (key : String) (e : Entry) : PoolBody :=
  { body with entries := body.entries.set key e }

@[simp]
lemma setEntry_entries (body : PoolBody) (key : String) (e : Entry) :
    (body.setEntry key e).entries = body.entries.set key e := rfl

@[simp]
lemma setEntry_slots (body : PoolBody) (key : String) (e : Entry) :
    (body.setEntry key e).slots = body.slots := rfl

end PoolBody

/-! ## Maintenance -/

/-- A lapsed lease puts an entry back into the queue. -/
def lapse (now : Time) (e : Entry) : Entry :=
  if e.state = .running ∧ e.leaseUntil.any (fun deadline => decide (deadline ≤ now)) then
    { e with state := .queued, owner := none }
  else e

/-- An entry that waited too long expires. -/
def expire (now : Time) (e : Entry) : Entry :=
  if e.state = .queued ∧ e.expiresAt ≤ now then
    { e with state := .expired, reason := some "queue timeout", finishedAt := some now }
  else e

/-- The order of the finished entries, newest first. -/
def finishedAfter (e e' : Entry) : Bool :=
  let t := e.finishedAt.getD 0
  let t' := e'.finishedAt.getD 0
  decide (t' < t) || (t == t' && decide (e'.id ≤ e.id))

/-- The entries that retention drops. -/
def overdue (entries : Dict String Entry) : List Entry :=
  ((entries.values.filter fun e => e.state.terminal && !e.unobservedTask).mergeSort
    finishedAfter).drop finishedKept

/-- `_maintain`. -/
def maintain (body : PoolBody) (now : Time) : PoolBody :=
  let entries := body.entries.mapVal fun _ e => expire now (lapse now e)
  { body with entries := (overdue entries).foldl (fun d e => d.erase e.id) entries }

/-! ## Actions -/

/-- A job as the queue sees it. -/
structure Job where
  name : String
  pool : String
  poolSlots : ℕ
  queuePriority : ℤ
  queueTimeout : Time
  digest : String
  deriving DecidableEq, Repr

/-- The retry ladder of a run. -/
structure RetryState where
  poolRetry : Option RetryGuard
  cancelled : Bool
  count : ℕ
  delay : ℚ
  deriving DecidableEq, Repr

/-- `RetrySettlement`. -/
structure Settlement where
  generation : String
  reason : String
  /-- The generation found by the first run of the transform. -/
  previous : Option String := none
  deriving DecidableEq, Repr

/-- What an action hands back. -/
inductive Reply
  | none
  /-- The entry found. -/
  | entry (e : Entry)
  /-- The entry that an `enqueue` wrote. -/
  | added (e : Entry)
  /-- A claim that took its entry. -/
  | claimed (e : Entry)
  /-- A claim that did not, and whether the entry is still queued. -/
  | refused (queued : Bool)
  | renewed (ok : Bool)
  | settled (s : Settlement)
  deriving DecidableEq

/-- The payload of a new entry: the context with the retry fields. -/
def retryContext (body : PoolBody) (job : Job) (context : Payload) :
    Option RetryState → Payload
  | .none => context
  | some retryState =>
    let scope : Scope := ⟨job.name, context.targetHost⟩
    let guard := retryState.poolRetry.getD ⟨job.pool, scope, body.generation scope⟩
    { context with
      retryGuard := some guard
      retryCancelled := retryState.cancelled
      retry := some ⟨retryState.count, retryState.delay⟩ }

/-- The entry that `enqueue` writes. -/
def newEntry (job : Job) (key : String) (payload : Payload) (now : Time) : Entry :=
  { id := key
    job := job.name
    state := .queued
    slots := job.poolSlots
    priority := job.queuePriority
    queuedAt := now
    expiresAt := now + job.queueTimeout
    digest := job.digest
    owner := none
    payload := payload }

/-- The part of `enqueue`'s action that writes a new entry. -/
def addFresh (conf : PoolConf) (job : Job) (key : String) (context : Payload)
    (retryState : Option RetryState) (body : PoolBody) (now : Time) :
    Except String (PoolBody × Reply) :=
  if body.slots ≠ conf.slots then
    .error "pool is draining before a capacity change"
  else if conf.maxQueued ≤ body.entries.values.countP (·.state == .queued) +
      body.entries.values.countP Entry.unobservedTask then
    .error "pool queue is full"
  else
    let entry := newEntry job key (retryContext body job context retryState) now
    .ok (body.setEntry key entry, .added entry)

/-- The action of `enqueue`. -/
def add (conf : PoolConf) (job : Job) (key : String) (context : Payload)
    (retryState : Option RetryState) (resume : Bool) (body : PoolBody) (now : Time) :
    Except String (PoolBody × Reply) :=
  match body.entries.get? key with
  | some old =>
    if resume && (old.state == .cancelled || old.state == .expired) then
      addFresh conf job key context retryState body now
    else .ok (body, .entry old)
  | .none => addFresh conf job key context retryState body now

section Add

variable {conf : PoolConf} {job : Job} {key : String} {context : Payload}
  {retryState : Option RetryState} {body body' : PoolBody} {now : Time} {reply : Reply}

/-- What the writing part does when it does not raise. -/
lemma addFresh_cases
    (h : addFresh conf job key context retryState body now = .ok (body', reply)) :
    body.slots = conf.slots ∧
      body' = body.setEntry key
        (newEntry job key (retryContext body job context retryState) now) ∧
      reply = .added (newEntry job key (retryContext body job context retryState) now) := by
  unfold addFresh at h
  split at h
  · cases h
  next hslots =>
    split at h
    · cases h
    · cases h
      exact ⟨not_not.mp hslots, rfl, rfl⟩

/-- What `add` can do: hand back the entry it finds, or write a new one where there is none or a
closed one is resumed. -/
theorem add_cases {resume : Bool}
    (h : add conf job key context retryState resume body now = .ok (body', reply)) :
    (body' = body ∧ ∃ old, body.entries.get? key = some old ∧ reply = .entry old) ∨
      addFresh conf job key context retryState body now = .ok (body', reply) ∧
        ∀ old, body.entries.get? key = some old →
          old.state = .cancelled ∨ old.state = .expired := by
  unfold add at h
  cases hget : body.entries.get? key with
  | none =>
    rw [hget] at h
    exact .inr ⟨h, by simp⟩
  | some old =>
    rw [hget] at h
    simp only at h
    split at h
    next hresume =>
      refine .inr ⟨h, ?_⟩
      rintro _ ⟨⟩
      simp only [Bool.and_eq_true, Bool.or_eq_true, beq_iff_eq] at hresume
      exact hresume.2
    next =>
      cases h
      exact .inl ⟨rfl, old, rfl, rfl⟩

end Add

/-- `_retry_current`. -/
def retryCurrent (body : PoolBody) (payload : Payload) : Bool :=
  !payload.retryCancelled &&
    payload.retryGuard.all fun guard => body.generation guard.scope == guard.generation

/-- `_retry_superseded`: a retry whose ladder was cancelled or replaced. -/
def retrySuperseded (body : PoolBody) (payload : Payload) : Bool :=
  payload.retry.any (fun retry => decide (0 < retry.count)) && !retryCurrent body payload

/-- The head of the queue. -/
def head (entries : List Entry) : Option Entry :=
  entries.foldl (fun best e => match best with
    | .none => if e.state == .queued then some e else none
    | some b => if e.state == .queued && e.before b then some e else some b) none

/-- `_Queue.admits`: the entry heads the queue and fits the free slots. -/
def admits (body : PoolBody) (e : Entry) : Bool :=
  (head body.entries.values).any fun h =>
    h.id == e.id && decide ((e.slots : ℤ) ≤ (body.slots : ℤ) - body.usedSlots)

/-- The action of `_claim`, by a node with host `host`. -/
def claim (host owner key : String) (body : PoolBody) (now : Time) : PoolBody × Reply :=
  match body.entries.get? key with
  | .none => (body, .refused false)
  | some e =>
    if e.state ≠ .queued then (body, .refused false)
    else if e.payload.targetHost.any (· != host) then (body, .refused true)
    else if retrySuperseded body e.payload then
      (body.setEntry key { e with
        state := .cancelled, reason := some "retry superseded", finishedAt := some now },
        .refused false)
    else if !admits body e then (body, .refused true)
    else
      let e' := { e with
        state := .running, owner := some owner, leaseUntil := some (now + leaseSeconds) }
      (body.setEntry key e', .claimed e')

/-- What `claim` can do: refuse, cancel a superseded retry, or take the head of the queue. -/
theorem claim_cases (host owner key : String) (body : PoolBody) (now : Time) :
    ((claim host owner key body now).1 = body ∧
        ∃ queued, (claim host owner key body now).2 = .refused queued) ∨
      ∃ e, body.entries.get? key = some e ∧ e.state = .queued ∧
        (retrySuperseded body e.payload = true ∧
            claim host owner key body now = (body.setEntry key { e with
              state := .cancelled, reason := some "retry superseded", finishedAt := some now },
              .refused false) ∨
          retrySuperseded body e.payload = false ∧ admits body e = true ∧
            claim host owner key body now =
              (body.setEntry key { e with
                state := .running, owner := some owner, leaseUntil := some (now + leaseSeconds) },
              .claimed { e with
                state := .running, owner := some owner,
                leaseUntil := some (now + leaseSeconds) })) := by
  unfold claim
  cases hget : body.entries.get? key with
  | none => exact .inl ⟨rfl, false, rfl⟩
  | some e =>
    simp only
    split
    · exact .inl ⟨rfl, false, rfl⟩
    next hqueued =>
      have hqueued : e.state = .queued := not_not.mp hqueued
      split
      · exact .inl ⟨rfl, true, rfl⟩
      · split
        next hsuper => exact .inr ⟨e, rfl, hqueued, .inl ⟨hsuper, rfl⟩⟩
        next hsuper =>
          split
          · exact .inl ⟨rfl, true, rfl⟩
          next hadmits =>
            exact .inr ⟨e, rfl, hqueued,
              .inr ⟨by simpa using hsuper, by simpa using hadmits, rfl⟩⟩

/-- What a ticket's entry is closed as. -/
inductive Closing
  | finished
  | cancelled
  /-- Back to the queue. -/
  | queued
  deriving DecidableEq, Repr

/-- The state that a closing leaves. -/
def Closing.state : Closing → EntryState
  | finished => .finished
  | cancelled => .cancelled
  | queued => .queued

/-- The action of `finish`, for a ticket with this key and owner. -/
def finish (key owner : String) (closing : Closing) (reason : Option String) (body : PoolBody)
    (now : Time) : PoolBody × Reply :=
  match body.entries.get? key with
  | some e =>
    if e.owner = some owner then
      (body.setEntry key { e with
        state := closing.state, reason := reason, finishedAt := some now, owner := none }, .none)
    else (body, .none)
  | .none => (body, .none)

/-- The action of `_renew`. -/
def renew (key owner : String) (body : PoolBody) (now : Time) : PoolBody × Reply :=
  match body.entries.get? key with
  | some e =>
    if e.state = .running ∧ e.owner = some owner then
      (body.setEntry key { e with leaseUntil := some (now + leaseSeconds) }, .renewed true)
    else (body, .renewed false)
  | .none => (body, .renewed false)

/-- The action of `cancel`. -/
def cancel (key reason : String) (body : PoolBody) (now : Time) :
    Except String (PoolBody × Reply) :=
  match body.entries.get? key with
  | .none => .error "queue entry not found"
  | some e =>
    if e.state = .cancelled then .ok (body, .entry e)
    else if e.state ≠ .queued then .error "only waiting entries can be cancelled"
    else
      let e' := { e with state := .cancelled, reason := some reason, finishedAt := some now }
      .ok (body.setEntry key e', .entry e')

/-- What a settlement does to one entry. -/
def settleEntry (scope : Scope) (reason : String) (now : Time) (e : Entry) : Entry :=
  match e.payload.retry with
  | .none => e
  | some retry =>
    if e.scope ≠ scope then e
    else
      let e := { e with payload := { e.payload with retryCancelled := true } }
      if e.state = .queued ∧ 0 < retry.count then
        { e with state := .cancelled, reason := some reason, finishedAt := some now }
      else e

/-- The action of a retry settlement, which records the generation it found on its first run. -/
def settle (scope : Scope) (s : Settlement) (body : PoolBody) (now : Time) :
    PoolBody × Settlement :=
  let current := body.generation scope
  let s := { s with previous := some (s.previous.getD current) }
  if s.previous ≠ some current then (body, s)
  else
    ({ body with
      retryGenerations := body.retryGenerations.set scope s.generation
      entries := body.entries.mapVal fun _ e => settleEntry scope s.reason now e }, s)

/-- The action of `_retire_tasks` on one key. -/
def retireOne (now : Time) (body : PoolBody) (key : String) : PoolBody :=
  match body.entries.get? key with
  | .none => body
  | some e =>
    if e.state = .running then body
    else
      let e := if e.state = .queued then
          { e with
            state := .cancelled
            reason := some "task is no longer waiting"
            finishedAt := some now }
        else e
      body.setEntry key { e with observed := true }

/-- The action of `acknowledge_task`. -/
def acknowledge (key : String) (body : PoolBody) : PoolBody :=
  match body.entries.get? key with
  | .none => body
  | some e => body.setEntry key { e with observed := true }

/-! ## Transforms -/

/-- The document of a pool that has none yet. -/
def newBody (conf : Option PoolConf) : PoolBody :=
  { slots := (conf.map PoolConf.slots).getD 0, entries := .empty, retryGenerations := .empty }

/-- A strict transform takes over the configured capacity once nothing waits or runs. -/
def resize (conf : Option PoolConf) (body : PoolBody) : PoolBody :=
  match conf with
  | some conf =>
    if body.slots ≠ conf.slots ∧ body.entries.values.all (·.state.terminal) then
      { body with slots := conf.slots }
    else body
  | .none => body

/-- The operations on a pool document. -/
inductive Op
  /-- `conf` is the pool's configuration when the request was made. -/
  | enqueue (conf : PoolConf) (job : Job) (key : String) (context : Payload)
      (retryState : Option RetryState) (resume : Bool)
  | claim (host owner key : String)
  | finish (key owner : String) (closing : Closing) (reason : Option String)
  | renew (key owner : String)
  | cancel (key reason : String)
  | settle (scope : Scope) (settlement : Settlement)
  | retire (keys : List String)
  | acknowledge (key : String)
  | read

namespace Op

/-- Whether the operation is a strict change. -/
def strict : Op → Bool
  | enqueue .. | claim .. => true
  | _ => false

/-- The action of an operation. -/
def action (now : Time) (body : PoolBody) : Op → Except String (PoolBody × Reply)
  | enqueue conf job key context retryState resume =>
    add conf job key context retryState resume body now
  | claim host owner key => .ok (Pool.claim host owner key body now)
  | finish key owner closing reason => .ok (Pool.finish key owner closing reason body now)
  | renew key owner => .ok (Pool.renew key owner body now)
  | cancel key reason => Pool.cancel key reason body now
  | settle scope s =>
    let (body', s') := Pool.settle scope s body now
    .ok (body', .settled s')
  | retire keys => .ok (keys.foldl (retireOne now) body, .none)
  | acknowledge key => .ok (Pool.acknowledge key body, .none)
  | read => .ok (body, .none)

end Op

/-- The document an action of `_change` works on. -/
def prepare (conf : Option PoolConf) (strict : Bool) (now : Time) (current : Option PoolBody) :
    PoolBody :=
  let body := maintain (current.getD (newBody conf)) now
  if strict then resize conf body else body

/-- `_change`: the transform of an operation on the pool of this name, by a node with configuration
`conf` that reads the time `now`. -/
def change (pool : String) (conf : Option PoolConf) (now : Time) (op : Op)
    (current : Option PoolBody) : Except String (PoolBody × Reply) :=
  if op.strict && conf.isNone then .error ("unknown pool " ++ PyText.quoted pool)
  else op.action now (prepare conf op.strict now current)

/-- A transform on its way: its operation, the configuration of its node and the time it read. -/
structure Request where
  conf : Option PoolConf
  now : Time
  op : Op

end Cronstable.Pool

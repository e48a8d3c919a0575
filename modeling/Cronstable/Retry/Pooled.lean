import Cronstable.Pool.Settlement
import Cronstable.Retry.Ladder

/-!
# The retry ladder of a job with a pool

A retry of such a job is not settled and launched when it is due. `_retry_consume_ok` asks the pool
whether the ladder is current, and admits the attempt under a key that is made of the guard of the
ladder and the number of the attempt. The `pending` record stays on top of the stream, so another
node may resume the ladder and admit the attempt again; it finds the entry of the first admission.
The attempt is launched by the node that claims the entry.

`Pooled` is the cluster together with the pool document. The document may change by any other
request at any time, which includes a request that timed out for its caller and the admissions of a
task whose ladder was replaced. `claimed_once` is the result: an entry that, once claimed, keeps its
lease, is not handed back and is there when its attempt is admitted again is claimed only once.
-/

namespace Cronstable.Retry

open List Option Pool Trace

/-! ## The model -/

/-- What the pool branch reads of the job. -/
structure PoolSetup where
  job : Pool.Job
  conf : PoolConf
  /-- `state.pool_retry`, the same for all attempts of a ladder. -/
  guard : RetryGuard
  /-- `_key(("retry", guard, count))`. -/
  key : ℕ → String

/-- The cluster and the pool document. -/
structure Pooled (Host : Type) where
  cluster : State Host
  doc : Option PoolBody := none
  /-- The nodes whose retry was found current, and is admitted next. -/
  current : List Host := []
  /-- The keys of the entries that were claimed, newest first. -/
  claimed : List String := []

/-- What happens in the cluster and in the pool. -/
inductive PooledEvent (Host : Type)
  /-- A step of the ladder in which the pool has no part. -/
  | ladder (e : Event Host)
  /-- `_retry_consume_ok` asks whether the ladder is current. -/
  | ask (n : Host) (wall : Pool.Time)
  /-- It admits the attempt. -/
  | enqueueJob (n : Host) (now : Time) (wall : Pool.Time)
  /-- The pool does not answer. -/
  | unavailable (n : Host) (now : Time)
  /-- The claim lease is released after the admission. -/
  | admitted (n : Host)
  /-- A request of a node lands on the pool document. -/
  | request (n : Host) (r : Request)

variable {Host : Type}

/-- The operation of `enqueue_job`, for the armed attempt. -/
def PoolSetup.admission (p : PoolSetup) (l : Ladder) : Op :=
  .enqueue p.conf p.job (p.key l.count) { kind := some .job }
    (some ⟨some p.guard, false, l.count, l.delay / 1000000⟩) false

/-- The entry that a reply shows to be claimed, with its key. -/
def claimOf : Op → Reply → Option (String × Entry)
  | .claim _ _ key, .claimed e => some (key, e)
  | _, _ => none

namespace Pooled

/-- The ladder of a node that is past the check of the newest record, and whether it holds the
lease. -/
def settling? (s : Pooled Host) (n : Host) : Option (Ladder × Bool) :=
  match (s.cluster.nodes n).ladder with
  | some l => match l.phase with
    | .settling lease => some (l, lease)
    | _ => none
  | none => none

/-- The request that an event brings to the pool document. -/
def lands (p : PoolSetup) (s : Pooled Host) : PooledEvent Host → Option Request
  | .ask _ wall => some ⟨some p.conf, wall, .read⟩
  | .enqueueJob n _ wall => (s.settling? n).map fun x => ⟨some p.conf, wall, p.admission x.1⟩
  | .request _ r => some r
  | .ladder _ | .unavailable .. | .admitted _ => none

/-- The entry at a key. -/
def entry (s : Pooled Host) (key : String) : Option Entry := s.doc.bind (·.entries.get? key)

/-- A request leaves an entry that was claimed out of the queue: the lease of the entry has not
lapsed, the entry is not handed back, and an admission under its key finds it. -/
structure Keeps (s : Pooled Host) (key : String) (r : Request) : Prop where
  lease : ∀ e, s.entry key = some e → ¬ e.Lapsed r.now
  held : ∀ owner reason, r.op ≠ .finish key owner .queued reason
  receipt : ∀ conf job context retryState resume,
    r.op = .enqueue conf job key context retryState resume → resume = false ∧
      (prepare r.conf r.op.strict r.now s.doc).entries.contains key = true

/-- What lands once the entry was claimed keeps it out of the queue. -/
def Clear (p : PoolSetup) (key : String) (s : Pooled Host) (ev : PooledEvent Host) : Prop :=
  key ∈ s.claimed → ∀ r, s.lands p ev = some r → s.Keeps key r

variable [DecidableEq Host]

/-- The retry is not admitted: the lease is released, and the gates are asked again later. -/
def hold (s : Pooled Host) (n : Host) (now : Time) (l : Ladder) (lease : Bool) : Pooled Host :=
  { s with
    cluster := (s.cluster.releaseLease lease).setNode n ((s.cluster.nodes n).defer l now)
    current := s.current.filter (· ≠ n) }

/-- The task of the ladder moves on. -/
def setPhase (s : Pooled Host) (n : Host) (l : Ladder) (phase : Phase) : Pooled Host :=
  { s with
    cluster := s.cluster.setNode n ((s.cluster.nodes n).setPhase l phase)
    current := s.current.filter (· ≠ n) }

/-- A claimed entry is launched, with the place in the ladder that its payload has. -/
def launch (p : PoolSetup) (s : Pooled Host) (n : Host) (e : Entry) : State Host :=
  match e.payload.retry with
  | some retry =>
    if e.job = p.job.name then
      s.cluster.setNode n
        { s.cluster.nodes n with ladder := some { count := retry.count, phase := .running } }
    else s.cluster
  | none => s.cluster

/-- The pool branch of `_retry_consume_ok`, up to the answer to its first request. A ladder that was
cancelled or replaced ends. -/
def ask (p : PoolSetup) (s : Pooled Host) (n : Host) (wall : Pool.Time) (l : Ladder)
    (lease : Bool) : Pooled Host :=
  let body := prepare (some p.conf) false wall s.doc
  let s := { s with doc := some body }
  if retryCurrent body { retryGuard := some p.guard } then { s with current := n :: s.current }
  else s.setPhase n l (.aborting lease)

/-- The rest of it. The `pending` record stays where it is. -/
def enqueueJob (p : PoolSetup) (s : Pooled Host) (n : Host) (now : Time) (wall : Pool.Time)
    (l : Ladder) (lease : Bool) : Pooled Host :=
  match change p.job.pool (some p.conf) wall (p.admission l) s.doc with
  | .ok (body, _) => { s with doc := some body }.setPhase n l (.launching lease)
  | .error _ => s.hold n now l lease

/-- A request lands; one that raises leaves the document alone. -/
def request (p : PoolSetup) (s : Pooled Host) (n : Host) (r : Request) : Pooled Host :=
  match change p.job.pool r.conf r.now r.op s.doc with
  | .ok (body, reply) =>
    match claimOf r.op reply with
    | some (key, e) =>
      { s with doc := some body, cluster := s.launch p n e, claimed := key :: s.claimed }
    | none => { s with doc := some body }
  | .error _ => s

/-- The steps of the ladder that a job with a pool does not take: the settle, and the release before
the launch. -/
def replaced (s : Pooled Host) : Event Host → Bool
  | .consume .. => true
  | .release n => (s.cluster.nodes n).ladder.any fun l => match l.phase with
    | .launching _ => true
    | _ => false
  | _ => false

/-- One step of the cluster, for a job with a pool. -/
def step (job : Job) (p : PoolSetup) (failClosed : Bool) (s : Pooled Host) :
    PooledEvent Host → Option (Pooled Host)
  | .ladder e =>
    if s.replaced e then none
    else (s.cluster.step job failClosed e).map fun cluster => { s with cluster }
  | .ask n wall =>
    (s.settling? n).bind fun (l, lease) =>
      if n ∈ s.current then none else some (s.ask p n wall l lease)
  | .enqueueJob n now wall =>
    (s.settling? n).bind fun (l, lease) =>
      if n ∈ s.current then some (s.enqueueJob p n now wall l lease) else none
  | .unavailable n now => (s.settling? n).map fun (l, lease) => s.hold n now l lease
  | .admitted n =>
    match (s.cluster.nodes n).ladder with
    | some { phase := .launching lease, .. } =>
      -- the task is over; what is left of the ladder only keeps the scan of the node away
      let x := { s.cluster.nodes n with ladder := none }
      some { s with cluster := (s.cluster.releaseLease lease).setNode n x }
    | _ => none
  | .request n r => some (s.request p n r)

/-! ## An entry is claimed once -/

variable {job : Job} {p : PoolSetup} {failClosed : Bool} {s t : Pooled Host}
  {ev : PooledEvent Host} {key : String} {r : Request}

/-- What a step can do to the document and the claims: nothing, or a request lands. -/
theorem step_cases (h : s.step job p failClosed ev = some t) :
    t.doc = s.doc ∧ t.claimed = s.claimed ∨
      ∃ r body reply, s.lands p ev = some r ∧
        change p.job.pool r.conf r.now r.op s.doc = .ok (body, reply) ∧ t.doc = some body ∧
        t.claimed = ((claimOf r.op reply).map Prod.fst).toList ++ s.claimed := by
  cases ev with simp only [step] at h
  | ladder e =>
    split at h
    · cases h
    · obtain ⟨cluster, -, rfl⟩ := map_eq_some_iff.mp h
      exact .inl ⟨rfl, rfl⟩
  | ask n wall =>
    obtain ⟨⟨l, lease⟩, -, h⟩ := bind_eq_some_iff.mp h
    obtain ⟨-, h⟩ := ite_none_left_eq_some.mp h
    cases h
    refine .inr ⟨_, prepare (some p.conf) false wall s.doc, .none, rfl, rfl, ?_⟩
    unfold ask
    dsimp only
    split <;> exact ⟨rfl, rfl⟩
  | enqueueJob n now wall =>
    obtain ⟨⟨l, lease⟩, hl, h⟩ := bind_eq_some_iff.mp h
    obtain ⟨-, h⟩ := ite_none_right_eq_some.mp h
    cases h
    unfold enqueueJob
    split
    next body reply hchange =>
      exact .inr ⟨_, body, reply, by rw [lands, hl]; rfl, hchange, rfl, rfl⟩
    next => exact .inl ⟨rfl, rfl⟩
  | unavailable n now =>
    obtain ⟨⟨l, lease⟩, -, rfl⟩ := map_eq_some_iff.mp h
    exact .inl ⟨rfl, rfl⟩
  | admitted n =>
    split at h
    · cases h
      exact .inl ⟨rfl, rfl⟩
    · cases h
  | request n r =>
    cases h
    unfold request
    split
    next body reply hchange =>
      refine .inr ⟨r, body, reply, rfl, hchange, ?_⟩
      split
      next key e hclaim => exact ⟨rfl, by rw [hclaim]; rfl⟩
      next hclaim => exact ⟨rfl, by rw [hclaim]; rfl⟩
    next => exact .inl ⟨rfl, rfl⟩

section Landings

variable {body : PoolBody} {reply : Reply}
  (hchange : change p.job.pool r.conf r.now r.op s.doc = .ok (body, reply))

include hchange

omit [DecidableEq Host] in
/-- A request runs its action on the maintained document. -/
theorem action_of_change :
    r.op.action r.now (prepare r.conf r.op.strict r.now s.doc) = .ok (body, reply) := by
  unfold change at hchange
  split at hchange
  · cases hchange
  · exact hchange

omit [DecidableEq Host] in
/-- An entry that was claimed does not come to wait. -/
theorem Keeps.not_queued (hkeeps : s.Keeps key r)
    (hwait : ∀ e, s.entry key = some e → e.state ≠ .queued) {e' : Entry}
    (he' : body.entries.get? key = some e') : e'.state ≠ .queued := by
  rcases entry_of_action (action_of_change hchange) he' with
    ⟨e, he, hmoves⟩ | ⟨conf, job, context, retryState, resume, hop, -, hreply, -⟩
  · exact hmoves.not_queued (hwait e he) (hkeeps.lease e he) hkeeps.held
  · -- an admission that finds its receipt writes no entry
    obtain ⟨rfl, hreceipt⟩ := hkeeps.receipt conf job context retryState resume hop
    obtain ⟨old, hold⟩ := Dict.contains_iff.mp hreceipt
    have haction := action_of_change hchange
    rw [hop] at haction hold
    simp only [Op.action, Pool.add, hold, Bool.false_and, Bool.false_eq_true, if_false] at haction
    cases haction
    cases hreply

omit [DecidableEq Host] in
/-- An entry that is claimed waited, and does not wait after. -/
theorem of_claimOf {e : Entry} (hclaim : claimOf r.op reply = some (key, e)) :
    (∃ e₁, (prepare r.conf r.op.strict r.now s.doc).entries.get? key = some e₁ ∧
        e₁.state = .queued) ∧
      ∀ e', body.entries.get? key = some e' → e'.state ≠ .queued := by
  have haction := action_of_change hchange
  generalize prepare r.conf r.op.strict r.now s.doc = doc at haction ⊢
  unfold claimOf at hclaim
  split at hclaim
  next host owner key' e' hop =>
    obtain ⟨rfl, rfl⟩ := Prod.mk.inj (Option.some.inj hclaim)
    rw [hop] at haction
    have hpair : Pool.claim host owner key' doc r.now = (body, .claimed e') := Except.ok.inj haction
    rcases claim_cases host owner key' doc r.now with
      ⟨-, queued, hrefused⟩ | ⟨e₁, hget, hqueued, ⟨-, hcancel⟩ | ⟨-, -, htaken⟩⟩
    · rw [hpair] at hrefused
      cases hrefused
    · rw [hpair] at hcancel
      cases hcancel
    · rw [hpair] at htaken
      obtain ⟨rfl, -⟩ := Prod.mk.inj htaken
      refine ⟨⟨e₁, hget, hqueued⟩, fun e' he' => ?_⟩
      rw [PoolBody.setEntry_entries, Dict.get?_set_self] at he'
      cases he'
      simp
  next => cases hclaim

end Landings

/-- One step: the entry is claimed at most once, and does not wait once it was claimed. -/
theorem claimed_step (hclear : s.Clear p key ev) (hstep : s.step job p failClosed ev = some t)
    (h : s.claimed.count key ≤ 1 ∧
      (key ∈ s.claimed → ∀ e, s.entry key = some e → e.state ≠ .queued)) :
    t.claimed.count key ≤ 1 ∧
      (key ∈ t.claimed → ∀ e, t.entry key = some e → e.state ≠ .queued) := by
  obtain ⟨honce, hwait⟩ := h
  rcases step_cases hstep with ⟨hdoc, hclaimed⟩ | ⟨r, body, reply, hlands, hchange, hdoc, hclaimed⟩
  · rw [hclaimed, entry, hdoc]
    exact ⟨honce, hwait⟩
  · have hentry : t.entry key = body.entries.get? key := by rw [entry, hdoc]; rfl
    rw [hclaimed, hentry]
    have hkeep : key ∈ s.claimed → ∀ e, body.entries.get? key = some e → e.state ≠ .queued :=
      fun hmem _ => (hclear hmem r hlands).not_queued hchange (hwait hmem)
    -- a claim of this entry counts, and one of another does not
    cases hclaim : claimOf r.op reply with
    | none => exact ⟨honce, hkeep⟩
    | some x =>
      obtain ⟨key', e⟩ := x
      by_cases hkey : key' = key
      · subst hkey
        obtain ⟨⟨e₁, hget, hqueued⟩, hafter⟩ := of_claimOf hchange hclaim
        -- it waited, so it had not been claimed
        have hnew : key' ∉ s.claimed := by
          intro hmem
          obtain ⟨e₀, he₀, hmoves⟩ := moves_prepare r.op hget
          have hkeeps := hclear hmem r hlands
          exact hmoves.not_queued (hwait hmem e₀ he₀) (hkeeps.lease e₀ he₀) hkeeps.held hqueued
        refine ⟨?_, fun _ => hafter⟩
        simp [count_eq_zero.mpr hnew]
      · refine ⟨?_, fun hmem => hkeep ?_⟩
        · simpa [hkey] using honce
        · simpa [Ne.symm hkey] using hmem

/-- An attempt of a job with a pool is launched at most once. Let no entry of its key have been
claimed. In every run in which the entry, once claimed, keeps its lease, is not handed back and is
found when the attempt is admitted again, it is claimed at most once, by whichever nodes admit it
and however often. -/
theorem claimed_once {key : String} {s t : Pooled Host} {events : List (PooledEvent Host)}
    (hs : key ∉ s.claimed)
    (hrun : Run (fun s ev t => s.Clear p key ev ∧ s.step job p failClosed ev = some t) s events t) :
    t.claimed.count key ≤ 1 := by
  have hboth := hrun.invariant
    (P := fun s => s.claimed.count key ≤ 1 ∧
      (key ∈ s.claimed → ∀ e, s.entry key = some e → e.state ≠ .queued))
    (fun _ _ _ h hstep => claimed_step hstep.1 hstep.2 h)
    ⟨by simp [count_eq_zero.mpr hs], fun hmem => absurd hmem hs⟩
  exact hboth.1

/-! ### A ladder that moves while its attempt waits -/

section Runs

/-- The key of an attempt is its number. -/
private def report : PoolSetup :=
  { job := ⟨"report", "io", 1, 0, 600, "d"⟩, conf := ⟨1, 10⟩, guard := ⟨"io", ⟨"report", none⟩, ""⟩
    key := toString }

/-- A minute lies between the attempts. -/
private def everyMinute : Job :=
  { maximumRetries := 3, startingDeadlineSeconds := 0, delay := fun _ => 60 * 1000000 }

/-- The scheduled run fails on node `false`, whose retry is due a minute later. -/
private def failing : Pooled Bool :=
  { cluster := { nodes := fun m =>
      if m then {} else { ladder := some { count := 0, phase := .running } } } }

/-- A retry that is due is admitted. -/
private def admission (n : Bool) (seconds : ℕ) : List (PooledEvent Bool) :=
  [.ladder (.acquire n (seconds * 1000000)), .ladder (.read n), .ask n seconds,
    .enqueueJob n (seconds * 1000000) seconds, .admitted n]

/-- Node `true` resumes the ladder, whose record is not settled, and admits the attempt again. -/
private def admittedTwice : List (PooledEvent Bool) :=
  [.ladder (.finish false 0 .failed), .ladder (.land false)] ++ admission false 60 ++
    [.scan true 100000000, .scanAcquire true, .recheck true, .ledger true 100000000, .claim true,
      .scanRelease true 100000000, .land true].map .ladder ++ admission true 100 ++
    [.request true ⟨some report.conf, 101, .claim "b" "o" "1"⟩]

example : (admittedTwice.foldlM (step everyMinute report true) failing).map
    (fun s => (s.claimed, s.doc.map (·.entries.keys))) = some (["1"], some ["1"]) := by
  decide +kernel

end Runs

end Pooled

end Cronstable.Retry

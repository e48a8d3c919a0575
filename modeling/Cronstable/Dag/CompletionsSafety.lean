import Cronstable.Dag.Completions
import Cronstable.Lib.Log

/-!
# No completion is lost

A completion handed to the flush is to be recorded or fenced out: until then the node owes it.
`_pending_completions` has one place per run and task, whatever attempt or poke is queued there, and
`_settle_completion` empties it. When an earlier write of the task comes back late, this takes the
completion of a later poke off the queue, and its entry is left running with nothing owed
(`later_poke_lost`). Where the queue holds, at each step, nothing in the way of the completions
that the step handles, none is lost (`completion_owed`).

## Main results

* `Node.Owed.step`: a step with nothing in its way keeps a completion, or a write has carried it;
* `Node.Shut.step`: once a write was carried out, the fences of what it carried stay closed until
  the entry is launched anew;
* `completion_owed`: both along whole runs.
-/

namespace Cronstable.Dag.Completions

open List Option Dict Live Completion Log

open Trace (Run)

/-! ## The retry queue -/

/-- Popping a batch empties places of the batch only. -/
theorem popAll_cases (q : Queue) (ref : RunRef) (entries : List Completion)
    (key : RunRef × String) :
    (popAll q ref entries).get? key = q.get? key ∨
      ((popAll q ref entries).get? key = none ∧ ∃ e ∈ entries, (ref, e.taskkey) = key) := by
  induction entries generalizing q with
  | nil => exact .inl rfl
  | cons e entries ih =>
    have hpop : (popCompletion q ref e).get? key = q.get? key ∨
        ((popCompletion q ref e).get? key = none ∧ (ref, e.taskkey) = key) := by
      rw [popCompletion, get?_erase]
      split_ifs with h
      · exact .inr ⟨rfl, h.symm⟩
      · exact .inl rfl
    rcases ih (popCompletion q ref e) with h | ⟨h, e', he', hkey⟩
    · refine hpop.imp (h.trans ·) fun hnone => ⟨h.trans hnone.1, e, mem_cons_self, hnone.2⟩
    · exact .inr ⟨h, e', mem_cons_of_mem _ he', hkey⟩

/-- Queueing a batch fills the places of the batch, each with one of its completions. -/
theorem requeueEntries_cases (q : Queue) (ref : RunRef) (now : Time) (entries : List Completion)
    (key : RunRef × String) :
    ((requeueEntries q ref now entries).get? key = q.get? key ∧
      ∀ e ∈ entries, (ref, e.taskkey) ≠ key) ∨
    ∃ e ∈ entries, (ref, e.taskkey) = key ∧
      ∃ p, (requeueEntries q ref now entries).get? key = some p ∧ p.completion = e.queued := by
  induction entries generalizing q with
  | nil => exact .inl ⟨rfl, by simp⟩
  | cons e entries ih =>
    rcases ih (queueCompletion q ref now e) with ⟨h, hother⟩ | ⟨e', he', hkey, hp⟩
    · by_cases hkey : (ref, e.taskkey) = key
      · refine .inr ⟨e, mem_cons_self, hkey, ?_⟩
        rw [← hkey] at h ⊢
        exact ⟨_, h.trans (get?_set_self _ _ _), rfl⟩
      · refine .inl ⟨h.trans (get?_set_of_ne _ _ (Ne.symm hkey)), ?_⟩
        simpa [hkey] using hother
    · exact .inr ⟨e', mem_cons_of_mem _ he', hkey, hp⟩

variable {ref' : RunRef} {popped queued entries : List Completion} {now : Time} {call : Call}
  {i : ℕ} {asked : List Call} {env : Env} {body : RunBody}

variable {dags : Dict String DagSpec} {spec : DagSpec}

namespace Node

variable {s s' : Node} {ev : Event} {ref : RunRef} {c : Completion}

/-! ## What the writers do -/

@[simp]
lemma setWaiting_pending (s : Node) (w : Bool) (caller : Caller) :
    (s.setWaiting w caller).pending = s.pending := by cases caller <;> rfl

/-- A stretch of a writer up to its next suspension: it takes completions off the queue, queues
others and asks for a write. -/
structure Round (s : Node) (ref : RunRef) (popped queued : List Completion) (now : Time)
    (asked : List Call) (s' : Node) : Prop where
  dags : s'.dags = s.dags
  backend : s'.backend = s.backend
  docs : s'.docs = s.docs
  jobs : s'.jobs = s.jobs
  buffer : s'.buffer = s.buffer
  flush : s'.flush.map Loop.rest = s.flush.map Loop.rest
  retry : s'.retry.isSome = s.retry.isSome
  pending : s'.pending = requeueEntries (popAll s.pending ref popped) ref now queued
  calls : s'.calls = s.calls ++ asked

/-- A write that was just asked for. -/
structure Asked (ref : RunRef) (entries : List Completion) (call : Call) : Prop where
  ref : call.ref = ref
  landed : call.landed = false
  status : call.status = .awaited
  live : call.live.map Live.entry = entries

/-- Suspending a coroutine is no more than that. -/
private lemma setWaiting_round (s : Node) (ref : RunRef) (now : Time) (w : Bool)
    (caller : Caller) : Round s ref [] [] now [] (s.setWaiting w caller) := by
  refine ⟨?_, ?_, ?_, ?_, ?_, ?_, ?_, setWaiting_pending s w caller, ?_⟩
  all_goals cases caller <;> simp [setWaiting, Function.comp_def]

/-- Asking for a write. -/
private lemma mutate_round (s : Node) (ref : RunRef) (live : List Live) (caller : Caller)
    (now : Time) :
    Round s ref [] [] now [{ ref, live, now, caller }] (s.mutate ref live caller now) := by
  have h := setWaiting_round
    { s with calls := s.calls ++ [{ ref, live, now, caller }] } ref now true caller
  exact { h with calls := h.calls.trans (append_nil _) }

/-- Taking completions off the queue. -/
private lemma pop_round (s : Node) (ref : RunRef) (entries : List Completion) (now : Time) :
    Round s ref entries [] now [] { s with pending := popAll s.pending ref entries } :=
  ⟨rfl, rfl, rfl, rfl, rfl, rfl, rfl, rfl, by simp⟩

/-- A write is answered: its completions are taken off the queue or queued, and its caller goes
on. -/
private lemma answered_round (s : Node) (ref : RunRef) (popped queued : List Completion)
    (now : Time) (calls : List Call) (caller : Caller) :
    Round { s with calls } ref popped queued now []
      (({ s with
        calls
        pending := requeueEntries (popAll s.pending ref popped) ref now queued } :
          Node).setWaiting false caller) := by
  have h := setWaiting_round { s with
    calls
    pending := requeueEntries (popAll s.pending ref popped) ref now queued } ref now false caller
  exact { h with }

/-- A completion of a configured task can be recorded, any other cannot. -/
private lemma live_eq_some {l : Live} (h : env.live spec c = some l) :
    l.entry = c ∧ spec.byId.contains c.taskId = true := by
  obtain ⟨task, htask, rfl⟩ := map_eq_some_iff.mp h
  exact ⟨rfl, contains_iff.mpr ⟨task, htask⟩⟩

private lemma live_eq_none : env.live spec c = none ↔ spec.byId.contains c.taskId = false := by
  rw [Env.live, map_eq_none_iff, contains_eq_false_iff]

/-- A round of a writer that was given completions: it drops what is not configured, and queues or
sends the others. -/
structure Writes (s : Node) (ref : RunRef) (entries popped queued : List Completion) (now : Time)
    (asked : List Call) (s' : Node) : Prop extends Round s ref popped queued now asked s' where
  mem : ∀ e ∈ popped ++ queued, e ∈ entries
  sent : ∀ call ∈ asked, ∃ es, Asked ref es call ∧ ∀ e ∈ es, e ∈ entries
  gone : ∀ e ∈ popped, ¬ Configured s.dags ref e

/-- A writer drops all it was given. -/
private lemma Round.writes (h : Round s ref entries [] now [] s')
    (hgone : ∀ e ∈ entries, ¬ Configured s.dags ref e) :
    Writes s ref entries entries [] now [] s' :=
  { h with mem := by simp, sent := by simp, gone := hgone }

/-- A writer sends all it was given. -/
private lemma Round.sends (h : Round s ref [] [] now [call] s')
    (hasked : Asked ref entries call) : Writes s ref entries [] [] now [call] s' :=
  { h with mem := by simp, sent := by simpa using ⟨_, hasked, fun _ he => he⟩, gone := by simp }

/-- What a writer asks for has not been carried out. -/
private lemma Writes.unlanded (h : Writes s ref entries popped queued now asked s') :
    ∀ call ∈ asked, call.landed = false := by
  intro call hcall
  obtain ⟨es, hes, -⟩ := h.sent call hcall
  exact hes.landed

/-- What the flush does with the batch of a run. -/
structure Flushed (s : Node) (env : Env) (ref : RunRef) (entries popped queued : List Completion)
    (asked : List Call) (s' : Node) : Prop
    extends Writes s ref entries popped queued env.now asked s' where
  kept : ∀ e ∈ entries, Configured s.dags ref e →
    e ∈ queued ∨ ∃ call ∈ asked, e ∈ call.live.map Live.entry
  handled : ∀ spec, s.dags.get? ref.1 = some spec → ∀ e ∈ popped ++ queued,
    s.backend = false ∨ (spec.byId.get? e.taskId).isNone = true

/-- Nothing is configured in a DAG that is gone. -/
private lemma not_configured (hdag : dags.get? ref.1 = none) (c : Completion) :
    ¬ Configured dags ref c := by
  rintro ⟨spec, hspec, -⟩
  rw [hdag] at hspec
  cases hspec

/-- A completion is configured in the DAG of its run. -/
private lemma configured_iff (hdag : dags.get? ref.1 = some spec) :
    Configured dags ref c ↔ spec.byId.contains c.taskId := by
  simp [Configured, hdag]

lemma flushRunCompletions_round (s : Node) (env : Env) (ref : RunRef)
    (entries : List Completion) :
    ∃ popped queued asked,
      Flushed s env ref entries popped queued asked (s.flushRunCompletions env ref entries) := by
  unfold flushRunCompletions
  cases hdag : s.dags.get? ref.1 with
  | none =>
    have hgone := not_configured hdag
    exact ⟨entries, [], [], (pop_round s ref entries env.now).writes fun e _ => hgone e,
      fun e _ h => absurd h (hgone e), by simp [hdag]⟩
  | some spec =>
    simp only
    set removed := entries.filter fun e => (spec.byId.get? e.taskId).isNone with hremoved
    set live := entries.filterMap (env.live spec) with hlive
    have hsub : ∀ e ∈ removed, e ∈ entries := fun e he => (mem_filter.mp he).1
    have hnone : ∀ e ∈ removed, (spec.byId.get? e.taskId).isNone = true :=
      fun e he => (mem_filter.mp he).2
    have hunconf : ∀ e ∈ removed, ¬ Configured s.dags ref e := by
      intro e he
      rw [configured_iff hdag, Dict.contains, ← not_isNone, hnone e he]
      exact Bool.false_ne_true
    have hentry : ∀ e ∈ live.map entry, e ∈ entries := by
      intro e he
      obtain ⟨l, hl, rfl⟩ := mem_map.mp he
      obtain ⟨e', he', hl'⟩ := mem_filterMap.mp hl
      exact (live_eq_some hl').1 ▸ he'
    have hconf : ∀ e ∈ entries, Configured s.dags ref e → e ∈ live.map entry := by
      intro e he htask
      rw [configured_iff hdag] at htask
      cases hl : env.live spec e with
      | none =>
        rw [live_eq_none.mp hl] at htask
        cases htask
      | some l =>
        exact mem_map.mpr ⟨l, mem_filterMap.mpr ⟨e, he, hl⟩, (live_eq_some hl).1⟩
    -- without a queue, what is handled is what was removed
    have hhandled : ∀ spec', s.dags.get? ref.1 = some spec' → ∀ e ∈ removed ++ [],
        s.backend = false ∨ (spec'.byId.get? e.taskId).isNone = true := by
      intro spec' hspec' e he
      cases hdag.symm.trans hspec'
      exact .inr (hnone e (by simpa using he))
    have hpop := pop_round s ref removed env.now
    split_ifs with hempty hbackend
    · -- every task of the batch is gone
      refine ⟨removed, [], [],
        { hpop with mem := by simpa using hsub, sent := by simp, gone := hunconf }, ?_, hhandled⟩
      intro e he hc
      have := hconf e he hc
      rw [isEmpty_iff.mp hempty] at this
      cases this
    · -- the batch is sent to the store
      have hsend := mutate_round { s with pending := popAll s.pending ref removed } ref live .flush
        env.now
      refine ⟨removed, [], _,
        { hsend with mem := by simpa using hsub, sent := ?_, gone := hunconf },
        fun e he hc => .inr ⟨_, mem_singleton_self _, hconf e he hc⟩, hhandled⟩
      simpa using ⟨_, ⟨rfl, rfl, rfl, rfl⟩, hentry⟩
    · -- there is no store
      refine ⟨removed, live.map entry, [], { hpop with
          pending := rfl, mem := ?_, sent := by simp, gone := hunconf },
        fun e he hc => .inl (hconf e he hc), fun _ _ _ _ => .inl (by simpa using hbackend)⟩
      intro e he
      exact (mem_append.mp he).elim (hsub e) (hentry e)

/-- What `_finish_task` does, on a node with a store. -/
theorem finishTask_round (hbackend : s.backend = true) (env : Env) (spec : DagSpec) (ref : RunRef)
    (c : Completion) (caller : Caller) :
    (spec.byId.contains c.taskId = false ∧
      Round s ref [c] [] env.now [] (s.finishTask env spec ref c caller)) ∨
    ∃ call, Asked ref [c] call ∧
      Round s ref [] [] env.now [call] (s.finishTask env spec ref c caller) := by
  unfold finishTask
  cases hlive : env.live spec c with
  | none => exact .inl ⟨live_eq_none.mp hlive, pop_round s ref [c] env.now⟩
  | some l =>
    refine .inr ⟨{ ref, live := [l], now := env.now, caller }, ⟨rfl, rfl, rfl, ?_⟩, ?_⟩
    · simp [(live_eq_some hlive).1]
    · simpa only [hbackend, if_true] using mutate_round s ref [l] caller env.now

/-- What a round of the retry does, with a store for what is due. -/
theorem retryCompletion_round (env : Env) (now : Time) (key : RunRef × String)
    (hserved : ∀ pc, s.pending.get? key = some pc → now < pc.nextTryAt ∨ s.backend = true) :
    ∃ popped asked, Writes s key.1 ((s.pending.get? key).toList.map Pending.completion) popped []
      env.now asked (s.retryCompletion env now key) := by
  have hskip : ∀ entries, Writes s key.1 entries [] [] env.now [] s := fun entries =>
    { pop_round s key.1 [] env.now with mem := by simp, sent := by simp, gone := by simp }
  unfold retryCompletion
  cases hpc : s.pending.get? key with
  | none => exact ⟨[], [], hskip _⟩
  | some pc =>
    simp only
    split_ifs with hdue
    · exact ⟨[], [], hskip _⟩
    · cases hdag : s.dags.get? key.1.1 with
      | none => exact ⟨_, [], (pop_round s key.1 _ env.now).writes fun e _ => not_configured hdag e⟩
      | some spec =>
        have hbackend := (hserved pc hpc).resolve_left hdue
        rcases finishTask_round hbackend env spec key.1 pc.completion .retry with
          ⟨hgone, hround⟩ | ⟨call, hasked, hround⟩
        · exact ⟨_, [], hround.writes (by simp [configured_iff hdag, hgone])⟩
        · exact ⟨[], [call], hround.sends hasked⟩

/-! ## Steps, one rule each -/

/-- What `step` can do, with the guards under which it does so. -/
inductive Takes (s : Node) : Event → Node → Prop
  | reload (dags : Dict String DagSpec) : Takes s (.reload dags) { s with dags }
  | rebuild (backend : Bool) : Takes s (.rebuild backend) { s with backend }
  | hand {ref : RunRef} {c : Completion} (hjob : c.job = s.jobs) :
      Takes s (.hand ref c) { s with
        jobs := s.jobs + 1
        buffer := s.buffer.set ref ((s.buffer.get? ref).getD [] ++ [c]) }
  | drop {ref : RunRef} {c : Completion} {s' : Node} (hjob : c.job = s.jobs)
      (hwrites : Writes { s with jobs := s.jobs + 1 } ref [c] [c] [] 0 [] s')
      (hdag : s.dags.get? ref.1 = none) : Takes s (.hand ref c) s'
  | flush (hidle : s.flush = none) :
      Takes s .flush { s with buffer := .empty, flush := some { rest := s.buffer.items } }
  | flushNext {env : Env} {ref : RunRef} {entries popped queued : List Completion}
      {rest : List (RunRef × List Completion)} {asked : List Call} {s' : Node}
      (hflush : s.flush = some ⟨(ref, entries) :: rest, false⟩)
      (hwrites : Flushed { s with flush := some { rest } } env ref entries popped queued asked s') :
      Takes s (.flushNext env) s'
  | flushDone {env : Env} (hflush : s.flush = some ⟨[], false⟩) :
      Takes s (.flushNext env) { s with flush := none }
  | retry {now : Time} :
      Takes s (.retry now) { s with retry := some (now, { rest := s.pending.keys }) }
  | retryNext {env : Env} {now : Time} {key : RunRef × String} {rest : List (RunRef × String)}
      {popped : List Completion} {asked : List Call} {s' : Node}
      (hwrites : Writes { s with retry := some (now, { rest }) } key.1
        ((s.pending.get? key).toList.map Pending.completion) popped [] env.now asked s') :
      Takes s (.retryNext env) s'
  | retryDone {env : Env} : Takes s (.retryNext env) { s with retry := none }
  | launchFailed {env : Env} {ref : RunRef} {spec : DagSpec} {c : Completion} {call : Call}
      {s' : Node} (hjob : c.job = s.jobs)
      (hwrites : Writes { s with jobs := s.jobs + 1 } ref [c] [] [] env.now [call] s') :
      Takes s (.launchFailed env ref spec c) s'
  | land {i : ℕ} {call : Call} (hcall : s.calls[i]? = some call) :
      Takes s (.land i) (s.land i call)
  | returns {i : ℕ} {call : Call} {s' : Node} (hcall : s.calls[i]? = some call)
      (hround : Round { s with calls := s.calls.set i { call with status := .returned } } call.ref
        (call.live.map Live.entry) [] 0 [] s')
      (hlanded : call.landed = true) : Takes s (.returns i) s'
  | raises {env : Env} {i : ℕ} {call : Call} {s' : Node} (hcall : s.calls[i]? = some call)
      (hround : Round { s with calls := s.calls.set i { call with status := .raised } } call.ref
        [] (call.live.map Live.entry) env.now [] s')
      (hstatus : call.status = .awaited) : Takes s (.raises env i) s'
  | create {ref : RunRef} {spec : DagSpec} {runId : String} {logicalDate : Option String}
      {kind : String} {now : Time} (hnone : s.docs.get? ref = none)
      (hvalid : validateGraph spec = .ok ()) :
      Takes s (.create ref spec runId logicalDate kind now)
        { s with docs := s.docs.set ref (newRunBody ref.1 ref.2 runId logicalDate kind now spec) }
  | advance {ref : RunRef} {spec : DagSpec} {op : Op} {body : RunBody}
      (hdoc : s.docs.get? ref = some body) (hvalid : validateGraph spec = .ok ()) :
      Takes s (.advance ref spec op ((op.launches spec body).map LaunchIntent.taskkey))
        { s with docs := s.docs.set ref (op.apply spec body) }

/-- Every step that has the store it needs is one of them. -/
theorem Takes.of_step (hserved : s.served ev) (hstep : s.step ev = some s') : Takes s ev s' := by
  cases ev with simp only [Node.step] at hstep
  | reload dags =>
    cases hstep
    exact .reload dags
  | rebuild backend =>
    cases hstep
    exact .rebuild backend
  | hand ref c =>
    obtain ⟨hjob, hstep⟩ := ite_none_right_eq_some.mp hstep
    cases hstep
    unfold onTaskFinished
    split_ifs with hdag
    · exact .hand hjob
    · have hnone : s.dags.get? ref.1 = none :=
        contains_eq_false_iff.mp (Bool.not_eq_true _ ▸ hdag)
      exact .drop hjob ((pop_round _ ref [c] 0).writes fun e _ => not_configured hnone e) hnone
  | flush =>
    obtain ⟨hidle, hstep⟩ := ite_none_right_eq_some.mp hstep
    cases hstep
    exact .flush (isNone_iff_eq_none.mp hidle)
  | flushNext env =>
    split at hstep
    next ref entries rest hflush =>
      cases hstep
      obtain ⟨popped, queued, asked, hwrites⟩ :=
        flushRunCompletions_round { s with flush := some { rest } } env ref entries
      exact .flushNext hflush hwrites
    next hflush =>
      cases hstep
      exact .flushDone hflush
    next => cases hstep
  | retry now =>
    obtain ⟨-, hstep⟩ := ite_none_right_eq_some.mp hstep
    cases hstep
    exact .retry
  | retryNext env =>
    split at hstep
    next now key rest hretry =>
      cases hstep
      obtain ⟨popped, asked, hwrites⟩ := retryCompletion_round
        (s := { s with retry := some (now, { rest }) }) env now key fun pc hpc => by
          simpa [served, hretry, hpc] using hserved
      exact .retryNext hwrites
    next =>
      cases hstep
      exact .retryDone
    next => cases hstep
  | launchFailed env ref spec c =>
    obtain ⟨⟨hjob, htask⟩, hstep⟩ := ite_none_right_eq_some.mp hstep
    cases hstep
    rcases finishTask_round (s := { s with jobs := s.jobs + 1 }) hserved env spec ref c .launch
      with ⟨hgone, -⟩ | ⟨call, hasked, hround⟩
    · rw [hgone] at htask
      cases htask
    · exact .launchFailed hjob (hround.sends hasked)
  | land i =>
    split at hstep
    next call hcall =>
      split_ifs at hstep
      cases hstep
      exact .land hcall
    next => cases hstep
  | returns i =>
    split at hstep
    next call hcall =>
      obtain ⟨hguard, hstep⟩ := ite_none_right_eq_some.mp hstep
      cases hstep
      exact .returns hcall (answered_round s _ _ [] _ _ _) hguard.2
    next => cases hstep
  | raises env i =>
    split at hstep
    next call hcall =>
      obtain ⟨hstatus, hstep⟩ := ite_none_right_eq_some.mp hstep
      cases hstep
      exact .raises hcall (answered_round s _ [] _ _ _ _) hstatus
    next => cases hstep
  | create ref spec runId logicalDate kind now =>
    obtain ⟨⟨hnone, hvalid⟩, hstep⟩ := ite_none_right_eq_some.mp hstep
    cases hstep
    exact .create (isNone_iff_eq_none.mp hnone) hvalid
  | advance ref spec op launched =>
    split at hstep
    next body hdoc =>
      obtain ⟨⟨hvalid, hlaunched⟩, hnext⟩ := ite_none_right_eq_some.mp hstep
      cases hnext
      exact hlaunched ▸ .advance hdoc hvalid
    next => cases hstep

/-! ## A completion on its way -/

/-- A queued completion stays queued, unless its place is emptied. -/
private lemma queued_kept {q : Queue} {p : Pending} (hget : q.get? (ref, c.taskkey) = some p)
    (hcopy : p.completion = c.queued)
    (hqueued : ∀ e ∈ queued, (ref', e.taskkey) = (ref, c.taskkey) → e.queued = c.queued) :
    (∃ p, (requeueEntries (popAll q ref' popped) ref' now queued).get? (ref, c.taskkey) = some p ∧
      p.completion = c.queued) ∨
    ∃ e ∈ popped, (ref', e.taskkey) = (ref, c.taskkey) := by
  rcases requeueEntries_cases (popAll q ref' popped) ref' now queued (ref, c.taskkey) with
    ⟨h, -⟩ | ⟨e, he, hkey, p', hp', hcopy'⟩
  · rcases popAll_cases q ref' popped (ref, c.taskkey) with h' | ⟨-, hpopped⟩
    · exact .inl ⟨p, h.trans (h'.trans hget), hcopy⟩
    · exact .inr hpopped
  · exact .inl ⟨p', hp', hcopy'.trans (hqueued e he hkey)⟩

/-- A round keeps what it does not find in its way. -/
private lemma Owed.of_round (h : s.Owed ref c) (hround : Round s ref' popped queued now asked s')
    (hpopped : ∀ e ∈ popped, (ref', e.taskkey) = (ref, c.taskkey) →
      ∀ p, s.pending.get? (ref, c.taskkey) = some p → p.completion ≠ c.queued)
    (hqueued : ∀ e ∈ queued, (ref', e.taskkey) = (ref, c.taskkey) →
      ∀ p, s.pending.get? (ref, c.taskkey) = some p → p.completion = c.queued →
        e.queued = c.queued) : s'.Owed ref c := by
  cases h with
  | buffered hget hmem => exact .buffered (hround.buffer ▸ hget) hmem
  | @taken loop entries hflush hrest hmem =>
    have hrest' : s'.flush.map Loop.rest = some loop.rest := by rw [hround.flush, hflush]; rfl
    obtain ⟨loop', hloop', heq⟩ := map_eq_some_iff.mp hrest'
    exact .taken hloop' (heq ▸ hrest) hmem
  | @queued p hget hcopy =>
    rcases queued_kept hget hcopy fun e he hkey => hqueued e he hkey p hget hcopy with
      ⟨p', hp', hcopy'⟩ | ⟨e, he, hkey⟩
    · exact .queued (hround.pending ▸ hp') hcopy'
    · exact absurd hcopy (hpopped e he hkey p hget)
  | @awaited i call hget hcarries hstatus =>
    exact .awaited (hround.calls ▸ append_some hget asked) hcarries hstatus

/-- A completion in a write that a round asked for. -/
private lemma Owed.of_asked (hround : Round s ref popped queued now asked s')
    (hcall : call ∈ asked) (hasked : Asked ref entries call) (hmem : c ∈ entries) :
    s'.Owed ref c := by
  obtain ⟨i, hi⟩ := mem_iff_getElem?.mp (hround.calls ▸ mem_append_right s.calls hcall)
  rw [← hasked.live] at hmem
  obtain ⟨l, hl, rfl⟩ := mem_map.mp hmem
  exact .awaited hi ⟨hasked.ref, l, hl, rfl⟩ hasked.status

/-- Two completions with the same copy are of the same task. -/
private lemma task_eq {e : Completion} (h : e.queued = c.queued) :
    e.taskId = c.taskId ∧ e.taskkey = c.taskkey := by
  have hid := congrArg taskId h
  have hkey := congrArg taskkey h
  exact ⟨hid, hkey⟩

/-- A completion that a round queued, or that has the copy of one. -/
private lemma Owed.of_queued {e : Completion} (hround : Round s ref popped queued now asked s')
    (hmem : e ∈ queued) (hcopy : e.queued = c.queued)
    (hsame : ∀ d ∈ queued, d.taskkey = e.taskkey → d.queued = e.queued) : s'.Owed ref c := by
  rcases requeueEntries_cases (popAll s.pending ref popped) ref now queued (ref, e.taskkey) with
    ⟨-, hother⟩ | ⟨d, hd, hkey, p, hp, hcopy'⟩
  · exact absurd rfl (hother e hmem)
  · have heq := hsame d hd (Prod.mk.inj hkey).2
    rw [(task_eq hcopy).2] at hp
    exact .queued (hround.pending ▸ hp) (hcopy'.trans (heq.trans hcopy))

/-! ## The state of the node -/

/-- What holds on a node at all times. -/
structure Sound (s : Node) : Prop where
  /-- A queued completion sits at the key of its task. -/
  keyed : ∀ key p, s.pending.get? key = some p → p.completion.taskkey = key.2
  /-- Only a write that was carried out returns. -/
  landed : ∀ (i : ℕ) (call : Call), s.calls[i]? = some call → call.status = .returned →
    call.landed = true
  tidy : ∀ ref body, s.docs.get? ref = some body → Tidy body
  /-- Nothing is on its way that was not handed over. -/
  buffered : ∀ ref entries, s.buffer.get? ref = some entries → ∀ e ∈ entries, e.job < s.jobs
  taken : ∀ loop, s.flush = some loop → ∀ b ∈ loop.rest, ∀ e ∈ b.2, e.job < s.jobs
  queued : ∀ key p, s.pending.get? key = some p → p.completion.job < s.jobs
  called : ∀ (i : ℕ) (call : Call), s.calls[i]? = some call → ∀ l ∈ call.live, l.entry.job < s.jobs

/-- What a round leaves in the queue was there before, or was queued by it. -/
private lemma Round.pending_cases (hround : Round s ref' popped queued now asked s')
    {key : RunRef × String} {p : Pending} (hget : s'.pending.get? key = some p) :
    s.pending.get? key = some p ∨
      ∃ e ∈ queued, (ref', e.taskkey) = key ∧ p.completion = e.queued := by
  rw [hround.pending] at hget
  rcases requeueEntries_cases (popAll s.pending ref' popped) ref' now queued key with
    ⟨h, -⟩ | ⟨e, he, hkey, p', hp', hcopy⟩
  · rw [h] at hget
    rcases popAll_cases s.pending ref' popped key with h' | ⟨h', -⟩
    · exact .inl (h' ▸ hget)
    · rw [h'] at hget
      cases hget
  · obtain rfl := mem_unique hp' hget
    exact .inr ⟨e, he, hkey, hcopy⟩

/-- A batch of completions starts nothing. -/
private lemma finish_inherits (marks : List CompletionMark) (now : Time) (htidy : Tidy body) :
    Tidy ((markTasksFinished marks now body).1.getD body) ∧
      Inherits body [] ((markTasksFinished marks now body).1.getD body) := by
  -- the write does not depend on the DAG
  have hspec : ValidSpec { name := "", tasks := [] } := validSpec_of_validateGraph (by decide)
  exact (Op.finish marks now).running_of_apply hspec htidy

namespace Sound

section

variable (h : Sound s)

include h

/-- A round of a writer. -/
private lemma of_round (hround : Round s ref' popped queued now asked s')
    (hqueued : ∀ e ∈ queued, e.job < s.jobs)
    (hasked : ∀ call ∈ asked, ∃ es, Asked ref' es call ∧ ∀ e ∈ es, e.job < s.jobs) : Sound s' := by
  have hcall : ∀ (i : ℕ) (call : Call), s'.calls[i]? = some call →
      s.calls[i]? = some call ∨ call ∈ asked := fun i call hget =>
    (append_cases (hround.calls ▸ hget)).imp_right And.right
  refine ⟨?_, ?_, ?_, ?_, ?_, ?_, ?_⟩
  · intro key p hget
    rcases hround.pending_cases hget with hold | ⟨e, -, rfl, hcopy⟩
    · exact h.keyed key p hold
    · rw [hcopy]
      rfl
  · intro i call hget hstatus
    rcases hcall i call hget with hold | hnew
    · exact h.landed i call hold hstatus
    · obtain ⟨es, hes, -⟩ := hasked call hnew
      rw [hes.status] at hstatus
      cases hstatus
  · rw [hround.docs]
    exact h.tidy
  · rw [hround.buffer, hround.jobs]
    exact h.buffered
  · intro loop hflush
    rw [hround.jobs]
    have hrest : s.flush.map Loop.rest = some loop.rest := by rw [← hround.flush, hflush]; rfl
    obtain ⟨loop', hloop', heq⟩ := map_eq_some_iff.mp hrest
    exact heq ▸ h.taken loop' hloop'
  · intro key p hget
    rw [hround.jobs]
    rcases hround.pending_cases hget with hold | ⟨e, he, -, hcopy⟩
    · exact h.queued key p hold
    · rw [hcopy]
      exact hqueued e he
  · intro i call hget l hl
    rw [hround.jobs]
    rcases hcall i call hget with hold | hnew
    · exact h.called i call hold l hl
    · obtain ⟨es, hes, hjobs⟩ := hasked call hnew
      exact hjobs _ (hes.live ▸ mem_map_of_mem hl)

/-- A round of a writer that was given completions of the node. -/
private lemma of_writes (hwrites : Writes s ref' entries popped queued now asked s')
    (hjobs : ∀ e ∈ entries, e.job < s.jobs) : Sound s' := by
  refine h.of_round hwrites.toRound
    (fun e he => hjobs e (hwrites.mem e (mem_append_right _ he))) fun call hcall => ?_
  obtain ⟨es, hes, hsub⟩ := hwrites.sent call hcall
  exact ⟨es, hes, fun e he => hjobs e (hsub e he)⟩

/-- One more job is handed over. -/
private lemma more : Sound { s with jobs := s.jobs + 1 } :=
  { h with
    buffered := fun ref entries hget e he => Nat.lt_succ_of_lt (h.buffered ref entries hget e he)
    taken := fun loop hloop b hb e he => Nat.lt_succ_of_lt (h.taken loop hloop b hb e he)
    queued := fun key p hget => Nat.lt_succ_of_lt (h.queued key p hget)
    called := fun i call hget l hl => Nat.lt_succ_of_lt (h.called i call hget l hl) }

/-- A write changes what it is to its caller, or is carried out. -/
private lemma set_call (hget : s.calls[i]? = some call) (call' : Call)
    (hlive : call'.live = call.live) (hlanded : call'.status = .returned → call'.landed = true) :
    Sound { s with calls := s.calls.set i call' } := by
  refine { h with landed := fun j d hd hstatus => ?_, called := fun j d hd l hl => ?_ }
  · rcases set_cases hd with ⟨-, rfl⟩ | ⟨-, hold⟩
    · exact hlanded hstatus
    · exact h.landed j d hold hstatus
  · rcases set_cases hd with ⟨-, rfl⟩ | ⟨-, hold⟩
    · exact h.called i call hget l (hlive ▸ hl)
    · exact h.called j d hold l hl

/-- A document is replaced by a tidy one. -/
private lemma set_doc (ref : RunRef) (hbody : Tidy body) :
    Sound { s with docs := s.docs.set ref body } :=
  { h with tidy := forall_set h.tidy hbody }

/-- `on_task_finished` takes one more job over. -/
private lemma hand {ref : RunRef} {c : Completion} (hjob : c.job = s.jobs) :
    Sound { s with
      jobs := s.jobs + 1
      buffer := s.buffer.set ref ((s.buffer.get? ref).getD [] ++ [c]) } := by
  refine { h.more with buffered := fun ref' entries hget e he => ?_ }
  rcases get?_set_cases hget with ⟨rfl, rfl⟩ | ⟨-, hget⟩
  · rcases mem_append.mp he with he | he
    · cases hold : s.buffer.get? ref' with
      | none => simp [hold] at he
      | some old =>
        simp only [hold, getD_some] at he
        exact h.more.buffered ref' old hold e he
    · obtain rfl := mem_singleton.mp he
      exact hjob ▸ Nat.lt_succ_self s.jobs
  · exact h.more.buffered ref' entries hget e he

/-- Every step keeps the node sound. -/
theorem step (hserved : s.served ev) (hstep : s.step ev = some s') : Sound s' := by
  cases Takes.of_step hserved hstep with
  | reload | rebuild | retry | retryDone => exact { h with }
  | hand hjob => exact h.hand hjob
  | drop hjob hwrites | launchFailed hjob hwrites =>
    exact h.more.of_writes hwrites (by simp [hjob])
  | flush hidle =>
    refine { h with buffered := by simp, taken := ?_ }
    intro loop hloop b hb e he
    cases hloop
    exact h.buffered b.1 b.2 (mem_items_iff.mp hb) e he
  | @flushNext env ref entries popped queued rest asked _ hflush hwrites =>
    have hjobs := h.taken _ hflush
    have hrest : Sound { s with flush := some { rest } } := by
      refine { h with taken := fun loop hloop b hb => ?_ }
      cases hloop
      exact hjobs b (mem_cons_of_mem _ hb)
    exact hrest.of_writes hwrites.toWrites (hjobs _ mem_cons_self)
  | flushDone hflush => exact { h with taken := by simp }
  | @retryNext env now key rest popped asked _ hwrites =>
    have hrest : Sound { s with retry := some (now, { rest }) } := { h with }
    refine hrest.of_writes hwrites fun e he => ?_
    obtain ⟨pc, hpc, rfl⟩ := mem_map.mp he
    exact h.queued key pc (mem_toList.mp hpc)
  | @land i call hcall =>
    have hset := h.set_call hcall { call with landed := true } rfl fun _ => rfl
    unfold land
    cases hdoc : s.docs.get? call.ref with
    | none => exact hset
    | some body =>
      exact hset.set_doc call.ref (finish_inherits _ _ (h.tidy call.ref body hdoc)).1
  | @returns i call _ hcall hround hlanded =>
    exact (h.set_call hcall { call with status := .returned } rfl fun _ => hlanded).of_round
      hround (by simp) (by simp)
  | @raises env i call _ hcall hround =>
    refine (h.set_call hcall { call with status := .raised } rfl (by simp)).of_round
      hround ?_ (by simp)
    intro e he
    obtain ⟨l, hl, rfl⟩ := mem_map.mp he
    exact h.called i call hcall l hl
  | create hnone hvalid =>
    exact h.set_doc _ ((Reachable.fresh _ _ _ _ _ _).tidy (validSpec_of_validateGraph hvalid))
  | advance hdoc hvalid =>
    exact h.set_doc _ (Op.running_of_apply (validSpec_of_validateGraph hvalid) _
      (h.tidy _ _ hdoc)).1

end

end Sound

/-! ## Steps -/

/-- A completion in the queue or in a write stays there, one on its way to the flush moves. -/
private lemma Owed.move (h : s.Owed ref c) (hpending : s'.pending = s.pending)
    (hcalls : s'.calls = s.calls)
    (hbuffered : ∀ entries, s.buffer.get? ref = some entries → c ∈ entries → s'.Owed ref c)
    (htaken : ∀ loop entries, s.flush = some loop → (ref, entries) ∈ loop.rest → c ∈ entries →
      s'.Owed ref c) : s'.Owed ref c := by
  cases h with
  | buffered hget hmem => exact hbuffered _ hget hmem
  | taken hloop hrest hmem => exact htaken _ _ hloop hrest hmem
  | queued hget hcopy => exact .queued (hpending ▸ hget) hcopy
  | awaited hget hcarries hstatus => exact .awaited (hcalls ▸ hget) hcarries hstatus

/-- Where a completion is depends on the buffer, the flush, the queue and the writes. -/
private lemma Owed.congr (h : s.Owed ref c) (hbuffer : s'.buffer = s.buffer)
    (hflush : s'.flush = s.flush) (hpending : s'.pending = s.pending)
    (hcalls : s'.calls = s.calls) : s'.Owed ref c :=
  h.move hpending hcalls (fun _ hget hmem => .buffered (hbuffer ▸ hget) hmem)
    fun _ _ hloop hrest hmem => .taken (hflush ▸ hloop) hrest hmem

/-- A change of a write that is not awaited any more, or that stays awaited. -/
private lemma Owed.set_call (h : s.Owed ref c) (hget : s.calls[i]? = some call) (call' : Call)
    (href : call'.ref = call.ref) (hlive : call'.live = call.live) :
    ({ s with calls := s.calls.set i call' } : Node).Owed ref c ∨
      call.Carries ref c ∧ call.status = .awaited ∧ call'.status ≠ .awaited := by
  cases h with
  | buffered hget' hmem => exact .inl (.buffered hget' hmem)
  | taken hloop hrest hmem => exact .inl (.taken hloop hrest hmem)
  | queued hget' hcopy => exact .inl (.queued hget' hcopy)
  | @awaited j d hd hcarries hstatus =>
    rcases eq_or_ne i j with rfl | hne
    · obtain rfl := mem_unique hget hd
      by_cases hawaited : call'.status = .awaited
      · exact .inl (.awaited (set_self hget call') ⟨href.trans hcarries.1, hlive ▸ hcarries.2⟩
          hawaited)
      · exact .inr ⟨hcarries, hstatus, hawaited⟩
    · exact .inl (.awaited (set_other hne hd call') hcarries hstatus)

/-- A completion whose copy is configured is configured. -/
private lemma Configured.of_queued {e : Completion} (h : Configured dags ref c)
    (heq : e.queued = c.queued) : Configured dags ref e := by
  obtain ⟨spec, hspec, htask⟩ := h
  exact ⟨spec, hspec, by rw [(task_eq heq).1, htask]⟩

section

variable (h : s.Owed ref c)

include h

/-- A writer keeps a configured completion, when what it finds at its place is that completion. -/
private lemma Owed.of_writes (hconf : Configured s.dags ref c)
    (hwrites : Writes s ref' entries popped queued now asked s')
    (hfound : ∀ e ∈ popped ++ queued, (ref', e.taskkey) = (ref, c.taskkey) →
      ∀ p, s.pending.get? (ref, c.taskkey) = some p → p.completion = c.queued →
        e.queued = c.queued) :
    s'.Owed ref c := by
  refine h.of_round hwrites.toRound ?_ fun e he => hfound e (mem_append_right _ he)
  intro e he hkey p hp hcopy
  have heq := hfound e (mem_append_left _ he) hkey p hp hcopy
  obtain ⟨rfl, -⟩ := Prod.mk.inj hkey
  exact hwrites.gone e he (hconf.of_queued heq)

/-- The flush hands a batch on: a completion of the batch is sent to the store or queued, and
others stay where they are. -/
private lemma Owed.flushNext {rest : List (RunRef × List Completion)}
    (hconf : Configured s.dags ref c) (hflush : s.flush = some ⟨(ref', entries) :: rest, false⟩)
    (hclear : s.Clear (.flushNext env))
    (hwrites : Flushed { s with flush := some { rest } } env ref' entries popped queued asked s') :
    s'.Owed ref c := by
  -- what the step pops or queues at the run of `c` is among what it handles
  have hmem : ref' = ref → ∀ e ∈ popped ++ queued, (ref, e) ∈ s.handles (.flushNext env) := by
    rintro rfl e he
    obtain ⟨spec, hspec, -⟩ := hconf
    simp only [handles, hflush, hspec, List.mem_map, Prod.mk.injEq, true_and,
      exists_eq_right, List.mem_filter, Bool.or_eq_true, Bool.not_eq_true']
    exact ⟨hwrites.mem e he, hwrites.handled spec hspec e he⟩
  by_cases hhead : ref' = ref ∧ c ∈ entries
  · obtain ⟨rfl, hc⟩ := hhead
    rcases hwrites.kept c hc hconf with hq | ⟨call, hcall, hin⟩
    · refine .of_queued hwrites.toRound hq rfl fun e he hkey => ?_
      exact (hclear.2 (ref', c) (hmem rfl c (mem_append_right _ hq))).2 (ref', e)
        (hmem rfl e (mem_append_right _ he)) hkey
    · obtain ⟨es, hes, -⟩ := hwrites.sent call hcall
      exact .of_asked hwrites.toRound hcall hes (hes.live ▸ hin)
  · have howed : ({ s with flush := some { rest } } : Node).Owed ref c := by
      refine h.move rfl rfl (fun _ hget hmem => .buffered hget hmem)
        fun loop es hloop hrest hm => ?_
      obtain rfl := mem_unique hflush hloop
      rcases mem_cons.mp hrest with heq | hrest
      · obtain ⟨rfl, rfl⟩ := Prod.mk.inj heq
        exact absurd ⟨rfl, hm⟩ hhead
      · exact .taken rfl hrest hm
    -- whatever the step finds at the place of `c` is `c`
    refine howed.of_writes hconf hwrites.toWrites fun e he hkey p hp hcopy => ?_
    have href := (Prod.mk.inj hkey).1
    exact ((hclear.2 (ref, e) (hmem href e he)).1 p (href ▸ hkey ▸ hp)).symm.trans hcopy

/-- A write that returns carried the completion, or settles others. -/
private lemma Owed.returns (hcall : s.calls[i]? = some call)
    (hround : Round { s with calls := s.calls.set i { call with status := .returned } } call.ref
      (call.live.map entry) [] now [] s')
    (hclear : s.Clear (.returns i)) : s'.Owed ref c ∨ s'.Carried ref c := by
  by_cases hcarries : call.Carries ref c
  · refine .inr ⟨i, { call with status := .returned }, ?_, hcarries, rfl⟩
    rw [hround.calls, append_nil]
    exact set_self hcall _
  · have howed := (h.set_call hcall { call with status := .returned } rfl rfl).resolve_right
      fun hawaited => hcarries hawaited.1
    refine .inl (howed.of_round hround ?_ (by simp))
    -- what the step settles at the place of `c` is `c`, which it does not carry
    intro e he hkey p hp hcopy
    obtain ⟨l, hl, rfl⟩ := mem_map.mp he
    have hhandled : (call.ref, l.entry) ∈ s.handles (.returns i) := by
      simp only [handles, hcall]
      exact mem_map.mpr ⟨l, hl, rfl⟩
    have hsame := (hclear.2 _ hhandled).1 p (hkey ▸ hp)
    exact hcarries ⟨(Prod.mk.inj hkey).1, l, hl, hsame.symm.trans hcopy⟩

/-- A write that raises puts what it carried into the queue. -/
private lemma Owed.raises (hcall : s.calls[i]? = some call)
    (hround : Round { s with calls := s.calls.set i { call with status := .raised } } call.ref []
      (call.live.map entry) env.now [] s')
    (hclear : s.Clear (.raises env i)) : s'.Owed ref c := by
  have hhandled : ∀ e ∈ call.live.map entry,
      (call.ref, e) ∈ s.handles (.raises env i) := by
    intro e he
    obtain ⟨l, hl, rfl⟩ := mem_map.mp he
    simp only [handles, hcall]
    exact mem_map.mpr ⟨l, hl, rfl⟩
  rcases h.set_call hcall { call with status := .raised } rfl rfl with
    howed | ⟨⟨rfl, l, hl, hcopy⟩, -⟩
  · refine howed.of_round hround (by simp) ?_
    intro e he hkey p hp hcopy
    exact ((hclear.2 _ (hhandled e he)).1 p (hkey ▸ hp)).symm.trans hcopy
  · -- the write carried `c`, whose place the batch now fills
    have hl' : l.entry ∈ call.live.map entry := mem_map_of_mem hl
    refine .of_queued hround hl' hcopy fun e he hkey => ?_
    exact (hclear.2 _ (hhandled _ hl')).2 (call.ref, e) (hhandled e he) hkey

/-- A completion that the node owes is still owed after a step with nothing in its way, or a write
that carried it has returned. -/
theorem Owed.step (hsound : Sound s) (hconf : Configured s.dags ref c) (hstep : s.step ev = some s')
    (hclear : s.Clear ev) : s'.Owed ref c ∨ s'.Carried ref c := by
  cases Takes.of_step hclear.1 hstep with
  | reload | rebuild | retry | retryDone | create | advance => exact .inl (h.congr rfl rfl rfl rfl)
  | @hand ref' c' =>
    refine .inl (h.move rfl rfl (fun entries hget hmem => ?_)
      fun _ _ hloop hrest hmem => .taken hloop hrest hmem)
    rcases eq_or_ne ref ref' with rfl | hne
    · exact .buffered (get?_set_self _ _ _) (by simp [hget, hmem])
    · exact .buffered ((get?_set_of_ne _ _ hne).trans hget) hmem
  | drop _ hwrites hdag =>
    have howed : ({ s with jobs := s.jobs + 1 } : Node).Owed ref c := h.congr rfl rfl rfl rfl
    refine .inl (howed.of_writes hconf hwrites fun e _ hkey => ?_)
    obtain ⟨rfl, -⟩ := Prod.mk.inj hkey
    exact absurd hconf (not_configured hdag c)
  | flush hidle =>
    refine .inl (h.move rfl rfl (fun entries hget hmem => ?_) fun loop _ hloop => ?_)
    · exact .taken rfl (mem_items_iff.mpr hget) hmem
    · rw [hidle] at hloop
      cases hloop
  | flushNext hflush hwrites => exact .inl (h.flushNext hconf hflush hclear hwrites)
  | flushDone hflush =>
    refine .inl (h.move rfl rfl (fun _ hget hmem => .buffered hget hmem)
      fun loop _ hloop hrest => ?_)
    obtain rfl := mem_unique hflush hloop
    cases hrest
  | @retryNext env now key rest popped _ _ hwrites =>
    have howed : ({ s with retry := some (now, { rest }) } : Node).Owed ref c :=
      h.congr rfl rfl rfl rfl
    refine .inl (howed.of_writes hconf hwrites fun e he hkey p hp hcopy => ?_)
    obtain ⟨pc, hpc, rfl⟩ := mem_map.mp (hwrites.mem e he)
    replace hpc := mem_toList.mp hpc
    -- the key looked at is the place of `c`
    have hplace : key = (ref, c.taskkey) := by rw [← hkey, hsound.keyed key pc hpc]
    subst hplace
    obtain rfl := mem_unique hpc hp
    rw [hcopy, queued_queued]
  | launchFailed _ hwrites =>
    have howed : ({ s with jobs := s.jobs + 1 } : Node).Owed ref c := h.congr rfl rfl rfl rfl
    exact .inl (howed.of_writes hconf hwrites (by simp))
  | @land i call hcall =>
    rcases h.set_call hcall { call with landed := true } rfl rfl with howed | ⟨-, hst, hne⟩
    · exact .inl (howed.congr rfl rfl rfl rfl)
    · exact absurd hst hne
  | returns hcall hround => exact h.returns hcall hround hclear
  | raises hcall hround => exact .inl (h.raises hcall hround hclear)

end

/-! ## Writes and documents -/

/-- An entry that runs in a replaced document ran before, or was launched. -/
private lemma leftRunning_set {body' : RunBody} {launches : List LaunchIntent}
    (hdocs : s'.docs = s.docs.set ref' body') (hdoc : s.docs.get? ref' = some body)
    (hinherits : Inherits body launches body')
    (hlaunch : ref' = ref → ∀ intent ∈ launches, intent.taskkey ≠ c.taskkey)
    (h : s'.LeftRunning ref c) : s.LeftRunning ref c := by
  obtain ⟨b, e, hb, he, hstate, hproc, hattempt, hpoke⟩ := h
  rcases get?_set_cases (hdocs ▸ hb) with ⟨rfl, rfl⟩ | ⟨-, hb⟩
  · rcases hinherits _ e he hstate (by simp [hproc]) with ⟨intent, hmem, hkey⟩ | ⟨e₀, he₀, hrun⟩
    · exact absurd hkey (hlaunch rfl intent hmem)
    · exact ⟨body, e₀, hdoc, he₀, hrun.state, hrun.proc.trans hproc, hrun.attempt.trans hattempt,
        fun n hn => hrun.poke.trans (hpoke n hn)⟩
  · exact ⟨b, e, hb, he, hstate, hproc, hattempt, hpoke⟩

/-- The writers leave the documents alone. -/
private lemma LeftRunning.congr (h : s'.LeftRunning ref c) (hdocs : s'.docs = s.docs) :
    s.LeftRunning ref c := by
  unfold LeftRunning at h ⊢
  rwa [← hdocs]

section

variable (hsound : Sound s) (hserved : s.served ev) (hstep : s.step ev = some s')

include hserved hstep

/-- What a step does to the writes: it asks for new ones, or changes one that is there. -/
private lemma step_calls :
    (∃ asked, s'.calls = s.calls ++ asked ∧ ∀ call ∈ asked, call.landed = false) ∨
    ∃ (i : ℕ) (call call' : Call), s.calls[i]? = some call ∧ s'.calls = s.calls.set i call' ∧
      call'.ref = call.ref ∧ call'.live = call.live ∧
      (call.status = .returned → call'.status = .returned) ∧
      (call'.landed = true → call.landed = true ∨ ev = .land i) := by
  have hkeep : s.calls = s.calls ++ [] ∧ ∀ call ∈ ([] : List Call), call.landed = false := by simp
  cases Takes.of_step hserved hstep with
  | drop _ hwrites | retryNext hwrites | launchFailed _ hwrites | flushNext _ hwrites =>
    exact .inl ⟨_, hwrites.calls, hwrites.unlanded⟩
  | @land i call hcall =>
    exact .inr ⟨i, call, _, hcall, rfl, rfl, rfl, id, fun _ => .inr rfl⟩
  | @returns i call _ hcall hround =>
    exact .inr ⟨i, call, _, hcall, hround.calls.trans (append_nil _), rfl, rfl, fun _ => rfl,
      .inl⟩
  | @raises env i call _ hcall hround hstatus =>
    refine .inr ⟨i, call, _, hcall, hround.calls.trans (append_nil _), rfl, rfl, ?_, .inl⟩
    rw [hstatus]
    exact fun h => nomatch h
  | _ => exact .inl ⟨[], hkeep⟩

/-- A write that carried a completion and returned stays so. -/
theorem Carried.step (h : s.Carried ref c) : s'.Carried ref c := by
  obtain ⟨i, call, hget, hcarries, hstatus⟩ := h
  rcases step_calls hserved hstep with
    ⟨asked, hcalls, -⟩ | ⟨j, d, d', hd, hcalls, href, hlive, hret, -⟩
  · exact ⟨i, call, hcalls ▸ append_some hget asked, hcarries, hstatus⟩
  · rcases eq_or_ne j i with rfl | hne
    · obtain rfl := mem_unique hget hd
      exact ⟨j, d', hcalls ▸ set_self hd d', ⟨href.trans hcarries.1, hlive ▸ hcarries.2⟩,
        hret hstatus⟩
    · exact ⟨i, call, hcalls ▸ set_other hne hget d', hcarries, hstatus⟩

/-- A write that was carried out after a step was so before, unless the step carried it out. -/
private lemma landed_before {call' : Call}
    (hget : s'.calls[i]? = some call') (hlanded : call'.landed = true) :
    ∃ call, s.calls[i]? = some call ∧ call'.ref = call.ref ∧ call'.live = call.live ∧
      (call.landed = true ∨ ev = .land i) := by
  rcases step_calls hserved hstep with ⟨asked, hcalls, hasked⟩ |
    ⟨j, d, d', hd, hcalls, href, hlive, -, hland⟩
  · rcases append_cases (hcalls ▸ hget) with hold | ⟨-, hnew⟩
    · exact ⟨call', hold, rfl, rfl, .inl hlanded⟩
    · rw [hasked call' hnew] at hlanded
      cases hlanded
  · rcases set_cases (hcalls ▸ hget) with ⟨rfl, rfl⟩ | ⟨-, hold⟩
    · exact ⟨d, hd, href, hlive, hland hlanded⟩
    · exact ⟨call', hold, rfl, rfl, .inl hlanded⟩

include hsound

/-- An entry that runs under the identity of the completion after a step ran so before, unless the
step launched it. -/
theorem leftRunning_before
    (hlaunch : ∀ spec op launched, ev = .advance ref spec op launched → c.taskkey ∉ launched)
    (h : s'.LeftRunning ref c) : s.LeftRunning ref c := by
  cases Takes.of_step hserved hstep with
  | drop _ hwrites | retryNext hwrites | launchFailed _ hwrites | flushNext _ hwrites =>
    exact h.congr hwrites.docs
  | returns _ hround | raises _ hround => exact h.congr hround.docs
  | @land i call hcall =>
    cases hdoc : s.docs.get? call.ref with
    | none =>
      refine h.congr ?_
      simp [land, hdoc]
    | some body =>
      have hdocs : (s.land i call).docs = s.docs.set call.ref
          ((markTasksFinished (call.live.map mark) call.now body).1.getD body) := by
        simp [land, hdoc]
      exact leftRunning_set hdocs hdoc (finish_inherits _ _ (hsound.tidy _ body hdoc)).2
        (by simp) h
  | @create ref' spec runId logicalDate kind now hnone hvalid =>
    obtain ⟨b, e, hb, he, hstate, hrest⟩ := h
    rcases get?_set_cases hb with ⟨rfl, rfl⟩ | ⟨-, hb⟩
    · -- nothing runs in a fresh document
      have hpending := (newRunBody_entry (validSpec_of_validateGraph hvalid) he).1
      rw [hpending] at hstate
      cases hstate
    · exact ⟨b, e, hb, he, hstate, hrest⟩
  | @advance ref' spec op body hdoc hvalid =>
    refine leftRunning_set rfl hdoc (Op.running_of_apply (validSpec_of_validateGraph hvalid) op
      (hsound.tidy _ body hdoc)).2 ?_ h
    rintro rfl intent hmem hkey
    exact hlaunch spec op _ rfl (hkey ▸ mem_map_of_mem hmem)
  | _ => exact h.congr rfl

/-- Once a write that carries the completion was carried out, its entry does not run under the
identity of the completion. -/
def Shut (s : Node) (ref : RunRef) (c : Completion) : Prop :=
  ∀ (i : ℕ) (call : Call), s.calls[i]? = some call → call.Carries ref c → call.landed = true →
    ¬ s.LeftRunning ref c

/-- The fences of a completion stay closed until its entry is launched anew. -/
theorem Shut.step (h : s.Shut ref c)
    (hlaunch : ∀ spec op launched, ev = .advance ref spec op launched → c.taskkey ∉ launched) :
    s'.Shut ref c := by
  rintro i call' hget ⟨rfl, hcopy⟩ hlanded hleft
  obtain ⟨call, hcall, href, hlive, hland⟩ := landed_before hserved hstep hget hlanded
  rcases hland with hland | rfl
  · exact h i call hcall ⟨href.symm, hlive ▸ hcopy⟩ hland
      (leftRunning_before hsound hserved hstep hlaunch hleft)
  · -- the step carries the write out: the completion is applied, or did not fit
    cases Takes.of_step hserved hstep with
    | land hcall' =>
      obtain rfl := mem_unique hcall hcall'
      obtain ⟨l, hl, hcopy⟩ := hlive ▸ hcopy
      obtain ⟨body, e, hbody, he, hstate, hproc, hattempt, hpoke⟩ := hleft
      rw [href] at hbody
      cases hdoc : s.docs.get? call.ref with
      | none => simp [land, hdoc] at hbody
      | some old =>
        have hclosed := closed_finish { name := "", tasks := [] }
          (mem_map_of_mem (f := mark) hl) (by simp [mark]) call.now old
        simp only [land, hdoc, get?_set_self, Option.some.injEq] at hbody
        obtain rfl := hbody
        have hfields : l.entry.taskkey = c.taskkey ∧ l.entry.proc = c.proc ∧
            l.entry.attempt = c.attempt ∧ l.entry.poke = c.poke := by
          have := congrArg (fun d : Completion => (d.taskkey, d.proc, d.attempt, d.poke)) hcopy
          simpa [queued] using this
        have hkey : l.mark.taskkey = c.taskkey := hfields.1
        refine hclosed e (by rw [hkey]; exact he) ⟨hstate, ?_, ?_, ?_⟩
        · simp [mark, hfields.2.1, hproc]
        · simp [mark, hfields.2.2.1, hattempt]
        · simpa [mark, hfields.2.2.2] using hpoke

omit hsound in
/-- Reloads alone change the configuration. -/
private lemma dags_step : s'.dags = s.dags ∨ ev = .reload s'.dags := by
  cases Takes.of_step hserved hstep with
  | reload => exact .inr rfl
  | drop _ hwrites | retryNext hwrites | launchFailed _ hwrites | flushNext _ hwrites =>
    exact .inl hwrites.dags
  | returns _ hround | raises _ hround => exact .inl hround.dags
  | _ => exact .inl rfl

end

/-- A node that just started is sound. -/
private lemma Sound.boot {backend : Bool} {docs : Dict RunRef RunBody}
    (hdocs : ∀ ref body, docs.get? ref = some body →
      ∃ spec, validateGraph spec = .ok () ∧ Reachable spec body) :
    Sound { dags, backend, docs } := by
  refine ⟨by simp, by simp, ?_, by simp, by simp, by simp, by simp⟩
  intro ref body hget
  obtain ⟨spec, hvalid, hreach⟩ := hdocs ref body hget
  exact hreach.tidy (validSpec_of_validateGraph hvalid)

/-- A completion that was just handed over is buffered, and no write carries it. -/
private lemma handed (hsound : Sound s) (hconf : Configured s.dags ref c)
    (hstep : s.step (.hand ref c) = some s') :
    s'.Owed ref c ∧ s'.Shut ref c ∧ s'.dags = s.dags := by
  cases Takes.of_step (s := s) rfl hstep with
  | drop _ _ hdag => exact absurd hconf (not_configured hdag c)
  | hand hjob =>
    refine ⟨.buffered (get?_set_self _ _ _) (by simp), ?_, rfl⟩
    rintro i call hget ⟨-, l, hl, hcopy⟩
    have hlt := hsound.called i call hget l hl
    have heq := congrArg (fun d : Completion => d.job) hcopy
    simp only [queued] at heq
    omega

end Node

open Node

/-- No completion is lost while nothing stands in its way. A node starts on any store and takes any
steps, each with the store it needs and nothing in the queue but what it handles. From the moment at
which a completion of a configured DAG and task is handed over, for as long as both stay configured,
the node owes it, queued as it is if it is queued, or a write that carried it has returned. And as
long as its entry runs under its token, attempt and poke and was not launched anew, the node owes
it. -/
theorem completion_owed {dags : Dict String DagSpec} {backend : Bool} {docs : Dict RunRef RunBody}
    (hdocs : ∀ ref body, docs.get? ref = some body →
      ∃ spec, validateGraph spec = .ok () ∧ Reachable spec body)
    {pre post : List Event} {s s' t : Node} {ref : RunRef} {c : Completion}
    (hpre : Run ClearStep { dags, backend, docs } pre s)
    (hhand : ClearStep s (.hand ref c) s') (hpost : Run ClearStep s' post t)
    (hconf : Configured s.dags ref c)
    (hreload : ∀ dags, .reload dags ∈ post → Configured dags ref c) :
    (t.Owed ref c ∨ t.Carried ref c) ∧
      ((∀ spec op launched, .advance ref spec op launched ∈ post → c.taskkey ∉ launched) →
        t.LeftRunning ref c → t.Owed ref c) := by
  have hsound : Sound s :=
    hpre.invariant (fun s ev s' h hstep => h.step hstep.2.1 hstep.1) (Sound.boot hdocs)
  obtain ⟨howed, hshut, hdags⟩ := handed hsound hconf hhand.1
  have hsound' := hsound.step hhand.2.1 hhand.1
  -- the place of the completion
  have hplace : Sound t ∧ Configured t.dags ref c ∧ (t.Owed ref c ∨ t.Carried ref c) := by
    refine hpost.history
      (P := fun t _ => Sound t ∧ Configured t.dags ref c ∧ (t.Owed ref c ∨ t.Carried ref c))
      ⟨hsound', hdags ▸ hconf, .inl howed⟩ ?_
    rintro u - ev u' hev ⟨hu, hconfu, hplaceu⟩ ⟨hstep, hclear⟩
    refine ⟨hu.step hclear.1 hstep, ?_, ?_⟩
    · rcases dags_step hclear.1 hstep with heq | rfl
      · exact heq ▸ hconfu
      · exact hreload _ hev
    · rcases hplaceu with howedu | hcarried
      · exact howedu.step hu hconfu hstep hclear
      · exact .inr (hcarried.step hclear.1 hstep)
  refine ⟨hplace.2.2, fun hlaunch hleft => ?_⟩
  -- the fences of what was carried out stay closed
  have hclosed : Sound t ∧ t.Shut ref c := by
    refine hpost.history (P := fun t _ => Sound t ∧ t.Shut ref c) ⟨hsound', hshut⟩ ?_
    rintro u - ev u' hev ⟨hu, hshutu⟩ ⟨hstep, hserved, -⟩
    exact ⟨hu.step hserved hstep, hshutu.step hu hserved hstep fun spec op launched heq =>
      hlaunch spec op launched (heq ▸ hev)⟩
  refine hplace.2.2.resolve_right ?_
  rintro ⟨i, call, hget, hcarries, hstatus⟩
  exact hclosed.2 i call hget hcarries (hclosed.1.landed i call hget hstatus) hleft

/-! ## A completion of a later poke -/

/-- The run of the sensor. -/
def watchRef : RunRef := ("watch", "k")

/-- A node with one sensor, before its first run. -/
def watchNode : Node :=
  { dags := Dict.ofList [("watch", sensorSpec)], backend := true, docs := .empty }

/-- The completion of a poke that did not succeed. -/
def pokeDone (n job : ℕ) : Completion :=
  { taskkey := "s", taskId := "s", success := false, proc := "p", attempt := 0, poke := some n
    job }

/-- The clock shows `now`. -/
def clock (now : Time) : Env := { now, jitter := fun _ => 0 }

/-- The first poke is launched. -/
def firstPokeLaunched : List Event :=
  [.create watchRef sensorSpec "r" none "cron" 0,
    .advance watchRef sensorSpec (.plan 1 "p" "h" .empty) ["s"]]

/-- The write of its completion raises. -/
def firstPokeRaised : List Event :=
  [.flush, .flushNext (clock 2), .raises (clock 2) 0, .flushNext (clock 2)]

/-- The write is carried out after all, and the second poke is launched. Meanwhile the service pass
tries the first one again. -/
def secondPokeLaunched : List Event :=
  [.land 0, .advance watchRef sensorSpec (.plan 100 "p" "h" .empty) ["s"], .retry 100,
    .retryNext (clock 100)]

/-- The write of the second poke raises too, and its completion takes the place of the first in the
queue. Then the retry of the first poke comes back and empties the place. -/
def firstPokeSettled : List Event :=
  [.flush, .flushNext (clock 101), .raises (clock 102) 2, .flushNext (clock 102), .land 1,
    .returns 1]

/-- Where completions can be, and the entry of the sensor. -/
private structure Summary where
  buffered : List RunRef
  flushed : Bool
  queued : List (RunRef × String)
  calls : List (Status × List (Option ℕ))
  entry : Option (Option (TaskState × Option String × ℕ × ℕ))
  deriving DecidableEq

private def Node.summary (s : Node) : Summary where
  buffered := s.buffer.keys
  flushed := s.flush.isNone
  queued := s.pending.keys
  calls := s.calls.map fun call => (call.status, call.live.map (·.entry.poke))
  entry := (s.docs.get? watchRef).map fun body =>
    (body.tasks.get? "s").map fun e => (e.state, e.proc, e.attempt, e.poke)

/-- What a summary shows of the entry. -/
private lemma leftRunning_of_summary {t : Node} {n : ℕ} (job : ℕ)
    (h : t.summary.entry = some (some (.running, some "p", 0, n))) :
    t.LeftRunning watchRef (pokeDone n job) := by
  obtain ⟨body, hbody, hentry⟩ := map_eq_some_iff.mp h
  obtain ⟨e, he, hfields⟩ := map_eq_some_iff.mp hentry
  simp only [Prod.mk.injEq] at hfields
  obtain ⟨hstate, hproc, hattempt, hpoke⟩ := hfields
  refine ⟨body, e, hbody, he, hstate, hproc, hattempt, fun m hm => ?_⟩
  cases hm
  exact hpoke

/-- What a summary shows of a write. -/
private lemma carries_of_summary {t : Node} {n job : ℕ} (hget : t.calls[i]? = some call)
    (h : call.Carries watchRef (pokeDone n job)) :
    ∃ x ∈ t.summary.calls, x.1 = call.status ∧ some n ∈ x.2 := by
  obtain ⟨-, l, hl, hcopy⟩ := h
  refine ⟨_, mem_map_of_mem (mem_of_getElem? hget), rfl, ?_⟩
  have hpoke : l.entry.poke = some n := by
    have := congrArg (fun d : Completion => d.poke) hcopy
    simpa [queued, pokeDone] using this
  exact hpoke ▸ mem_map_of_mem (f := fun l : Live => l.entry.poke) hl

/-- A step that handles at most one completion, whose place in the queue is empty. -/
private def clearStep? (s : Node) (ev : Event) : Option Node :=
  if s.served ev ∧ (s.handles ev).length ≤ 1 ∧
      (s.handles ev).all fun x => (s.pending.get? (x.1, x.2.taskkey)).isNone then s.step ev
  else none

private lemma clearStep_of_some {s s' : Node} {ev : Event} (h : clearStep? s ev = some s') :
    ClearStep s ev s' := by
  obtain ⟨⟨hserved, hlen, hempty⟩, hstep⟩ := ite_none_right_eq_some.mp h
  refine ⟨hstep, hserved, fun x hx => ⟨fun p hp => ?_, fun y hy _ => ?_⟩⟩
  · have := all_eq_true.mp hempty x hx
    rw [hp] at this
    cases this
  · match hhandles : s.handles ev with
    | [] => simp [hhandles] at hx
    | [z] =>
      rw [hhandles] at hx hy
      rw [mem_singleton.mp hx, mem_singleton.mp hy]
    | _ :: _ :: _ => simp [hhandles] at hlen

/-- The write of the first poke raised: its entry is left running, and the completion is owed. -/
theorem completion_owed_raised :
    ∃ s s' t,
      Run ClearStep watchNode firstPokeLaunched s ∧
      ClearStep s (.hand watchRef (pokeDone 0 0)) s' ∧ Run ClearStep s' firstPokeRaised t ∧
      t.LeftRunning watchRef (pokeDone 0 0) ∧ t.Owed watchRef (pokeDone 0 0) := by
  have hrun : ((firstPokeLaunched.foldlM clearStep? watchNode).bind fun s =>
      (clearStep? s (.hand watchRef (pokeDone 0 0))).bind fun s' =>
        (firstPokeRaised.foldlM clearStep? s').map fun t =>
          (((s.dags.get? "watch").map fun spec => spec.byId.contains "s"), t.summary)) =
      some (some true,
        { buffered := [], flushed := true, queued := [(watchRef, "s")]
          calls := [(.raised, [some 0])], entry := some (some (.running, some "p", 0, 0)) }) := by
    decide +kernel
  obtain ⟨s, hs, hrest⟩ := bind_eq_some_iff.mp hrun
  obtain ⟨s', hs', hrest⟩ := bind_eq_some_iff.mp hrest
  obtain ⟨t, ht, hshow⟩ := map_eq_some_iff.mp hrest
  obtain ⟨hconf, hsummary⟩ := Prod.mk.inj hshow
  obtain ⟨spec, hspec, htask⟩ := map_eq_some_iff.mp hconf
  have hpre : Run ClearStep watchNode firstPokeLaunched s :=
    (Run.of_foldlM hs).mono fun _ _ _ => clearStep_of_some
  have hpost : Run ClearStep s' firstPokeRaised t :=
    (Run.of_foldlM ht).mono fun _ _ _ => clearStep_of_some
  have hleft := leftRunning_of_summary 0 (congrArg Summary.entry hsummary)
  refine ⟨s, s', t, hpre, clearStep_of_some hs', hpost, hleft, ?_⟩
  exact (completion_owed (by simp) hpre (clearStep_of_some hs') hpost ⟨spec, hspec, htask⟩
    (by simp [firstPokeRaised])).2 (by simp [firstPokeRaised]) hleft

/-- The second poke ran and was handed over, its entry is still running under it, and nothing is
left to record it. -/
theorem later_poke_lost :
    ∃ s s' t,
      Run (fun s ev s' => s.step ev = some s') watchNode
        (firstPokeLaunched ++ .hand watchRef (pokeDone 0 0) :: firstPokeRaised ++
          secondPokeLaunched) s ∧
      s.step (.hand watchRef (pokeDone 1 1)) = some s' ∧
      Run (fun s ev s' => s.step ev = some s') s' firstPokeSettled t ∧
      Configured s.dags watchRef (pokeDone 1 1) ∧
      t.LeftRunning watchRef (pokeDone 1 1) ∧ ¬ t.Owed watchRef (pokeDone 1 1) ∧
      ¬ t.Carried watchRef (pokeDone 1 1) := by
  have hrun : (((firstPokeLaunched ++ .hand watchRef (pokeDone 0 0) :: firstPokeRaised ++
      secondPokeLaunched).foldlM Node.step watchNode).bind fun s =>
      (s.step (.hand watchRef (pokeDone 1 1))).bind fun s' =>
        (firstPokeSettled.foldlM Node.step s').map fun t =>
          (((s.dags.get? "watch").map fun spec => spec.byId.contains "s"), t.summary)) =
      some (some true,
        { buffered := [], flushed := true, queued := []
          calls := [(.raised, [some 0]), (.returned, [some 0]), (.raised, [some 1])]
          entry := some (some (.running, some "p", 0, 1)) }) := by
    decide +kernel
  obtain ⟨s, hs, hrest⟩ := bind_eq_some_iff.mp hrun
  obtain ⟨s', hs', hrest⟩ := bind_eq_some_iff.mp hrest
  obtain ⟨t, ht, hshow⟩ := map_eq_some_iff.mp hrest
  obtain ⟨hconf, hsummary⟩ := Prod.mk.inj hshow
  have hcalls : ∀ (i : ℕ) (call : Call), t.calls[i]? = some call →
      call.Carries watchRef (pokeDone 1 1) → call.status = .raised := by
    intro i call hget hcarries
    have hraised : ∀ x ∈ [(Status.raised, [some 0]), (.returned, [some 0]), (.raised, [some 1])],
        some 1 ∈ x.2 → x.1 = .raised := by decide
    obtain ⟨x, hx, hstatus, hmem⟩ := carries_of_summary hget hcarries
    rw [hsummary] at hx
    exact hstatus ▸ hraised x hx hmem
  refine ⟨s, s', t, .of_foldlM hs, hs', .of_foldlM ht, ?_,
    leftRunning_of_summary 1 (congrArg Summary.entry hsummary), ?_, ?_⟩
  · obtain ⟨spec, hspec, htask⟩ := map_eq_some_iff.mp hconf
    exact ⟨spec, hspec, htask⟩
  · intro howed
    cases howed with
    | buffered hget =>
      have : t.buffer.keys = [] := congrArg Summary.buffered hsummary
      have hmem := mem_keys_iff.mpr ⟨_, hget⟩
      rw [this] at hmem
      cases hmem
    | taken hflush =>
      have : t.flush.isNone = true := congrArg Summary.flushed hsummary
      rw [hflush] at this
      cases this
    | queued hget =>
      have : t.pending.keys = [] := congrArg Summary.queued hsummary
      have hmem := mem_keys_iff.mpr ⟨_, hget⟩
      rw [this] at hmem
      cases hmem
    | awaited hget hcarries hstatus =>
      rw [hcalls _ _ hget hcarries] at hstatus
      cases hstatus
  · rintro ⟨i, call, hget, hcarries, hstatus⟩
    rw [hcalls i call hget hcarries] at hstatus
    cases hstatus

end Cronstable.Dag.Completions

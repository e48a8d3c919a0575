import Cronstable.Dag.Graph
import Cronstable.Dag.Transforms
import Cronstable.Lib.Trace

/-!
# What a transform can do to a run document

Every transform is a run of small steps, each of which rewrites one entry, fills one hole, recovers
the crashed entries, or leaves entries and fan-outs alone (`BodyStep`). `EntryStep` lists the
rewrites of an entry with the guards under which the source makes them, and each step is labelled
with what it adds to the result of its transform: a launch, an ended entry, an applied completion,
or nothing. The recording of
a fan-out is the one change that is not a step here; it happens before the walks and has a
description of its own.

## Main results

* `walkTask_touches`, `settleTask_touches`: advancing one task is a run of steps on its own keys;
* `Op.apply_run`: every transform is an application of expansions followed by a run of steps.
-/

namespace Cronstable.Dag

open List

open Trace (Run)

/-! ## Keys -/

variable {a b : String}

/-- The separator makes instance keys readable: two equal ones name the same task and index. -/
theorem instanceKey_inj (ha : '#' ∉ a.toList) (hb : '#' ∉ b.toList) {i j : ℕ}
    (h : instanceKey a i = instanceKey b j) : a = b ∧ i = j := by
  have hlist := congrArg String.toList h
  simp only [instanceKey, String.toList_append] at hlist
  have hsep : "#".toList = ['#'] := rfl
  rw [hsep, append_assoc, append_assoc,
    singleton_append] at hlist
  obtain ⟨hpre, htail⟩ := PyText.append_sep_inj ha hb hlist
  exact ⟨String.toList_inj.mp hpre, PyText.toString_nat_inj (String.toList_inj.mp htail)⟩

/-- An instance key is not a task id. -/
theorem instanceKey_ne (hb : '#' ∉ b.toList) (i : ℕ) : instanceKey a i ≠ b := by
  rintro rfl
  exact hb (by simp [instanceKey])

variable {key : String}

/-- A key belongs to one task. -/
theorem Owns.id_eq (ha : '#' ∉ a.toList) (hb : '#' ∉ b.toList) (h : Owns a key) (h' : Owns b key) :
    a = b := by
  rcases h with rfl | ⟨i, rfl⟩ <;> rcases h' with heq | ⟨j, heq⟩
  · exact heq
  · exact absurd heq.symm (instanceKey_ne ha j)
  · exact absurd heq (instanceKey_ne hb i)
  · exact (instanceKey_inj ha hb heq).1

/-! ## Steps -/

/-- What a step adds to the result of its transform. -/
inductive Event
  | launch (intent : LaunchIntent)
  | ended
  /-- A step of an advance pass that its result does not count. -/
  | quiet
  | finished (m : CompletionMark)
  /-- A step that no advance pass makes, other than a completion. -/
  | external

/-- The launches of a step. -/
def Event.launches : Event → List LaunchIntent
  | .launch intent => [intent]
  | _ => []

/-- How many entries a step ends, as the pass counts them. -/
def Event.endings : Event → ℕ
  | .ended => 1
  | _ => 0

/-- The completions a step applies. -/
def Event.completions : Event → List CompletionMark
  | .finished m => [m]
  | _ => []

variable {ev : Event}

lemma Event.mem_launches {intent : LaunchIntent} :
    intent ∈ ev.launches ↔ ev = .launch intent := by
  cases ev <;> simp [launches, eq_comm]

lemma Event.mem_completions {m : CompletionMark} : m ∈ ev.completions ↔ ev = .finished m := by
  cases ev <;> simp [completions, eq_comm]

/-- The steps an advance pass makes. -/
def Event.inPass : Event → Bool
  | .launch _ | .ended | .quiet => true
  | _ => false

@[simp]
lemma Event.external_results : external.launches = [] ∧ external.completions = [] := ⟨rfl, rfl⟩

/-- An advance pass applies no completion. -/
theorem Event.completions_of_inPass (h : ev.inPass = true) : ev.completions = [] := by
  cases ev with
  | finished => cases h
  | _ => rfl

/-- When an entry may be claimed: its upstreams are ready, or it waits for its next attempt. -/
def Claimable (spec : DagSpec) (body : RunBody) (task : TaskSpec) (e : TaskEntry) : Prop :=
  (e.state = .pending ∧ depsVerdict spec body task = .ready) ∨ e.state = .upForRetry

/-- The rewrites of the entry at `key`. -/
inductive EntryStep (spec : DagSpec) (body : RunBody) (key : String) (e : TaskEntry) :
    Event → TaskEntry → Prop
  /-- A walk ends the entry, which is not in flight, without it having succeeded. -/
  | settle (task : TaskSpec) (state : TaskState) (reason : Option String) (now : Time)
      (hmem : task ∈ spec.tasks) (hown : Owns task.id key) (hlive : e.state.inert = false)
      (hidle : e.state = .running → e.proc = none)
      (hterm : state.terminal = true) (hne : state ≠ .success) :
      EntryStep spec body key e .ended
        (terminaliseTask { e with failReason := reason } state now)
  | park (task : TaskSpec) (inst : Instance) (now : Time) (hmem : task ∈ spec.tasks)
      (hinst : inst ∈ instancesOf body task) (hkey : inst.key = key)
      (htype : task.type = .approval) (hclaim : Claimable spec body task e) :
      EntryStep spec body key e .quiet (parkedEntry e now)
  | claim (task : TaskSpec) (inst : Instance) (now : Time) (proc host : String)
      (hmem : task ∈ spec.tasks) (hinst : inst ∈ instancesOf body task) (hkey : inst.key = key)
      (htype : task.type ≠ .approval) (hclaim : Claimable spec body task e) :
      EntryStep spec body key e
        (.launch
          { taskId := task.id, taskkey := inst.key, mapIndex := inst.mapIndex
            mapItem := inst.item, attempt := e.attempt
            isSensor := decide (task.type = .sensor), pokeNumber := 0 })
        (claimedEntry task e now proc host)
  | poke (task : TaskSpec) (inst : Instance) (now : Time) (proc host : String)
      (hmem : task ∈ spec.tasks) (hinst : inst ∈ instancesOf body task) (hkey : inst.key = key)
      (htype : task.type = .sensor) (hstate : e.state = .running) (hproc : e.proc = none)
      (hpid : e.pid = none) :
      EntryStep spec body key e
        (.launch
          { taskId := task.id, taskkey := inst.key, mapIndex := inst.mapIndex
            mapItem := inst.item, attempt := e.attempt, isSensor := true
            pokeNumber := e.poke })
        (pokedEntry e now proc host)
  | pid (now : Time) (w : PidWrite) {e' : TaskEntry} (h : writePid now w e = some e') :
      EntryStep spec body key e .external e'
  | release (now : Time) (c : LostClaim) {e' : TaskEntry}
      (h : releaseClaim spec now c e = some e') : EntryStep spec body key e .external e'
  | finish (now : Time) (m : CompletionMark) {e' : TaskEntry} (hkey : m.taskkey = key)
      (h : finishEntry now m e = some e') : EntryStep spec body key e (.finished m) e'
  | decided (approved : Bool) (decidedBy : String) (now : Time) (onReject : TaskState)
      (hstate : e.state = .running) (hwait : e.awaitingApproval = true) :
      EntryStep spec body key e .external (decideEntry approved decidedBy now onReject e)
  | recover (now : Time) (proc host : String) (isPidAlive : ℤ → Bool)
      (h : crashed proc host isPidAlive e = true) :
      EntryStep spec body key e .external (reconcileOne (e.id.bind spec.byId.get?) now e)

/-- The steps of a document. -/
inductive BodyStep (spec : DagSpec) (body : RunBody) : Event → RunBody → Prop
  | entry {key : String} {e e' : TaskEntry} {ev : Event} (hget : body.tasks.get? key = some e)
      (h : EntryStep spec body key e ev e') : BodyStep spec body ev (body.setEntry key e')
  /-- A recorded index without an entry is materialised as failed. -/
  | hole {task : TaskSpec} {record : MapRecord} {i : ℕ} {item : Json} (now : Time)
      (hmem : task ∈ spec.tasks) (hrecord : body.mapped.get? task.id = some (some record))
      (hitem : record.items[i]? = some item)
      (hget : body.tasks.get? (instanceKey task.id i) = none) :
      BodyStep spec body .ended
        (body.setEntry (instanceKey task.id i) (missingEntry task i (some item) now))
  /-- The crashed entries are recovered together. -/
  | recover (now : Time) (proc host : String) (isPidAlive : ℤ → Bool) :
      BodyStep spec body .external (reconcileEntries spec now proc host isPidAlive body).1
  /-- The state of the run or its time stamp is written. -/
  | stamp {body' : RunBody} (htasks : body'.tasks = body.tasks)
      (hmapped : body'.mapped = body.mapped) : BodyStep spec body .external body'

/-- No step records a fan-out. -/
theorem BodyStep.mapped_eq {spec : DagSpec} {body body' : RunBody}
    (h : BodyStep spec body ev body') : body'.mapped = body.mapped := by
  cases h with
  | entry => rfl
  | hole => rfl
  | recover => rfl
  | stamp _ hmapped => exact hmapped

/-- What a step does to the entry at one key: nothing, one rewrite, or the filling of a hole. -/
theorem BodyStep.get?_cases {spec : DagSpec} {body body' : RunBody}
    (h : BodyStep spec body ev body') (key : String) :
    body'.tasks.get? key = body.tasks.get? key ∨
    (∃ e e', body.tasks.get? key = some e ∧ body'.tasks.get? key = some e' ∧
      EntryStep spec body key e ev e') ∨
    ∃ task record i item now, task ∈ spec.tasks ∧
      body.mapped.get? task.id = some (some record) ∧ record.items[i]? = some item ∧
      key = instanceKey task.id i ∧ body.tasks.get? key = none ∧
      body'.tasks.get? key = some (missingEntry task i (some item) now) := by
  cases h with
  | @entry k e e' _ hget hstep =>
    by_cases hk : key = k
    · subst hk
      exact .inr (.inl ⟨e, e', hget, by simp, hstep⟩)
    · exact .inl (by simp [hk])
  | @hole task record i item now hmem hrecord hitem hget =>
    by_cases hk : key = instanceKey task.id i
    · refine .inr (.inr ⟨task, record, i, item, now, hmem, hrecord, hitem, hk, ?_, ?_⟩)
      · rw [hk, hget]
      · simp [hk]
    · exact .inl (by simp [hk])
  | recover now proc host alive =>
    cases hget : body.tasks.get? key with
    | none => exact .inl (by simp [reconcileEntries, hget])
    | some e =>
      cases hcrash : crashed proc host alive e with
      | false => exact .inl (by simp [reconcileEntries, reconcileEntry, hget, hcrash])
      | true =>
        refine .inr (.inl ⟨e, _, rfl, ?_, .recover now proc host alive hcrash⟩)
        simp [reconcileEntries, reconcileEntry, hget, hcrash]
  | stamp htasks _ => exact .inl (by rw [htasks])

/-! ## Passes as runs -/

/-- One pass continues another by a run of steps, its result by what the steps add. -/
structure PassRun (spec : DagSpec) (p : Pass) (events : List Event) (q : Pass) : Prop where
  run : Run (BodyStep spec) p.body events q.body
  inPass : ∀ ev ∈ events, ev.inPass = true
  launches : q.result.launches = p.result.launches ++ events.flatMap Event.launches
  ended : q.result.ended = p.result.ended + (events.map Event.endings).sum
  /-- A pass that does not report a change made no step. -/
  changed : q.result.changed = false → p.result.changed = false ∧ events = []
  /-- A pass defers only what exceeds its launches. -/
  deferred : q.result.deferred = true → p.result.deferred = true ∨ q.result.launches ≠ []

/-- One pass continues another. -/
def Advances (spec : DagSpec) (p q : Pass) : Prop := ∃ events, PassRun spec p events q

variable {p q : Pass}

namespace Advances

variable {spec : DagSpec}

/-- A pass that left the document and what it reports alone. It may note a deferral once its
launches are spent. -/
theorem of_eq (hbody : q.body = p.body) (hlaunches : q.result.launches = p.result.launches)
    (hended : q.result.ended = p.result.ended) (hchanged : q.result.changed = p.result.changed)
    (hdeferred : q.result.deferred = true →
      p.result.deferred = true ∨ q.result.launches ≠ []) : Advances spec p q :=
  ⟨[], hbody ▸ .nil _, by simp, by simp [hlaunches], by simp [hended],
    fun h => ⟨hchanged ▸ h, rfl⟩, hdeferred⟩

lemma refl (p : Pass) : Advances spec p p := of_eq rfl rfl rfl rfl .inl

lemma trans {r : Pass} (h : Advances spec p q) (h' : Advances spec q r) : Advances spec p r := by
  obtain ⟨es, h⟩ := h
  obtain ⟨es', h'⟩ := h'
  refine ⟨es ++ es', h.run.append h'.run, ?_, ?_, ?_, ?_, ?_⟩
  · intro ev hev
    exact (mem_append.mp hev).elim (h.inPass ev) (h'.inPass ev)
  · rw [h'.launches, h.launches, flatMap_append, append_assoc]
  · rw [h'.ended, h.ended, map_append, sum_append, Nat.add_assoc]
  · intro hr
    obtain ⟨hq, rfl⟩ := h'.changed hr
    obtain ⟨hp, rfl⟩ := h.changed hq
    exact ⟨hp, rfl⟩
  · intro hr
    rcases h'.deferred hr with hq | hne
    · refine (h.deferred hq).imp_right fun hne => ?_
      rw [h'.launches]
      exact append_ne_nil_of_left_ne_nil hne _
    · exact .inr hne

lemma of_step (h : BodyStep spec p.body ev q.body) (hpass : ev.inPass = true)
    (hl : q.result.launches = p.result.launches ++ ev.launches)
    (he : q.result.ended = p.result.ended + ev.endings) (hc : q.result.changed = true)
    (hd : q.result.deferred = p.result.deferred) : Advances spec p q :=
  ⟨[ev], .single h, by simpa using hpass, by simp [hl], by simp [he],
    fun hq => by simp [hc] at hq, fun hq => .inl (hd ▸ hq)⟩

/-- A loop of passes is a pass. -/
theorem foldl {α : Type} {f : Pass → α → Pass} {l : List α}
    (h : ∀ p, ∀ a ∈ l, Advances spec p (f p a)) (p : Pass) : Advances spec p (l.foldl f p) :=
  List.foldlRecOn l f (refl p) fun q hq a ha => hq.trans (h q a ha)

/-- A pass that does not report a change left the document alone. -/
theorem eq_of_unchanged (h : Advances spec p q) (hq : q.result.changed = false) :
    q.body = p.body := by
  obtain ⟨events, h⟩ := h
  obtain ⟨-, rfl⟩ := h.changed hq
  exact h.run.eq_of_nil

lemma mapped_eq (h : Advances spec p q) : q.body.mapped = p.body.mapped := by
  obtain ⟨events, h⟩ := h
  exact h.run.invariant (P := fun b => b.mapped = p.body.mapped)
    (fun b ev b' hb hstep => hstep.mapped_eq.trans hb) rfl

end Advances

/-- Advancing one task: a run of steps that touches the keys of this task alone. -/
structure Touches (spec : DagSpec) (task : TaskSpec) (p q : Pass) : Prop where
  advances : Advances spec p q
  frame : ∀ key, ¬ Owns task.id key → q.body.tasks.get? key = p.body.tasks.get? key

namespace Touches

variable {spec : DagSpec} {task : TaskSpec}

lemma refl (p : Pass) : Touches spec task p p := ⟨.refl p, fun _ _ => rfl⟩

lemma trans {r : Pass} (h : Touches spec task p q) (h' : Touches spec task q r) :
    Touches spec task p r :=
  ⟨h.advances.trans h'.advances, fun key hk => (h'.frame key hk).trans (h.frame key hk)⟩

/-- Writing one entry of the task. -/
theorem of_entry {e e' : TaskEntry} {r : AdvanceResult} (hown : Owns task.id key)
    (hget : p.body.tasks.get? key = some e) (hstep : EntryStep spec p.body key e ev e')
    (hpass : ev.inPass = true) (hl : r.launches = p.result.launches ++ ev.launches)
    (he : r.ended = p.result.ended + ev.endings) (hc : r.changed = true)
    (hd : r.deferred = p.result.deferred) :
    Touches spec task p { body := p.body.setEntry key e', result := r } := by
  refine ⟨.of_step (.entry hget hstep) hpass hl he hc hd, fun k hk => ?_⟩
  have hne : k ≠ key := fun heq => hk (heq ▸ hown)
  simp [hne]

/-- Ending one entry of the task without a success. -/
theorem endTask {e : TaskEntry} {state : TaskState} (reason : Option String) (now : Time)
    (hmem : task ∈ spec.tasks) (hown : Owns task.id key) (hget : p.body.tasks.get? key = some e)
    (hlive : e.state.inert = false) (hidle : e.state = .running → e.proc = none)
    (hterm : state.terminal = true) (hne : state ≠ .success) :
    Touches spec task p (p.endTask key { e with failReason := reason } state now) :=
  of_entry hown hget (.settle task state reason now hmem hown hlive hidle hterm hne) rfl
    (by simp [AdvanceResult.noteEnded, Event.launches])
    (by simp [AdvanceResult.noteEnded, Event.endings]) rfl rfl

/-- The verdict of a task does not depend on its own entries. -/
theorem depsVerdict_eq (hspec : ValidSpec spec) (hmem : task ∈ spec.tasks)
    (h : Touches spec task p q) : depsVerdict spec q.body task = depsVerdict spec p.body task := by
  refine depsVerdict_congr (fun dep _ => by rw [h.advances.mapped_eq]) fun dep hdep key hkey => ?_
  have hother : ¬ Owns task.id key := by
    intro hown
    obtain ⟨u, hu, rfl⟩ := hspec.known task hmem dep hdep
    exact hspec.dep_ne hmem hdep
      (hkey.id_eq (hspec.no_hash u hu) (hspec.no_hash task hmem) hown)
  rw [RunBody.stateAt, RunBody.stateAt, h.frame key hother]

end Touches

end Cronstable.Dag

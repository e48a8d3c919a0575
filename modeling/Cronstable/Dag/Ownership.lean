import Cronstable.Dag.Fence

/-!
# Who runs an entry

A subprocess runs an entry when the entry is running under a proc token. Only a launch makes an
entry so: every other write to a run document clears the token, ends the entry, or keeps the
identity it runs under. So whoever sees an entry run under its own token either launched it since,
or saw it run so all along.

## Main results

* `EntryStep.running_of`: what runs under a token after a step was launched by it, or ran before;
* `Op.running_of_apply`: the same for a whole transform;
* `closed_finish`: after a batch of completions none of its fences is open.
-/

namespace Cronstable.Dag

open List Option

open Trace (Run)

variable {spec : DagSpec} {body body' : RunBody}

/-- An entry that waits to be claimed has no owner. -/
def TaskEntry.Unclaimed (e : TaskEntry) : Prop :=
  e.state = .pending ∨ e.state = .upForRetry → e.proc = none

/-- The entries that wait to be claimed have no owner. -/
def Tidy (body : RunBody) : Prop := ∀ key e, body.tasks.get? key = some e → e.Unclaimed

/-- An entry runs under the identity under which another one does. -/
structure SameRun (e e' : TaskEntry) : Prop where
  state : e.state = .running
  proc : e.proc = e'.proc
  attempt : e.attempt = e'.attempt
  poke : e.poke = e'.poke

/-! ## Steps -/

section EntryStep

variable {key : String} {e e' : TaskEntry} {ev : Event}

/-- An entry that runs under a token after a step was launched by the step, or ran under the same
identity before. -/
theorem EntryStep.running_of (h : EntryStep spec body key e ev e') (htidy : e.Unclaimed)
    (hstate : e'.state = .running) (hproc : e'.proc ≠ none) :
    (∃ intent, ev = .launch intent ∧ intent.taskkey = key) ∨ SameRun e e' := by
  have hoff := h.offRun
  cases h with
  | settle _ state _ _ _ _ _ _ hterm =>
    -- an ended entry does not run
    have : state = .running := hstate
    simp [this, TaskState.terminal] at hterm
  | park _ _ _ _ _ _ _ hclaim =>
    -- the entry waited to be claimed, so a gate has no owner
    exact absurd (htidy (hclaim.imp_left And.left)) hproc
  | claim _ _ _ _ _ _ _ hkey | poke _ _ _ _ _ _ _ hkey => exact .inl ⟨_, rfl, hkey⟩
  | pid | release | finish | decided | recover =>
    have hoff := hoff rfl
    rcases hoff.fate with hterm | ⟨hnone, -⟩ | ⟨-, hsame, hattempt, hpoke⟩
    · rw [hstate] at hterm
      cases hterm
    · exact absurd hnone hproc
    · exact .inr ⟨hoff.running, hsame.symm, hattempt.symm, hpoke.symm⟩

/-- A step leaves no owner on an entry that waits to be claimed. -/
theorem EntryStep.unclaimed (h : EntryStep spec body key e ev e') : e'.Unclaimed := by
  intro hwaits
  have hnot : ∀ {state : TaskState}, e'.state = state → state.terminal = true ∨ state = .running →
      e'.proc = none := by
    rintro state rfl (hterm | hrun)
    · rcases hwaits with hw | hw <;> rw [hw] at hterm <;> cases hterm
    · rcases hwaits with hw | hw <;> cases hw.symm.trans hrun
  have hoff := h.offRun
  cases h with
  | settle _ state _ _ _ _ _ _ hterm => exact hnot rfl (.inl hterm)
  | park | claim => exact hnot rfl (.inr rfl)
  | poke _ _ _ _ _ _ _ _ _ hstate => exact hnot rfl (.inr hstate)
  | pid | release | finish | decided | recover =>
    rcases (hoff rfl).fate with hterm | ⟨hnone, -⟩ | ⟨hrun, -⟩
    · exact hnot rfl (.inl hterm)
    · exact hnone
    · exact hnot rfl (.inr hrun)

end EntryStep

/-- A step keeps a document tidy. -/
theorem Tidy.step {ev : Event} (h : Tidy body) (hstep : BodyStep spec body ev body') :
    Tidy body' := by
  intro key e' hget
  rcases hstep.get?_cases key with hsame | ⟨e, e'', -, hget', hentry⟩ |
    ⟨task, record, i, item, now, -, -, -, -, -, hget'⟩
  · exact h key e' (hsame ▸ hget)
  · obtain rfl := mem_unique hget hget'
    exact hentry.unclaimed
  · obtain rfl := mem_unique hget hget'
    rintro (hstate | hstate) <;> cases hstate

/-! ## Transforms -/

/-- Whatever runs under a token in `body'` was launched by one of `launches`, or ran under the same
identity in `body`. -/
def Inherits (body : RunBody) (launches : List LaunchIntent) (body' : RunBody) : Prop :=
  ∀ key e', body'.tasks.get? key = some e' → e'.state = .running → e'.proc ≠ none →
    (∃ intent ∈ launches, intent.taskkey = key) ∨
      ∃ e, body.tasks.get? key = some e ∧ SameRun e e'

namespace Inherits

/-- A document inherits from itself. -/
theorem refl (body : RunBody) : Inherits body [] body :=
  fun _ e' hget hstate _ => .inr ⟨e', hget, hstate, rfl, rfl, rfl⟩

/-- One more step. -/
theorem step {launches : List LaunchIntent} {mid : RunBody} {ev : Event}
    (h : Inherits body launches mid) (htidy : Tidy mid) (hstep : BodyStep spec mid ev body') :
    Inherits body (launches ++ ev.launches) body' := by
  intro key e' hget hstate hproc
  have hold : ∀ e, mid.tasks.get? key = some e → SameRun e e' →
      (∃ intent ∈ launches ++ ev.launches, intent.taskkey = key) ∨
        ∃ e, body.tasks.get? key = some e ∧ SameRun e e' := by
    intro e hmid hrun
    rcases h key e hmid hrun.state (hrun.proc ▸ hproc) with ⟨intent, hmem, hkey⟩ | ⟨e₀, h₀, hrun₀⟩
    · exact .inl ⟨intent, mem_append_left _ hmem, hkey⟩
    · exact .inr ⟨e₀, h₀, hrun₀.state, hrun₀.proc.trans hrun.proc,
        hrun₀.attempt.trans hrun.attempt, hrun₀.poke.trans hrun.poke⟩
  rcases hstep.get?_cases key with hsame | ⟨e, e'', hmid, hget', hentry⟩ |
    ⟨task, record, i, item, now, -, -, -, -, -, hget'⟩
  · exact hold e' (hsame ▸ hget) ⟨hstate, rfl, rfl, rfl⟩
  · obtain rfl := mem_unique hget hget'
    rcases hentry.running_of (htidy key e hmid) hstate hproc with ⟨intent, rfl, hkey⟩ | hrun
    · exact .inl ⟨intent, mem_append_right _ (Event.mem_launches.mpr rfl), hkey⟩
    · exact hold e hmid hrun
  · -- a filled hole is a failed entry
    obtain rfl := mem_unique hget hget'
    cases hstate

end Inherits

/-- The supplied lists start nothing: what they write is pending, ended or a group marker. -/
private lemma expand_entry (hspec : ValidSpec spec) (expansions : Expansions) (now : Time)
    {key : String} {e' : TaskEntry}
    (hget : (applyExpansions spec expansions now { body }).body.tasks.get? key = some e') :
    body.tasks.get? key = some e' ∨ (e'.state ≠ .running ∧ e'.Unclaimed) := by
  by_cases hown : ∃ t ∈ spec.tasks, Owns t.id key
  · obtain ⟨t, ht, hown⟩ := hown
    refine ((applyExpansions_task hspec expansions now { body } ht).entry hown hget).imp_right ?_
    intro hnew
    cases hnew with
    | failed | marked => exact ⟨by simp [terminaliseTask], by rintro (h | h) <;> cases h⟩
    | fresh => exact ⟨by simp, fun _ => rfl⟩
  · have hnone : ∀ t ∈ spec.tasks, ¬ Owns t.id key := fun t ht h => hown ⟨t, ht, h⟩
    exact .inl ((applyExpansions_frame hspec expansions now { body }).2 key hnone ▸ hget)

/-- A transform of a tidy document leaves it tidy, and whatever runs under a token afterwards was
launched by it or ran under the same identity before. -/
theorem Op.running_of_apply (hspec : ValidSpec spec) (op : Op) (htidy : Tidy body) :
    Tidy (op.apply spec body) ∧ Inherits body (op.launches spec body) (op.apply spec body) := by
  obtain ⟨start, events, hrun, hlaunches, -, hstart⟩ := op.apply_run hspec body
  have hbegin : Tidy start ∧ Inherits body [] start := by
    rcases hstart with rfl | ⟨now, -, -, expansions, -, -, rfl⟩
    · exact ⟨htidy, .refl _⟩
    · refine ⟨fun key e' hget => ?_, fun key e' hget hstate hproc => ?_⟩
      · rcases expand_entry hspec expansions now hget with h | ⟨-, h⟩
        · exact htidy key e' h
        · exact h
      · rcases expand_entry hspec expansions now hget with h | ⟨h, -⟩
        · exact .inr ⟨e', h, hstate, rfl, rfl, rfl⟩
        · exact absurd hstate h
  rw [hlaunches]
  exact hrun.history (P := fun b evs => Tidy b ∧ Inherits body (evs.flatMap Event.launches) b)
    hbegin fun b evs ev b' _ hb hstep =>
      ⟨hb.1.step hstep, by simpa [flatMap_append] using hb.2.step hb.1 hstep⟩

variable {now : Time}

/-- The entries of a fresh document wait to be claimed. -/
theorem newRunBody_entry (hspec : ValidSpec spec) {dag runKey runId : String}
    {logicalDate : Option String} {kind : String} {key : String} {e : TaskEntry}
    (hget : (newRunBody dag runKey runId logicalDate kind now spec).tasks.get? key = some e) :
    e.state = .pending ∧ e.proc = none := by
  obtain ⟨t, -, -, rfl⟩ := (WF.get?_newRunBody hspec).mp hget
  exact ⟨rfl, rfl⟩

/-- Every reachable document is tidy. -/
theorem Reachable.tidy (hspec : ValidSpec spec) (h : Reachable spec body) : Tidy body := by
  induction h with
  | fresh => exact fun key e hget _ => (newRunBody_entry hspec hget).2
  | step op _ ih => exact (op.running_of_apply hspec ih).1

/-! ## Runs of transforms -/

/-- Whatever runs under a token was launched by one of the transforms that made the document, and
has run under the same identity ever since: no entry is taken over. -/
theorem running_since_launch (hvalid : validateGraph spec = .ok ()) (dag runKey runId : String)
    (logicalDate : Option String) (kind : String) (start : Time) (ops : List Op) {key : String}
    {e : TaskEntry} :
    let after := (applyAll spec · (newRunBody dag runKey runId logicalDate kind start spec))
    (after ops).tasks.get? key = some e → e.state = .running → e.proc ≠ none →
      ∃ pre op post, ops = pre ++ op :: post ∧
        (∃ intent ∈ op.launches spec (after pre), intent.taskkey = key) ∧
        ∀ mid, mid <+: post →
          ∃ e', (after (pre ++ op :: mid)).tasks.get? key = some e' ∧ SameRun e' e := by
  intro after hget hstate hproc
  have hspec := validSpec_of_validateGraph hvalid
  induction ops using reverseRecOn generalizing e with
  | nil => cases (newRunBody_entry hspec hget).1.symm.trans hstate
  | append_singleton ops op ih =>
    have hlast : after (ops ++ [op]) = op.apply spec (after ops) := foldl_concat ..
    have htidy : Tidy (after ops) := ((Reachable.fresh ..).applyAll ops).tidy hspec
    rcases (op.running_of_apply hspec htidy).2 key e (hlast ▸ hget) hstate hproc with
      hlaunch | ⟨e₀, hget₀, hrun⟩
    · refine ⟨ops, op, [], rfl, hlaunch, fun mid hmid => ?_⟩
      rw [prefix_nil.mp hmid]
      exact ⟨e, hget, hstate, rfl, rfl, rfl⟩
    · -- it ran before the last transform as well
      obtain ⟨pre, op', post, rfl, hlaunch, hkept⟩ := ih hget₀ hrun.state (hrun.proc ▸ hproc)
      refine ⟨pre, op', post ++ [op], by simp, hlaunch, fun mid hmid => ?_⟩
      rcases prefix_concat_iff.mp hmid with rfl | hmid
      · refine ⟨e, ?_, hstate, rfl, rfl, rfl⟩
        simpa using hget
      · obtain ⟨e', hget', hrun'⟩ := hkept mid hmid
        exact ⟨e', hget', hrun'.state, hrun'.proc.trans hrun.proc,
          hrun'.attempt.trans hrun.attempt, hrun'.poke.trans hrun.poke⟩

/-- A sensor that is poked twice: its second poke is in flight. -/
theorem running_since_launch_poked :
    ∃ pre op post, pokeTwice = pre ++ op :: post ∧
      ∃ intent ∈ op.launches sensorSpec (applyAll sensorSpec pre
        (newRunBody "watch" "k" "r" none "cron" 0 sensorSpec)), intent.taskkey = "s" := by
  have hentry : ∃ e, (applyAll sensorSpec pokeTwice (newRunBody "watch" "k" "r" none "cron" 0
      sensorSpec)).tasks.get? "s" = some e ∧ e.state = .running ∧ e.proc ≠ none := by decide +kernel
  obtain ⟨e, hget, hstate, hproc⟩ := hentry
  obtain ⟨pre, op, post, hops, hlaunch, -⟩ := running_since_launch (by decide +kernel) "watch" "k"
    "r" none "cron" 0 pokeTwice hget hstate hproc
  exact ⟨pre, op, post, hops, hlaunch⟩

/-! ## Batches of completions -/

/-- The entry runs under the identity that the fences of a completion name. -/
structure Fits (m : CompletionMark) (e : TaskEntry) : Prop where
  state : e.state = .running
  proc : ∀ p, m.expectedProc = some p → e.proc = some p
  attempt : ∀ a, m.expectedAttempt = some a → e.attempt = a
  poke : ∀ n, m.expectedPoke = some n → e.poke = n

/-- No entry at the key of a completion passes its fences. -/
def Closed (tasks : Dict String TaskEntry) (m : CompletionMark) : Prop :=
  ∀ e, tasks.get? m.taskkey = some e → ¬ Fits m e

variable {m : CompletionMark}

/-- A completion is dropped only by its fences. -/
private lemma finishEntry_eq_none {e : TaskEntry} (h : finishEntry now m e = none) :
    ¬ Fits m e := fun hfits => by
  have hpass := finishEntry_eq_some.mpr ⟨hfits.state, hfits.proc, hfits.attempt, hfits.poke,
    (rfl : completedEntry now m e = _)⟩
  rw [h] at hpass
  cases hpass

/-- Applying a completion closes every fence with a token at its key, and opens none. -/
private lemma closed_set {m' : CompletionMark} {tasks : Dict String TaskEntry} {e e' : TaskEntry}
    (hproc : m.expectedProc ≠ none) (h : finishEntry now m' e = some e')
    (hclosed : m'.taskkey = m.taskkey ∨ Closed tasks m) : Closed (tasks.set m'.taskkey e') m := by
  intro e₁ hget hfits
  by_cases hkey : m.taskkey = m'.taskkey
  · -- the write cleared the token
    rw [hkey, Dict.get?_set_self] at hget
    cases hget
    obtain ⟨p, hp⟩ := ne_none_iff_exists'.mp hproc
    obtain ⟨-, -, -, -, rfl⟩ := finishEntry_eq_some.mp h
    have := hfits.proc p hp
    unfold completedEntry finishSensor finishPlain at this
    split_ifs at this
  · rw [Dict.get?_set_of_ne _ _ hkey] at hget
    rcases hclosed with heq | hclosed
    · exact hkey heq.symm
    · exact hclosed e₁ hget hfits

/-- After a batch of completions, none of those in it passes its fences, and no fence was opened:
each was applied, or did not fit at its turn. -/
theorem closed_applyBatch (hproc : m.expectedProc ≠ none) (marks : List CompletionMark)
    (tasks : Dict String TaskEntry) (h : m ∈ marks ∨ Closed tasks m) :
    Closed (applyBatch CompletionMark.taskkey (finishEntry now) marks tasks).1 m := by
  unfold applyBatch
  -- over what the loop has stored and marked so far
  replace h : m ∈ marks ∨ Closed (tasks, ([] : List CompletionMark)).1 m := h
  generalize (tasks, ([] : List CompletionMark)) = s at h ⊢
  induction marks generalizing s with
  | nil => exact h.resolve_left not_mem_nil
  | cons m' marks ih =>
    rw [foldl_cons]
    split
    next hnone =>
      refine ih s (h.elim (fun hmem => ?_) .inr)
      refine (mem_cons.mp hmem).symm.imp_right ?_
      rintro rfl e hget
      rw [hget] at hnone
      exact finishEntry_eq_none hnone
    next e' hsome =>
      obtain ⟨e, -, hfinish⟩ := bind_eq_some_iff.mp hsome
      refine ih _ ?_
      rcases h with hmem | hclosed
      · rcases mem_cons.mp hmem with rfl | hmem
        · exact .inr (closed_set hproc hfinish (.inl rfl))
        · exact .inl hmem
      · exact .inr (closed_set hproc hfinish (.inr hclosed))

/-- After a batch of completions is recorded, none of those in it passes its fences. -/
theorem closed_finish (spec : DagSpec) {marks : List CompletionMark} (hmem : m ∈ marks)
    (hproc : m.expectedProc ≠ none) (now : Time) (body : RunBody) :
    Closed ((Op.finish marks now).apply spec body).tasks m := by
  rw [finish_tasks]
  exact closed_applyBatch hproc marks body.tasks (.inl hmem)

end Cronstable.Dag

import Cronstable.Dag.Expand

/-!
# The shape of reachable documents

A run document keeps the shape it was created with: every task of the DAG has its entry, every
entry sits in the slot of its task or of a recorded instance, every recorded fan-out belongs to a
mapped task and has all of its instances, and only a gate awaits a decision (`WF`). In particular
a reachable document has no holes, so the repair of a hole never fires on one.

## Main results

* `EntryStep.live`, `EntryStep.of_pending`: which entries a step rewrites, and how;
* `WF.step`, `WF.expand`: steps and expansions keep the shape;
* `Reachable.wf`: every reachable document has it.
-/

namespace Cronstable.Dag

open Dict

open Trace (Run)

variable {spec : DagSpec} {body body' : RunBody}

/-! ## What a step does to an entry -/

section EntryStep

variable {key : String} {e e' : TaskEntry} {ev : Event}

/-- What the writes outside of a walk do to a running entry: they end it, free it of its owner, or
leave the run as it is. -/
structure OffRun (e e' : TaskEntry) : Prop where
  running : e.state = .running
  same : e'.id = e.id ∧ e'.mapIndex = e.mapIndex
  attempt : e.attempt ≤ e'.attempt
  awaiting : e'.awaitingApproval = true → e.awaitingApproval = true
  fate : e'.state.terminal = true ∨
    e'.proc = none ∧ (e'.state = .running ∨ e'.state = .upForRetry ∨ e'.state = .pending) ∨
    e'.state = .running ∧ e'.proc = e.proc ∧ e'.attempt = e.attempt ∧ e'.poke = e.poke

lemma reconcileOne_offRun (task : Option TaskSpec) (now : Time) (hrun : e.state = .running) :
    OffRun e (reconcileOne task now e) := by
  unfold reconcileOne
  split_ifs <;> refine ⟨hrun, ⟨rfl, rfl⟩, by simp, id, ?_⟩
  · exact .inr (.inl ⟨rfl, .inl hrun⟩)
  · exact .inr (.inl ⟨rfl, .inr (.inl rfl)⟩)
  · exact .inl rfl

section

variable (h : EntryStep spec body key e ev e')

include h

/-- A step outside of a walk. -/
theorem EntryStep.offRun (hout : ev.inPass = false) : OffRun e e' := by
  cases h with
  | settle | park | claim | poke => cases hout
  | pid _ _ h =>
    obtain ⟨hrun, -, -, rfl⟩ := writePid_eq_some.mp h
    exact ⟨hrun, ⟨rfl, rfl⟩, le_rfl, id, .inr (.inr ⟨hrun, rfl, rfl, rfl⟩)⟩
  | release _ _ h =>
    obtain ⟨hrun, -, -, -, rfl⟩ := releaseClaim_eq_some.mp h
    unfold releasedEntry
    split <;> refine ⟨hrun, ⟨rfl, rfl⟩, le_rfl, id, .inr (.inl ⟨rfl, ?_⟩)⟩
    · exact .inl hrun
    · exact .inr (.inr rfl)
  | finish _ _ _ h =>
    obtain ⟨hrun, -, -, -, rfl⟩ := finishEntry_eq_some.mp h
    -- a success, a sensor between two pokes, the wait for the next attempt, or a failure
    unfold completedEntry finishSensor finishPlain
    split_ifs <;> refine ⟨hrun, ⟨rfl, rfl⟩, by simp, id, ?_⟩
    · exact .inl rfl
    · exact .inr (.inl ⟨rfl, .inl hrun⟩)
    · exact .inl rfl
    · exact .inr (.inl ⟨rfl, .inr (.inl rfl)⟩)
    · exact .inl rfl
  | decided approved _ _ onReject hrun =>
    refine ⟨hrun, ⟨rfl, rfl⟩, le_rfl, by simp [decideEntry], .inl ?_⟩
    unfold decideEntry
    split_ifs <;> rfl
  | recover _ _ _ _ h => exact reconcileOne_offRun _ _ (running_of_crashed h).1

/-- Only a live entry is rewritten: neither a terminal one nor a group marker. -/
theorem EntryStep.live : e.state.inert = false := by
  have hoff := h.offRun
  cases h with
  | settle _ _ _ _ _ _ hlive => exact hlive
  | park _ _ _ _ _ _ _ hclaim | claim _ _ _ _ _ _ _ _ _ hclaim =>
    rcases hclaim with ⟨h, -⟩ | h <;> rw [h] <;> rfl
  | poke _ _ _ _ _ _ _ _ _ hstate => rw [hstate]; rfl
  | pid | release | finish | decided | recover => rw [(hoff rfl).running]; rfl

/-- A step keeps whose entry it is, and does not lower its attempt. Only parking a gate makes the
entry await a decision. -/
theorem EntryStep.frame : (e'.id = e.id ∧ e'.mapIndex = e.mapIndex) ∧ e.attempt ≤ e'.attempt ∧
    (e'.awaitingApproval = true → e.awaitingApproval = true ∨
      ∃ task ∈ spec.tasks, Owns task.id key ∧ task.type = .approval) := by
  have hoff := h.offRun
  cases h with
  | settle | claim | poke => exact ⟨⟨rfl, rfl⟩, le_rfl, .inl⟩
  | park task inst _ hmem hinst hkey htype _ =>
    exact ⟨⟨rfl, rfl⟩, le_rfl, fun _ => .inr ⟨task, hmem, hkey ▸ (mem_instancesOf hinst).1, htype⟩⟩
  | pid | release | finish | decided | recover =>
    have hoff := hoff rfl
    exact ⟨hoff.same, hoff.attempt, fun hwait => .inl (hoff.awaiting hwait)⟩

/-- The states a step leads to. -/
theorem EntryStep.state_cases :
    e'.state.terminal = true ∨ e'.state = .running ∨ e'.state = .upForRetry ∨
      e'.state = .pending := by
  have hoff := h.offRun
  cases h with
  | settle _ _ _ _ _ _ _ _ hterm => exact .inl hterm
  | park | claim => exact .inr (.inl rfl)
  | poke _ _ _ _ _ _ _ _ _ hstate => exact .inr (.inl hstate)
  | pid | release | finish | decided | recover =>
    rcases (hoff rfl).fate with hterm | ⟨-, hstate⟩ | ⟨hstate, -⟩
    · exact .inl hterm
    · exact .inr hstate
    · exact .inr (.inl hstate)

/-- A pending entry leaves its state by ending without a success or by being claimed as an
instance of its task. -/
theorem EntryStep.of_pending (hpending : e.state = .pending) :
    (e'.state.terminal = true ∧ e'.state ≠ .success) ∨
      e'.state = .running ∧ ∃ task ∈ spec.tasks, ∃ inst ∈ instancesOf body task,
        inst.key = key ∧ depsVerdict spec body task = .ready := by
  have hne : ¬ e.state = .running := by rw [hpending]; decide
  have hoff := h.offRun
  cases h with
  | settle _ _ _ _ _ _ _ _ hterm hsucc => exact .inl ⟨hterm, hsucc⟩
  | park task inst _ hmem hinst hkey _ hclaim | claim task inst _ _ _ hmem hinst hkey _ hclaim =>
    rcases hclaim with ⟨-, hready⟩ | hretry
    · exact .inr ⟨rfl, task, hmem, inst, hinst, hkey, hready⟩
    · rw [hpending] at hretry
      cases hretry
  | poke _ _ _ _ _ _ _ _ _ hstate => exact absurd hstate hne
  | pid | release | finish | decided | recover => exact absurd (hoff rfl).running hne

end

end EntryStep

/-! ## The shape -/

/-- The place of an entry in a document. -/
inductive Slot (body : RunBody) (t : TaskSpec) (key : String) (e : TaskEntry) : Prop
  | plain (hkey : key = t.id) (hindex : e.mapIndex = none) (hexp : t.expand = none)
      (hstate : e.state ≠ .expanded)
  /-- The placeholder of a mapped task without a recorded fan-out is never in flight and never
  succeeds. -/
  | waiting (hkey : key = t.id) (hindex : e.mapIndex = none) (hexp : t.expand.isSome)
      (hnone : body.mapped.contains t.id = false)
      (hstate : e.state = .pending ∨ e.state.terminal = true ∧ e.state ≠ .success)
  /-- The marker of a recorded fan-out. -/
  | group (hkey : key = t.id) (hindex : e.mapIndex = none) (hexp : t.expand.isSome)
      (hrec : body.mapped.contains t.id = true) (hstate : e.state = .expanded)
  | inst (i : ℕ) (record : MapRecord) (hrec : body.mapped.get? t.id = some (some record))
      (hlt : i < record.items.length) (hkey : key = instanceKey t.id i)
      (hindex : e.mapIndex = some (i : ℤ)) (hstate : e.state ≠ .expanded)

lemma Slot.owns {t : TaskSpec} {key : String} {e : TaskEntry} (h : Slot body t key e) :
    Owns t.id key := by
  cases h with
  | plain hkey | waiting hkey | group hkey => exact .inl hkey
  | inst i _ _ _ hkey => exact .inr ⟨i, hkey⟩

/-- A placeholder has no index. -/
theorem Slot.mapIndex_eq_none {t : TaskSpec} {e : TaskEntry} (h : Slot body t t.id e)
    (hhash : '#' ∉ t.id.toList) : e.mapIndex = none := by
  cases h with
  | plain _ hindex | waiting _ hindex | group _ hindex => exact hindex
  | inst i _ _ _ hkey => exact absurd hkey.symm (instanceKey_ne hhash i)

/-- A slot depends on the document through the record of its task. -/
theorem Slot.congr {t : TaskSpec} {key : String} {e : TaskEntry} (h : Slot body t key e)
    (hmapped : body'.mapped.get? t.id = body.mapped.get? t.id) : Slot body' t key e := by
  have hcontains : body'.mapped.contains t.id = body.mapped.contains t.id := by
    rw [contains, contains, hmapped]
  cases h with
  | plain hkey hindex hexp hstate => exact .plain hkey hindex hexp hstate
  | waiting hkey hindex hexp hnone hstate =>
    exact .waiting hkey hindex hexp (hcontains.trans hnone) hstate
  | group hkey hindex hexp hrec hstate =>
    exact .group hkey hindex hexp (hcontains.trans hrec) hstate
  | inst i record hrec hlt hkey hindex hstate =>
    exact .inst i record (hmapped.trans hrec) hlt hkey hindex hstate

/-- The shape of a run document of a DAG. -/
structure WF (spec : DagSpec) (body : RunBody) : Prop where
  /-- Every task has its entry. -/
  entry : ∀ t ∈ spec.tasks, ∃ e, body.tasks.get? t.id = some e
  /-- Every entry has its place. -/
  owner : ∀ key e, body.tasks.get? key = some e →
    ∃ t ∈ spec.tasks, e.id = some t.id ∧ Slot body t key e
  /-- Every recorded fan-out belongs to a mapped task and has all of its instances. -/
  recorded : ∀ id r, body.mapped.get? id = some r →
    ∃ t ∈ spec.tasks, t.id = id ∧ t.expand.isSome ∧ ∃ record, r = some record ∧
      ∀ i < record.items.length, ∃ e, body.tasks.get? (instanceKey id i) = some e
  /-- Only a gate awaits a decision. -/
  gate : ∀ key e, body.tasks.get? key = some e → e.awaitingApproval = true →
    ∀ t ∈ spec.tasks, Owns t.id key → t.type = .approval
  /-- Every state is one this build writes. -/
  recognised : ∀ key e, body.tasks.get? key = some e → ∀ raw, e.state ≠ .unrecognised raw

namespace WF

variable {t : TaskSpec} {key : String} {e e' : TaskEntry} {ev : Event}

/-- The entry at a key of a task is in a slot of this task. -/
theorem slot (h : WF spec body) (hspec : ValidSpec spec) (ht : t ∈ spec.tasks)
    (hown : Owns t.id key) (hget : body.tasks.get? key = some e) :
    e.id = some t.id ∧ Slot body t key e := by
  obtain ⟨u, hu, hid, hslot⟩ := h.owner key e hget
  have heq : u = t := hspec.eq_of_id hu ht
    (hslot.owns.id_eq (hspec.no_hash u hu) (hspec.no_hash t ht) hown)
  exact heq ▸ ⟨hid, hslot⟩

/-- A reachable document has no holes. -/
theorem no_hole (h : WF spec body) {id : String} {record : MapRecord}
    (hrec : body.mapped.get? id = some (some record)) {i : ℕ} (hi : i < record.items.length) :
    ∃ e, body.tasks.get? (instanceKey id i) = some e := by
  obtain ⟨-, -, -, -, record', hrecord, hall⟩ := h.recorded id _ hrec
  cases hrecord
  exact hall i hi

/-- Without a record a task has no instances. -/
theorem no_instance (h : WF spec body) (hspec : ValidSpec spec) (ht : t ∈ spec.tasks)
    (hnone : body.mapped.contains t.id = false) (i : ℕ) :
    body.tasks.get? (instanceKey t.id i) = none := by
  cases hget : body.tasks.get? (instanceKey t.id i) with
  | none => rfl
  | some e =>
    have hne : instanceKey t.id i ≠ t.id := instanceKey_ne (hspec.no_hash t ht) i
    cases (h.slot hspec ht (.inr ⟨i, rfl⟩) hget).2 with
    | plain hkey | waiting hkey | group hkey => exact absurd hkey hne
    | inst _ _ hrec =>
      rw [contains_eq_false_iff] at hnone
      rw [hnone] at hrec
      cases hrec

section

variable (hspec : ValidSpec spec)

include hspec

/-- A rewritten entry stays in its slot. -/
private lemma slot_step (ht : t ∈ spec.tasks) (hslot : Slot body t key e)
    (hstep : EntryStep spec body key e ev e') : Slot body t key e' := by
  obtain ⟨⟨-, hindex'⟩, -⟩ := hstep.frame
  have hlive := hstep.live
  have hstate' : e'.state ≠ .expanded := by
    rcases hstep.state_cases with h | h | h | h
    · intro heq
      rw [heq] at h
      cases h
    all_goals rw [h]; decide
  cases hslot with
  | plain hkey hindex hexp _ => exact .plain hkey (hindex'.trans hindex) hexp hstate'
  | waiting hkey hindex hexp hnone hstate =>
    refine .waiting hkey (hindex'.trans hindex) hexp hnone (.inr ?_)
    have hpending : e.state = .pending := by
      refine hstate.resolve_right fun hterm => ?_
      simp [TaskState.inert, hterm.1] at hlive
    rcases hstep.of_pending hpending with hended | ⟨-, u, hu, inst, hinst, hinstKey, -⟩
    · exact hended
    · -- a placeholder is no instance of its task
      have heq : u = t := hspec.eq_of_id hu ht
        ((mem_instancesOf hinst).1.id_eq (hspec.no_hash u hu) (hspec.no_hash t ht)
          (hinstKey ▸ .inl hkey))
      subst heq
      rw [contains_eq_false_iff] at hnone
      simp [instancesOf, hnone, hexp] at hinst
  | group _ _ _ _ hstate =>
    rw [hstate] at hlive
    cases hlive
  | inst i record hrec hlt hkey hindex _ =>
    exact .inst i record hrec hlt hkey (hindex'.trans hindex) hstate'

/-- Every step keeps the shape. -/
theorem step (h : WF spec body) (hstep : BodyStep spec body ev body') : WF spec body' := by
  have hmapped := hstep.mapped_eq
  -- without holes a step rewrites entries in place
  have hcases : ∀ key, body'.tasks.get? key = body.tasks.get? key ∨
      ∃ e e', body.tasks.get? key = some e ∧ body'.tasks.get? key = some e' ∧
        EntryStep spec body key e ev e' := by
    intro key
    rcases hstep.get?_cases key with heq | hentry | ⟨u, record, i, item, _, _, hrec, hitem, rfl,
      hnone, _⟩
    · exact .inl heq
    · exact .inr hentry
    · obtain ⟨hlt, -⟩ := List.getElem?_eq_some_iff.mp hitem
      obtain ⟨e, he⟩ := h.no_hole hrec hlt
      rw [hnone] at he
      cases he
  have hpresent : ∀ key, (∃ e, body.tasks.get? key = some e) →
      ∃ e, body'.tasks.get? key = some e := by
    rintro key ⟨e, he⟩
    rcases hcases key with heq | ⟨-, e', -, he', -⟩
    · exact ⟨e, heq.trans he⟩
    · exact ⟨e', he'⟩
  refine ⟨fun t ht => hpresent _ (h.entry t ht), ?_, ?_, ?_, ?_⟩
  · intro key e' he'
    rcases hcases key with heq | ⟨e, e'', he, he'', hentry⟩
    · rw [heq] at he'
      obtain ⟨t, ht, hid, hslot⟩ := h.owner key e' he'
      exact ⟨t, ht, hid, hslot.congr (by rw [hmapped])⟩
    · rw [he'] at he''
      cases he''
      obtain ⟨t, ht, hid, hslot⟩ := h.owner key e he
      exact ⟨t, ht, hentry.frame.1.1.trans hid,
        (slot_step hspec ht hslot hentry).congr (by rw [hmapped])⟩
  · intro id r hr
    rw [hmapped] at hr
    obtain ⟨t, ht, hid, hexp, record, hrecord, hall⟩ := h.recorded id r hr
    exact ⟨t, ht, hid, hexp, record, hrecord, fun i hi => hpresent _ (hall i hi)⟩
  · intro key e' he' hwait t ht hown
    rcases hcases key with heq | ⟨e, e'', he, he'', hentry⟩
    · exact h.gate key e' (heq ▸ he') hwait t ht hown
    · rw [he'] at he''
      cases he''
      rcases hentry.frame.2.2 hwait with hwait' | ⟨u, hu, huown, htype⟩
      · exact h.gate key e he hwait' t ht hown
      · rwa [hspec.eq_of_id ht hu
          (hown.id_eq (hspec.no_hash t ht) (hspec.no_hash u hu) huown)]
  · intro key e' he' raw hraw
    rcases hcases key with heq | ⟨e, e'', he, he'', hentry⟩
    · exact h.recognised key e' (heq ▸ he') raw hraw
    · rw [he'] at he''
      cases he''
      rcases hentry.state_cases with h | h | h | h <;> rw [hraw] at h <;> cases h

/-- The entries of a fresh run. -/
theorem get?_newRunBody {dag runKey runId : String} {logicalDate : Option String} {kind : String}
    {now : Time} :
    (newRunBody dag runKey runId logicalDate kind now spec).tasks.get? key = some e ↔
      ∃ t ∈ spec.tasks, t.id = key ∧ newTaskEntry t now = e := by
  have hnodup : ((spec.tasks.map fun t => (t.id, newTaskEntry t now)).map Prod.fst).Nodup := by
    simpa [Function.comp_def] using hspec.nodup
  rw [newRunBody, get?_ofList hnodup]
  simp only [List.mem_map, Prod.mk.injEq]

/-- A fresh run has the shape. -/
theorem fresh (dag runKey runId : String) (logicalDate : Option String) (kind : String)
    (now : Time) : WF spec (newRunBody dag runKey runId logicalDate kind now spec) := by
  refine ⟨fun t ht => ⟨_, (get?_newRunBody hspec).mpr ⟨t, ht, rfl, rfl⟩⟩, ?_, ?_, ?_, ?_⟩
  · intro key e he
    obtain ⟨t, ht, rfl, rfl⟩ := (get?_newRunBody hspec).mp he
    refine ⟨t, ht, rfl, ?_⟩
    cases hexp : t.expand with
    | none => exact .plain rfl rfl hexp (by simp)
    | some exp => exact .waiting rfl rfl (by simp [hexp]) rfl (.inl rfl)
  · intro id r hr
    cases hr
  · intro key e he hwait
    obtain ⟨t, ht, rfl, rfl⟩ := (get?_newRunBody hspec).mp he
    cases hwait
  · intro key e he raw hraw
    obtain ⟨t, ht, rfl, rfl⟩ := (get?_newRunBody hspec).mp he
    cases hraw

/-- Supplied lists keep the shape. -/
theorem expand (h : WF spec body) (expansions : Expansions) (now : Time) :
    WF spec (applyExpansions spec expansions now { body }).body := by
  set body' := (applyExpansions spec expansions now { body }).body with hbody'
  obtain ⟨hmappedFrame, htasksFrame⟩ := applyExpansions_frame hspec expansions now { body }
  have heffect : ∀ t ∈ spec.tasks, ExpandEffect spec now expansions body body' t := fun t ht =>
    applyExpansions_task hspec expansions now { body } ht
  -- every entry of the new document belongs to a task and is in one of its slots
  have hentry : ∀ key e, body'.tasks.get? key = some e → ∃ t ∈ spec.tasks, Owns t.id key ∧
      e.id = some t.id ∧ Slot body' t key e ∧
      (e.awaitingApproval = true → t.type = .approval) ∧ ∀ raw, e.state ≠ .unrecognised raw := by
    intro key e he
    by_cases howned : ∃ t ∈ spec.tasks, Owns t.id key
    · obtain ⟨t, ht, hown⟩ := howned
      refine ⟨t, ht, hown, ?_⟩
      cases heffect t ht with
      | same hsame =>
        rw [hsame.2 key hown] at he
        obtain ⟨hid, hslot⟩ := h.slot hspec ht hown he
        exact ⟨hid, hslot.congr hsame.1, fun hwait => h.gate key e he hwait t ht hown,
          h.recognised key e he⟩
      | capped e₀ reason hexp hnone hget hpending hmapped hnew hinst =>
        rcases hown with rfl | ⟨i, rfl⟩
        · rw [hnew] at he
          cases he
          obtain ⟨hid, hslot⟩ := h.slot hspec ht (.inl rfl) hget
          have hindex := hslot.mapIndex_eq_none (hspec.no_hash t ht)
          refine ⟨hid, .waiting rfl hindex hexp ?_ (.inr ⟨rfl, fun h => by cases h⟩),
            fun hwait => h.gate _ e₀ hget hwait t ht (.inl rfl), fun raw hraw => by cases hraw⟩
          rwa [contains, hmapped]
        · rw [hinst i, h.no_instance hspec ht hnone i] at he
          cases he
      | recorded l hlist helig hmapped hnew hinst =>
        obtain ⟨exp, hexp, hnone, -⟩ := helig
        rcases hown with rfl | ⟨i, rfl⟩
        · obtain ⟨e₀, hget⟩ := h.entry t ht
          rw [hnew, hget] at he
          cases he
          obtain ⟨hid, hslot⟩ := h.slot hspec ht (.inl rfl) hget
          have hindex := hslot.mapIndex_eq_none (hspec.no_hash t ht)
          refine ⟨hid, .group rfl hindex (by simp [hexp]) ?_ rfl,
            fun hwait => h.gate _ e₀ hget hwait t ht (.inl rfl), fun raw hraw => by cases hraw⟩
          rw [contains, hmapped]
          rfl
        · rw [hinst i] at he
          cases hitem : l[i]? with
          | none =>
            rw [hitem] at he
            rw [h.no_instance hspec ht hnone i] at he
            cases he
          | some item =>
            rw [hitem] at he
            cases he
            obtain ⟨hlt, -⟩ := List.getElem?_eq_some_iff.mp hitem
            exact ⟨rfl, .inst i _ hmapped hlt rfl rfl (by simp), by simp, by simp⟩
    · push Not at howned
      rw [htasksFrame key howned] at he
      obtain ⟨t, ht, -, hslot⟩ := h.owner key e he
      exact absurd hslot.owns (howned t ht)
  refine ⟨?_, ?_, ?_, ?_, ?_⟩
  · intro t ht
    obtain ⟨e, he⟩ := h.entry t ht
    cases heffect t ht with
    | same hsame => exact ⟨e, (hsame.2 _ (.inl rfl)).trans he⟩
    | capped e₀ reason _ _ _ _ _ hnew => exact ⟨_, hnew⟩
    | recorded _ _ _ _ hnew =>
      rw [he] at hnew
      exact ⟨_, hnew⟩
  · intro key e he
    obtain ⟨t, ht, -, hid, hslot, -⟩ := hentry key e he
    exact ⟨t, ht, hid, hslot⟩
  · intro id r hr
    by_cases hknown : ∃ t ∈ spec.tasks, t.id = id
    · obtain ⟨t, ht, rfl⟩ := hknown
      cases heffect t ht with
      | same hsame =>
        rw [hsame.1] at hr
        obtain ⟨u, hu, hid, hexp, record, hrecord, hall⟩ := h.recorded _ _ hr
        refine ⟨u, hu, hid, hexp, record, hrecord, fun i hi => ?_⟩
        rw [hsame.2 _ (.inr ⟨i, rfl⟩)]
        exact hall i hi
      | capped _ _ _ hnone _ _ hmapped =>
        rw [contains_eq_false_iff] at hnone
        rw [hmapped, hnone] at hr
        cases hr
      | recorded l _ helig hmapped _ hinst =>
        obtain ⟨exp, hexp, -⟩ := helig
        rw [hmapped] at hr
        cases hr
        refine ⟨t, ht, rfl, by simp [hexp], _, rfl, fun i hi => ?_⟩
        rw [hinst i, List.getElem?_eq_getElem hi]
        exact ⟨_, rfl⟩
    · push Not at hknown
      rw [hmappedFrame id hknown] at hr
      obtain ⟨t, ht, hid, -⟩ := h.recorded id r hr
      exact absurd hid (hknown t ht)
  · intro key e he hwait t ht hown
    obtain ⟨u, hu, huown, -, -, hgate, -⟩ := hentry key e he
    rw [hspec.eq_of_id ht hu (hown.id_eq (hspec.no_hash t ht) (hspec.no_hash u hu) huown)]
    exact hgate hwait
  · intro key e he
    obtain ⟨-, -, -, -, -, -, hknown⟩ := hentry key e he
    exact hknown

/-- Every transform keeps the shape. -/
theorem apply (h : WF spec body) (op : Op) : WF spec (op.apply spec body) := by
  obtain ⟨start, events, hrun, -, -, hstart⟩ := op.apply_run hspec body
  have hwf : WF spec start := by
    rcases hstart with rfl | ⟨now, -, -, expansions, -, -, rfl⟩
    · exact h
    · exact h.expand hspec expansions now
  exact hrun.invariant (fun b ev b' hb hstep => hb.step hspec hstep) hwf

end

end WF

/-- Every reachable document has the shape. -/
theorem Reachable.wf (hspec : ValidSpec spec) (h : Reachable spec body) : WF spec body := by
  induction h with
  | fresh dag runKey runId logicalDate kind now =>
    exact .fresh hspec dag runKey runId logicalDate kind now
  | step op _ ih => exact ih.apply hspec op

/-! ## Runs of transforms -/

/-- A transform applied where a condition on the document and its arguments is met. -/
def Guarded (spec : DagSpec) (ok : RunBody → Op → Prop) (body : RunBody) (op : Op)
    (body' : RunBody) : Prop :=
  ok body op ∧ body' = op.apply spec body

/-- Apply transforms one after another. -/
def applyAll (spec : DagSpec) (ops : List Op) (body : RunBody) : RunBody :=
  ops.foldl (fun b op => op.apply spec b) body

lemma Reachable.applyAll (h : Reachable spec body) (ops : List Op) :
    Reachable spec (applyAll spec ops body) :=
  List.foldlRecOn (motive := Reachable spec) ops _ h fun _ hb op _ => .step op hb

end Cronstable.Dag

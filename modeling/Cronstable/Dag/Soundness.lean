import Cronstable.Dag.Absorbing

/-!
# Dependency soundness

An entry of an `all_success` task leaves `pending` towards a launch only when every upstream
succeeded, and a success is never lost: a placeholder never succeeds, so a recorded fan-out does
not hide one. The one way past the upstreams is an empty item list. It makes its task a success on
the spot, and the recording of a list asks for the source of the task alone.

## Main results

* `Grounded.step`, `Grounded.expand`: whatever started or finished empty has its upstreams;
* `sound_of_emptyReady`: in every run in which an empty list is recorded only for tasks whose
  upstreams succeeded, the upstreams of every successful and of every launched `all_success` task
  succeeded.
-/

namespace Cronstable.Dag

open List

open Trace (Run)

variable {spec : DagSpec} {body body' : RunBody}

/-- The upstreams of every successful `all_success` task succeeded. -/
def Sound (spec : DagSpec) (body : RunBody) : Prop :=
  ∀ t ∈ spec.tasks, t.triggerRule = .allSuccess → effectiveState spec body t.id = .success →
    ∀ dep ∈ t.dependsOn, effectiveState spec body dep = .success

/-- The tasks an `all_success` task rests on: its upstreams, and those that its `all_success`
upstreams rest on. -/
inductive RestsOn (spec : DagSpec) : TaskSpec → String → Prop
  | dep {t : TaskSpec} {dep : String} (hrule : t.triggerRule = .allSuccess)
      (hdep : dep ∈ t.dependsOn) : RestsOn spec t dep
  | step {t u : TaskSpec} {dep : String} (hrule : t.triggerRule = .allSuccess)
      (hu : u ∈ spec.tasks) (hdep : u.id ∈ t.dependsOn) (hrest : RestsOn spec u dep) :
      RestsOn spec t dep

/-- Whatever the transform launches rests on successful tasks. -/
def LaunchesSound (spec : DagSpec) (body : RunBody) (op : Op) : Prop :=
  ∀ intent ∈ op.launches spec body, ∀ t ∈ spec.tasks, t.id = intent.taskId →
    ∀ dep, RestsOn spec t dep → effectiveState spec (op.apply spec body) dep = .success

/-- An empty list is recorded on an open run only for a task each of whose upstreams succeeded, or
becomes a success by an empty list of its own. Other trigger rules are free. -/
def EmptyReady (spec : DagSpec) (body : RunBody) (op : Op) : Prop :=
  body.terminalRun = false → ∀ t ∈ spec.tasks, t.triggerRule = .allSuccess →
    op.expansions.get? t.id = some (some []) → Eligible spec body t [] →
      ∀ dep ∈ t.dependsOn, effectiveState spec body dep = .success ∨
        ∃ u ∈ spec.tasks, u.id = dep ∧ op.expansions.get? u.id = some (some []) ∧
          Eligible spec body u []

/-! ## The invariant -/

/-- The entry was launched at some time and did not fail. -/
def TaskEntry.Started (e : TaskEntry) : Prop :=
  e.state = .running ∨ e.state = .upForRetry ∨ e.state = .success

/-- The upstreams of an `all_success` task succeeded before any of its instances started, and
before its empty fan-out was recorded. -/
structure Grounded (spec : DagSpec) (body : RunBody) : Prop where
  started : ∀ t ∈ spec.tasks, t.triggerRule = .allSuccess → ∀ key e, Owns t.id key →
    body.tasks.get? key = some e → e.Started →
      ∀ dep ∈ t.dependsOn, effectiveState spec body dep = .success
  empty : ∀ t ∈ spec.tasks, t.triggerRule = .allSuccess → ∀ record,
    body.mapped.get? t.id = some (some record) → record.items = [] →
      ∀ dep ∈ t.dependsOn, effectiveState spec body dep = .success

variable {t : TaskSpec} {ev : Event}

namespace Grounded

/-- A grounded document is sound: a success is an empty fan-out or has a successful entry. -/
theorem sound (h : Grounded spec body) : Sound spec body := by
  intro t ht hrule hsucc dep hdep
  rw [effectiveState_eq] at hsucc
  have hentry : ∀ key, Owns t.id key → stateOrPending body.tasks key = .success →
      effectiveState spec body dep = .success := by
    intro key hown hstate
    unfold stateOrPending at hstate
    cases hget : body.tasks.get? key with
    | none =>
      rw [hget] at hstate
      cases hstate
    | some e =>
      rw [hget] at hstate
      exact h.started t ht hrule key e hown hget (.inr (.inr hstate)) dep hdep
  by_cases hrecord : ∃ record, body.mapped.get? t.id = some (some record)
  · obtain ⟨record, hrecord⟩ := hrecord
    by_cases hitems : record.items = []
    · exact h.empty t ht hrule record hrecord hitems dep hdep
    · refine hentry _ (.inr ⟨0, rfl⟩) ?_
      exact (mappedGroupState_success_of_record hrecord).mp hsucc 0
        (length_pos_iff.mpr hitems)
  · push Not at hrecord
    rw [mappedGroupState_of_no_record hrecord] at hsucc
    exact hentry _ (.inl rfl) hsucc

/-- A fresh run started nothing. -/
theorem fresh (hspec : ValidSpec spec) (dag runKey runId : String) (logicalDate : Option String)
    (kind : String) (now : Time) :
    Grounded spec (newRunBody dag runKey runId logicalDate kind now spec) := by
  constructor
  · intro t ht hrule key e hown hget hstarted
    obtain ⟨u, -, -, rfl⟩ := (WF.get?_newRunBody hspec).mp hget
    rcases hstarted with h | h | h <;> cases h
  · intro t ht hrule record hrecord
    cases hrecord

/-! ## Steps -/

section

variable (hspec : ValidSpec spec)

include hspec

/-- An upstream that succeeded stays a success. -/
private lemma success_of_step (ht : t ∈ spec.tasks) {dep : String} (hdep : dep ∈ t.dependsOn)
    (hstep : BodyStep spec body ev body') (hsucc : effectiveState spec body dep = .success) :
    effectiveState spec body' dep = .success := by
  obtain ⟨u, hu, rfl⟩ := hspec.known t ht dep hdep
  have hkeep := (Keeps.of_run (Run.single hstep)).effective u hu (by rw [hsucc]; rfl)
  exact hkeep.trans hsucc

section

variable (hwf : WF spec body) (h : Grounded spec body)

include hwf h

/-- An entry that may be claimed has its upstreams. -/
private lemma success_of_claimable
    (ht : t ∈ spec.tasks) (hrule : t.triggerRule = .allSuccess) {key : String} {e : TaskEntry}
    (hown : Owns t.id key) (hget : body.tasks.get? key = some e)
    (hclaim : Claimable spec body t e) :
    ∀ dep ∈ t.dependsOn, effectiveState spec body dep = .success := by
  intro dep hdep
  rcases hclaim with ⟨-, hready⟩ | hretry
  · obtain ⟨u, hu, rfl⟩ := hspec.known t ht dep hdep
    rw [effectiveState_eq]
    exact success_of_depsVerdict_ready hrule hready hdep
      (Dict.contains_iff.mpr (hwf.entry u hu))
  · exact h.started t ht hrule key e hown hget (.inr (.inl hretry)) dep hdep

/-- A step that leaves an entry started found it started, or its upstreams ready. -/
private lemma success_of_entryStep
    (ht : t ∈ spec.tasks) (hrule : t.triggerRule = .allSuccess) {key : String} {e e' : TaskEntry}
    (hown : Owns t.id key) (hget : body.tasks.get? key = some e)
    (hstep : EntryStep spec body key e ev e') (hstarted : e'.Started) :
    ∀ dep ∈ t.dependsOn, effectiveState spec body dep = .success := by
  have hlive := hstep.live
  cases hstate : e.state with
  | pending =>
    rcases hstep.of_pending hstate with ⟨hterm, hne⟩ | ⟨-, u, hu, inst, hinst, hkey, hready⟩
    · rcases hstarted with hs | hs | hs
      · rw [hs] at hterm
        cases hterm
      · rw [hs] at hterm
        cases hterm
      · exact absurd hs hne
    · -- the claimed task is the one that owns the key
      obtain rfl : u = t := hspec.eq_of_id hu ht
        ((mem_instancesOf hinst).1.id_eq (hspec.no_hash u hu) (hspec.no_hash t ht) (hkey ▸ hown))
      exact success_of_claimable hspec hwf h ht hrule hown hget (.inl ⟨hstate, hready⟩)
  | running => exact h.started t ht hrule key e hown hget (.inl hstate)
  | upForRetry => exact h.started t ht hrule key e hown hget (.inr (.inl hstate))
  | unrecognised raw => exact absurd hstate (hwf.recognised key e hget raw)
  | _ =>
    rw [hstate] at hlive
    cases hlive

/-- Every step keeps the document grounded. -/
theorem step (hstep : BodyStep spec body ev body') :
    Grounded spec body' := by
  constructor
  · intro t ht hrule key e' hown hget' hstarted dep hdep
    refine success_of_step hspec ht hdep hstep ?_
    rcases hstep.get?_cases key with heq | ⟨e, e'', he, he'', hentry⟩ |
      ⟨u, record, i, item, now, -, -, -, -, -, hnew⟩
    · exact h.started t ht hrule key e' hown (heq ▸ hget') hstarted dep hdep
    · rw [hget'] at he''
      cases he''
      exact success_of_entryStep hspec hwf h ht hrule hown he hentry hstarted dep hdep
    · rw [hget'] at hnew
      cases hnew
      rcases hstarted with hs | hs | hs <;> cases hs
  · intro t ht hrule record hrecord hitems dep hdep
    rw [hstep.mapped_eq] at hrecord
    exact success_of_step hspec ht hdep hstep (h.empty t ht hrule record hrecord hitems dep hdep)

/-- A launched `all_success` task has its upstreams. -/
theorem launch {intent : LaunchIntent}
    (hstep : BodyStep spec body (.launch intent) body') (ht : t ∈ spec.tasks)
    (hid : t.id = intent.taskId) (hrule : t.triggerRule = .allSuccess) :
    ∀ dep ∈ t.dependsOn, effectiveState spec body' dep = .success := by
  intro dep hdep
  refine success_of_step hspec ht hdep hstep ?_
  cases hstep with
  | entry hget hentry =>
    cases hentry with
    | claim u inst now proc host hu hinst hkey _ hclaim =>
      obtain rfl : t = u := hspec.eq_of_id ht hu hid
      exact success_of_claimable hspec hwf h ht hrule (hkey ▸ (mem_instancesOf hinst).1) hget
        hclaim dep hdep
    | poke u inst now proc host hu hinst hkey _ hstate =>
      obtain rfl : t = u := hspec.eq_of_id ht hu hid
      exact h.started t ht hrule _ _ (hkey ▸ (mem_instancesOf hinst).1) hget (.inl hstate)
        dep hdep

end

end

/-! ## Expansions -/

/-- Recording fan-outs hides no success: a placeholder never succeeds. -/
private lemma success_expand (hspec : ValidSpec spec) (hwf : WF spec body)
    (expansions : Expansions) (now : Time) {u : TaskSpec} (hu : u ∈ spec.tasks)
    (hsucc : effectiveState spec body u.id = .success) :
    effectiveState spec (applyExpansions spec expansions now { body }).body u.id = .success := by
  have hworked : u.expand = none ∨ body.mapped.contains u.id = true := by
    by_contra hplaceholder
    obtain ⟨hexp, hnone⟩ := not_or.mp hplaceholder
    obtain ⟨e, he⟩ := hwf.entry u hu
    have hnone' := Dict.contains_eq_false_iff.mp (Bool.not_eq_true _ ▸ hnone)
    rw [effectiveState_eq, mappedGroupState_of_no_record (by simp [hnone']),
      stateOrPending_of_get? he] at hsucc
    cases (hwf.slot hspec hu (.inl rfl) he).2 with
    | plain _ _ hplain => exact hexp hplain
    | waiting _ _ _ _ hstate =>
      rcases hstate with hs | ⟨-, hs⟩
      · rw [hs] at hsucc
        cases hsucc
      · exact hs hsucc
    | group _ _ _ hrec => exact hnone hrec
    | inst i _ _ _ hkey => exact instanceKey_ne (hspec.no_hash u hu) i hkey.symm
  have hsame := (applyExpansions_task hspec expansions now { body } hu).sameTask hworked
  rw [effectiveState_eq] at hsucc ⊢
  exact hsame.groupState_eq.trans hsucc

/-- Supplied lists keep the document grounded when the empty ones among them are ready. -/
theorem expand (hspec : ValidSpec spec) (hwf : WF spec body) (h : Grounded spec body)
    (expansions : Expansions) (now : Time)
    (hready : ∀ t ∈ spec.tasks, t.triggerRule = .allSuccess →
      expansions.get? t.id = some (some []) → Eligible spec body t [] →
        ∀ dep ∈ t.dependsOn, effectiveState spec body dep = .success ∨
          ∃ u ∈ spec.tasks, u.id = dep ∧ expansions.get? u.id = some (some []) ∧
            Eligible spec body u []) :
    Grounded spec (applyExpansions spec expansions now { body }).body := by
  have hkeep : ∀ t ∈ spec.tasks, ∀ dep ∈ t.dependsOn, effectiveState spec body dep = .success →
      effectiveState spec (applyExpansions spec expansions now { body }).body dep = .success := by
    intro t ht dep hdep hsucc
    obtain ⟨u, hu, rfl⟩ := hspec.known t ht dep hdep
    exact success_expand hspec hwf expansions now hu hsucc
  constructor
  · intro t ht hrule key e hown hget hstarted dep hdep
    refine hkeep t ht dep hdep ?_
    -- what the lists wrote is pending, failed or a marker
    rcases (applyExpansions_task hspec expansions now { body } ht).entry hown hget with hold | hnew
    · exact h.started t ht hrule key e hown hold hstarted dep hdep
    · cases hnew <;> rcases hstarted with hs | hs | hs <;> cases hs
  · intro t ht hrule record hrecord hitems dep hdep
    cases applyExpansions_task hspec expansions now { body } ht with
    | same hsame =>
      rw [hsame.1] at hrecord
      exact hkeep t ht dep hdep (h.empty t ht hrule record hrecord hitems dep hdep)
    | capped _ _ _ _ _ _ hmapped =>
      rw [hmapped] at hrecord
      exact hkeep t ht dep hdep (h.empty t ht hrule record hrecord hitems dep hdep)
    | recorded l hlist helig hmapped =>
      rw [hmapped] at hrecord
      cases hrecord
      obtain rfl : l = [] := hitems
      rcases hready t ht hrule hlist helig dep hdep with hsucc | ⟨u, hu, rfl, hlist', helig'⟩
      · exact hkeep t ht dep hdep hsucc
      · -- the upstream becomes a success by its own empty list
        cases applyExpansions_task hspec expansions now { body } hu with
        | same _ hnot | capped _ _ _ _ _ _ _ _ _ hnot => exact absurd helig' (hnot _ hlist')
        | recorded l' hl' _ hmapped' =>
          rw [hlist'] at hl'
          cases hl'
          rw [effectiveState_eq, mappedGroupState_success_of_record hmapped']
          intro i hi
          cases hi

end Grounded

/-! ## Runs -/

/-- One transform with ready lists: the document stays grounded and its launches are sound. -/
private lemma grounded_apply (hspec : ValidSpec spec) (hwf : WF spec body)
    (h : Grounded spec body) (op : Op) (hready : EmptyReady spec body op) :
    Grounded spec (op.apply spec body) ∧ LaunchesSound spec body op := by
  obtain ⟨start, events, hrun, hlaunches, -, hstart⟩ := op.apply_run hspec body
  have hbegin : WF spec start ∧ Grounded spec start := by
    rcases hstart with rfl | ⟨now, proc, host, expansions, rfl, hopen, rfl⟩
    · exact ⟨hwf, h⟩
    · exact ⟨hwf.expand hspec expansions now, h.expand hspec hwf expansions now (hready hopen)⟩
  have hstep : ∀ b ev b', WF spec b ∧ Grounded spec b → BodyStep spec b ev b' →
      WF spec b' ∧ Grounded spec b' := fun b ev b' hb hs =>
    ⟨hb.1.step hspec hs, hb.2.step hspec hb.1 hs⟩
  have hend := hrun.invariant (P := fun b => WF spec b ∧ Grounded spec b) hstep hbegin
  -- at its launch a task has its direct upstreams, and it keeps them to the end of the pass
  have hdirect := hrun.labelled (P := fun b => WF spec b ∧ Grounded spec b)
    (Q := fun ev b => ∀ intent, ev = .launch intent → ∀ t ∈ spec.tasks, t.id = intent.taskId →
      t.triggerRule = .allSuccess → ∀ dep ∈ t.dependsOn, effectiveState spec b dep = .success)
    hstep
    (by
      rintro b ev b' hb hs intent rfl t ht hid hrule
      exact hb.2.launch hspec hb.1 hs ht hid hrule)
    (by
      intro b ev b' hb hs ev' hprev intent hev t ht hid hrule dep hdep
      exact Grounded.success_of_step hspec ht hdep hs (hprev intent hev t ht hid hrule dep hdep))
    hbegin
  refine ⟨hend.2, fun intent hintent t ht hid dep hrest => ?_⟩
  rw [hlaunches] at hintent
  obtain ⟨ev, hev, hmem⟩ := mem_flatMap.mp hintent
  have hdeps := hdirect ev hev intent (Event.mem_launches.mp hmem) t ht hid
  -- from there on soundness climbs through the `all_success` upstreams
  have hclimb : ∀ {u : TaskSpec} {dep : String}, RestsOn spec u dep →
      (∀ d ∈ u.dependsOn, effectiveState spec (op.apply spec body) d = .success) →
      effectiveState spec (op.apply spec body) dep = .success := by
    intro u dep hrest
    induction hrest with
    | dep _ hdep => exact fun hall => hall _ hdep
    | @step u v dep _ hv hdep hrest ih =>
      intro hall
      refine ih fun d hd => ?_
      cases hrest with
      | dep hrule _ | step hrule _ _ _ =>
        exact hend.2.sound v hv hrule (hall _ hdep) d hd
  cases hrest with
  | dep hrule hdep => exact hdeps hrule dep hdep
  | step hrule hu hdep hrest => exact hclimb (.step hrule hu hdep hrest) (hdeps hrule)

/-- Dependency soundness. In every run of transforms from a fresh document in which an empty list
is recorded only for tasks whose upstreams succeeded, the upstreams of every successful
`all_success` task succeeded, and whatever the next such transform launches rests on successful
tasks. -/
theorem sound_of_emptyReady (hvalid : validateGraph spec = .ok ()) (dag runKey runId : String)
    (logicalDate : Option String) (kind : String) (now : Time) {ops : List Op}
    (hrun : Run (Guarded spec (EmptyReady spec))
      (newRunBody dag runKey runId logicalDate kind now spec) ops body) :
    Sound spec body ∧ ∀ op, EmptyReady spec body op → LaunchesSound spec body op := by
  have hspec := validSpec_of_validateGraph hvalid
  have hinv : WF spec body ∧ Grounded spec body := by
    refine hrun.invariant (P := fun b => WF spec b ∧ Grounded spec b) ?_
      ⟨.fresh hspec dag runKey runId logicalDate kind now,
        .fresh hspec dag runKey runId logicalDate kind now⟩
    rintro b op b' ⟨hwf, hgrounded⟩ ⟨hready, rfl⟩
    exact ⟨hwf.apply hspec op, (grounded_apply hspec hwf hgrounded op hready).1⟩
  exact ⟨hinv.2.sound, fun op hready => (grounded_apply hspec hinv.1 hinv.2 op hready).2⟩

/-! ## An empty list, early and in time -/

/-- A mapped task that also waits for a second task, with a task downstream. -/
def earlySpec : DagSpec :=
  { name := "early"
    tasks := [
      { id := "src" },
      { id := "other" },
      { id := "m", dependsOn := ["src", "other"]
        expand := some { fromTask := "src", key := "items" } },
      { id := "sink", dependsOn := ["m"] }] }

/-- A task of the spec succeeds. -/
def succeeds (id : String) : Op :=
  .finish [{ taskkey := id, success := true, task := { id } }] 2

/-- The source succeeded while the second task is still running. -/
def earlyBody : RunBody :=
  applyAll earlySpec [.plan 1 "p" "h" .empty, succeeds "src"]
    (newRunBody "early" "k" "r" none "cron" 0 earlySpec)

/-- The pass that records the empty list of the source. -/
def earlyOp : Op := .plan 3 "p" "h" (Dict.ofList [("m", some [])])

/-- The mapped task becomes a success, and its downstream task is launched, while one of its
upstreams runs. -/
theorem earlyBody_not_sound :
    validateGraph earlySpec = .ok () ∧ Reachable earlySpec (earlyOp.apply earlySpec earlyBody) ∧
      effectiveState earlySpec (earlyOp.apply earlySpec earlyBody) "m" = .success ∧
      effectiveState earlySpec (earlyOp.apply earlySpec earlyBody) "other" = .running ∧
      (earlyOp.launches earlySpec earlyBody).map LaunchIntent.taskkey = ["sink"] ∧
      ¬ Sound earlySpec (earlyOp.apply earlySpec earlyBody) ∧
      ¬ LaunchesSound earlySpec earlyBody earlyOp := by
  have hm : effectiveState earlySpec (earlyOp.apply earlySpec earlyBody) "m" = .success := by
    decide +kernel
  have hother : effectiveState earlySpec (earlyOp.apply earlySpec earlyBody) "other" =
      .running := by
    decide +kernel
  have hlaunch : (earlyOp.launches earlySpec earlyBody).map
      (fun intent => (intent.taskkey, intent.taskId)) = [("sink", "sink")] := by
    decide +kernel
  refine ⟨by decide +kernel, .step _ ((Reachable.fresh ..).applyAll _), hm, hother,
    by simpa [Function.comp_def] using congrArg (List.map Prod.fst) hlaunch, ?_, ?_⟩
  · intro hsound
    have := hsound _ (.tail _ (.tail _ (.head _))) rfl hm "other" (by decide)
    cases this
  · intro hsound
    obtain ⟨intent, hintent, hkey⟩ := mem_map.mp (hlaunch ▸ mem_singleton_self _)
    have hid : intent.taskId = "sink" := congrArg Prod.snd hkey
    have hrest : RestsOn earlySpec { id := "sink", dependsOn := ["m"] } "other" :=
      .step rfl (.tail _ (.tail _ (.head _))) (by decide) (.dep rfl (by decide))
    have := hsound intent hintent _ (.tail _ (.tail _ (.tail _ (.head _)))) hid.symm _ hrest
    cases this

/-- Once the second task succeeded as well, the same pass is ready and the document sound. -/
theorem sound_of_emptyReady_early :
    effectiveState earlySpec (applyAll earlySpec [succeeds "other", earlyOp] earlyBody) "m" =
        .success ∧
      Sound earlySpec (applyAll earlySpec [succeeds "other", earlyOp] earlyBody) := by
  have hnone : ∀ body, ∀ op : Op, op.expansions = .empty → EmptyReady earlySpec body op := by
    intro body op hop _ t _ _ hlist
    rw [hop] at hlist
    cases hlist
  have hlast : EmptyReady earlySpec (applyAll earlySpec [succeeds "other"] earlyBody)
      earlyOp := by
    intro _ t ht _ hlist _ dep hdep
    left
    simp only [earlySpec, mem_cons, not_mem_nil, or_false] at ht
    rcases ht with rfl | rfl | rfl | rfl
    · cases hdep
    · cases hdep
    · simp only [mem_cons, not_mem_nil, or_false] at hdep
      rcases hdep with rfl | rfl <;> decide +kernel
    · cases hlist
  refine ⟨by decide +kernel, ?_⟩
  have hrun : Run (Guarded earlySpec (EmptyReady earlySpec))
      (newRunBody "early" "k" "r" none "cron" 0 earlySpec)
      [.plan 1 "p" "h" .empty, succeeds "src", succeeds "other", earlyOp]
      (applyAll earlySpec [succeeds "other", earlyOp] earlyBody) :=
    ((((Run.nil _).snoc ⟨hnone _ (.plan 1 "p" "h" .empty) rfl, rfl⟩).snoc
      ⟨hnone _ (succeeds "src") rfl, rfl⟩).snoc ⟨hnone _ (succeeds "other") rfl, rfl⟩).snoc
      ⟨hlast, rfl⟩
  exact (sound_of_emptyReady (by decide +kernel) "early" "k" "r" none "cron" 0 hrun).1

end Cronstable.Dag

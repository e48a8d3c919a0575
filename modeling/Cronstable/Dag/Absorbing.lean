import Cronstable.Dag.Invariant

/-!
# Terminal states are absorbing

No step of a pass rewrites a terminal entry, so what a terminal state depends on is the recording
of fan-outs. That path reads its list before the lock is taken and then asks for the record of the
task and the state of its source, not for the state of the placeholder, which the path for a list
over the cap does ask for. A list that comes late therefore reopens a placeholder that was already
resolved.

## Main results

* `Keeps.of_run`: a run of steps keeps every terminal state;
* `Keeps.expand`: supplied lists do, when none comes late;
* `keeps_iff_timely`: a transform keeps the terminal states of a reachable document exactly when
  none of its lists comes late, and so does every run of such transforms.
-/

namespace Cronstable.Dag

open Trace (Run)

variable {spec : DagSpec} {body body' body'' : RunBody}

/-- Every terminal entry and every terminal task keeps its state. -/
structure Keeps (spec : DagSpec) (body body' : RunBody) : Prop where
  entry : ∀ key e, body.tasks.get? key = some e → e.state.terminal = true →
    ∃ e', body'.tasks.get? key = some e' ∧ e'.state = e.state
  effective : ∀ t ∈ spec.tasks, (effectiveState spec body t.id).terminal = true →
    effectiveState spec body' t.id = effectiveState spec body t.id

namespace Keeps

lemma refl (body : RunBody) : Keeps spec body body :=
  ⟨fun _ e he _ => ⟨e, he, rfl⟩, fun _ _ _ => rfl⟩

lemma trans (h : Keeps spec body body') (h' : Keeps spec body' body'') :
    Keeps spec body body'' := by
  constructor
  · intro key e he hterm
    obtain ⟨e', he', hstate⟩ := h.entry key e he hterm
    obtain ⟨e'', he'', hstate'⟩ := h'.entry key e' he' (hstate ▸ hterm)
    exact ⟨e'', he'', hstate'.trans hstate⟩
  · intro t ht hterm
    have heq := h.effective t ht hterm
    exact (h'.effective t ht (heq ▸ hterm)).trans heq

section

variable (h : ∀ key e, body.tasks.get? key = some e → e.state.terminal = true →
  ∃ e', body'.tasks.get? key = some e' ∧ e'.state = e.state)

include h

/-- A terminal state read at a key is the state of an entry there, so it is kept. -/
private lemma stateOrPending_eq_of_entry
    {key : String}
    (hterm : (stateOrPending body.tasks key).terminal = true) :
    stateOrPending body'.tasks key = stateOrPending body.tasks key := by
  unfold stateOrPending at *
  cases hget : body.tasks.get? key with
  | none =>
    rw [hget] at hterm
    cases hterm
  | some e =>
    rw [hget] at hterm
    obtain ⟨e', he', hstate⟩ := h key e hget hterm
    rw [he']
    exact hstate

/-- While the record of a task stays, its terminal effective state is that of entries that are
terminal themselves. -/
private lemma effective_of_entry
    {id : String}
    (hmapped : body'.mapped.get? id = body.mapped.get? id)
    (hterm : (effectiveState spec body id).terminal = true) :
    effectiveState spec body' id = effectiveState spec body id := by
  rw [effectiveState_eq] at hterm
  rw [effectiveState_eq, effectiveState_eq]
  by_cases hrecord : ∃ record, body.mapped.get? id = some (some record)
  · obtain ⟨record, hrecord⟩ := hrecord
    have hall := (mappedGroupState_terminal_of_record hrecord).mp hterm
    rw [mappedGroupState_of_record hrecord, mappedGroupState_of_record (hmapped.trans hrecord)]
    unfold foldMappedInstances
    congr 2
    refine List.map_congr_left fun i hi => ?_
    exact stateOrPending_eq_of_entry h (hall i (List.mem_range.mp hi))
  · push Not at hrecord
    have hrecord' : ∀ record, body'.mapped.get? id ≠ some (some record) := fun record =>
      hmapped.symm ▸ hrecord record
    rw [mappedGroupState_of_no_record hrecord] at hterm ⊢
    rw [mappedGroupState_of_no_record hrecord']
    exact stateOrPending_eq_of_entry h hterm

end

/-! ## Steps -/

/-- A step leaves a terminal entry as it is. -/
private lemma get?_of_step {ev : Event} (h : BodyStep spec body ev body') {key : String}
    {e : TaskEntry} (hget : body.tasks.get? key = some e) (hterm : e.state.terminal = true) :
    body'.tasks.get? key = some e := by
  rcases h.get?_cases key with heq | ⟨e₀, e', he₀, -, hstep⟩ |
    ⟨-, -, -, -, -, -, -, -, -, hnone, -⟩
  · exact heq.trans hget
  · -- only live entries are rewritten
    have hlive := hstep.live
    rw [hget] at he₀
    cases he₀
    simp [TaskState.inert, hterm] at hlive
  · rw [hget] at hnone
    cases hnone

/-- A run of steps keeps every terminal state. -/
theorem of_run {events : List Event} (h : Run (BodyStep spec) body events body') :
    Keeps spec body body' := by
  refine h.rel (P := fun _ => True) (fun _ _ _ _ _ => trivial) refl (fun _ _ _ => trans) ?_
    trivial
  intro b ev b' _ hstep
  have hentry : ∀ key e, b.tasks.get? key = some e → e.state.terminal = true →
      ∃ e', b'.tasks.get? key = some e' ∧ e'.state = e.state := fun key e he hterm =>
    ⟨e, get?_of_step hstep he hterm, rfl⟩
  exact ⟨hentry, fun t _ => effective_of_entry hentry (by rw [hstep.mapped_eq])⟩

/-! ## Expansions -/

/-- Supplied lists keep every terminal state when no list comes late. -/
theorem expand (hspec : ValidSpec spec) (hwf : WF spec body) (expansions : Expansions)
    (now : Time)
    (htimely : ∀ t ∈ spec.tasks, ∀ l, expansions.get? t.id = some (some l) →
      Eligible spec body t l → ∀ e, body.tasks.get? t.id = some e → e.state.terminal = false) :
    Keeps spec body (applyExpansions spec expansions now { body }).body := by
  have heffect : ∀ t ∈ spec.tasks, ExpandEffect spec now expansions body
      (applyExpansions spec expansions now { body }).body t := fun t ht =>
    applyExpansions_task hspec expansions now { body } ht
  have hentry : ∀ key e, body.tasks.get? key = some e → e.state.terminal = true →
      ∃ e', (applyExpansions spec expansions now { body }).body.tasks.get? key = some e' ∧
        e'.state = e.state := by
    intro key e he hterm
    obtain ⟨t, ht, -, hslot⟩ := hwf.owner key e he
    cases heffect t ht with
    | same hsame => exact ⟨e, (hsame.2 key hslot.owns).trans he, rfl⟩
    | capped e₀ _ _ hnone hget hpending _ _ hinst =>
      rcases hslot.owns with rfl | ⟨i, rfl⟩
      · rw [hget] at he
        cases he
        rw [hpending] at hterm
        cases hterm
      · exact ⟨e, (hinst i).trans he, rfl⟩
    | recorded l hlist helig _ _ _ =>
      rcases hslot.owns with rfl | ⟨i, rfl⟩
      · have hopen := htimely t ht l hlist helig e he
        rw [hterm] at hopen
        cases hopen
      · -- a task without a record has no instances
        obtain ⟨-, -, hnone, -⟩ := helig
        rw [hwf.no_instance hspec ht hnone i] at he
        cases he
  refine ⟨hentry, fun t ht hterm => ?_⟩
  cases heffect t ht with
  | same hsame => exact effective_of_entry hentry hsame.1 hterm
  | capped _ _ _ _ _ _ hmapped => exact effective_of_entry hentry hmapped hterm
  | recorded l hlist helig =>
    -- before the record the effective state is the placeholder's own
    obtain ⟨e, he⟩ := hwf.entry t ht
    have hopen := htimely t ht l hlist helig e he
    obtain ⟨-, -, hnone, -⟩ := helig
    rw [Dict.contains_eq_false_iff] at hnone
    rw [effectiveState_eq, mappedGroupState_of_no_record (by simp [hnone]),
      stateOrPending_of_get? he, hopen] at hterm
    cases hterm

end Keeps

/-! ## Transforms -/

/-- The item lists a transform was given. -/
def Op.expansions : Op → Expansions
  | .plan _ _ _ expansions => expansions
  | _ => .empty

/-- No list comes late: on an open run, no list that would be recorded is for a task whose
placeholder is already terminal. -/
def Timely (spec : DagSpec) (body : RunBody) (op : Op) : Prop :=
  body.terminalRun = false → ∀ t ∈ spec.tasks, ∀ l, op.expansions.get? t.id = some (some l) →
    Eligible spec body t l → ∀ e, body.tasks.get? t.id = some e → e.state.terminal = false

/-- A transform without late lists keeps every terminal state. -/
private lemma keeps_of_timely (hspec : ValidSpec spec) (hwf : WF spec body) (op : Op)
    (htimely : Timely spec body op) : Keeps spec body (op.apply spec body) := by
  obtain ⟨start, events, hrun, -, -, hstart⟩ := op.apply_run hspec body
  refine Keeps.trans ?_ (.of_run hrun)
  rcases hstart with rfl | ⟨now, proc, host, expansions, rfl, hopen, rfl⟩
  · exact .refl _
  · exact .expand hspec hwf expansions now (htimely hopen)

/-- On an open run a list that is recorded stays recorded to the end of the pass. -/
private lemma plan_records (hspec : ValidSpec spec) (hopen : body.terminalRun = false)
    {t : TaskSpec} (ht : t ∈ spec.tasks) {expansions : Expansions} {l : List Json}
    (hlist : expansions.get? t.id = some (some l)) (helig : Eligible spec body t l) (now : Time)
    (proc host : String) :
    ((Op.plan now proc host expansions).apply spec body).mapped.contains t.id = true := by
  have hscan : isQuiescent spec body now proc expansions = false := by
    rw [← Bool.not_eq_true, isQuiescent_iff]
    rintro ⟨hnolist, -⟩
    exact hnolist t.id l hlist
  set p := applyExpansions spec expansions now { body } with hp
  have hrecord : p.body.mapped.get? t.id = some (some { items := l, expandedAt := now }) := by
    cases applyExpansions_task hspec expansions now { body } ht with
    | same _ hnot | capped _ _ _ _ _ _ _ _ _ hnot => exact absurd helig (hnot l hlist)
    | recorded l' hlist' _ hmapped =>
      rw [hlist] at hlist'
      cases hlist'
      exact hmapped
  have hchanged : p.result.changed = true := by
    by_contra hfalse
    have hsame := applyExpansions_unchanged expansions now { body } (by simpa using hfalse)
    obtain ⟨-, -, hnone, -⟩ := helig
    rw [Dict.contains_eq_false_iff] at hnone
    rw [hp, hsame, hnone] at hrecord
    cases hrecord
  -- the walks neither unmark the change nor touch the record
  have hadvances := propagateAndClaim_advances now proc host hspec p
  obtain ⟨-, hmapped, -, hmark⟩ := maybeTerminalise_tasks spec
    (propagateAndClaim spec now proc host p)
  have hstored : (maybeTerminalise spec (propagateAndClaim spec now proc host p)).result.changed =
      true := by
    by_contra hfalse
    obtain ⟨events, hpass⟩ := hadvances
    rw [(hpass.changed (hmark (by simpa using hfalse))).1] at hchanged
    cases hchanged
  have happly : ((Op.plan now proc host expansions).apply spec body).mapped =
      (maybeTerminalise spec (propagateAndClaim spec now proc host p)).body.mapped := by
    simp only [Op.apply, Op.write, planAndClaim, hopen, hscan, fullPlan, ← hp, hstored,
      Bool.false_eq_true, if_false, if_true, Option.getD_some]
  rw [happly, hmapped, hadvances.mapped_eq, Dict.contains, hrecord]
  rfl

/-- A late list reopens the placeholder it is for. -/
private lemma timely_of_keeps (hspec : ValidSpec spec) (hwf : WF spec body) (op : Op)
    (hkeeps : Keeps spec body (op.apply spec body)) : Timely spec body op := by
  intro hopen t ht l hlist helig e he
  by_contra hterm
  have hterm : e.state.terminal = true := by simpa using hterm
  obtain ⟨e', he', hstate⟩ := hkeeps.entry t.id e he hterm
  cases op with
  | plan now proc host expansions =>
    have hrecorded : ((Op.plan now proc host expansions).apply spec body).mapped.contains t.id =
        true :=
      plan_records hspec hopen ht hlist helig now proc host
    cases ((hwf.apply hspec _).slot hspec ht (.inl rfl) he').2 with
    | plain _ _ hexp =>
      obtain ⟨exp, hsome, -⟩ := helig
      rw [hexp] at hsome
      cases hsome
    | waiting _ _ _ hnone =>
      rw [hrecorded] at hnone
      cases hnone
    | group _ _ _ _ hexpanded =>
      rw [← hstate, hexpanded] at hterm
      cases hterm
    | inst i _ _ _ hkey => exact instanceKey_ne (hspec.no_hash t ht) i hkey.symm
  | _ => cases hlist

/-- When terminal states are absorbing. A transform keeps every terminal state of a reachable
document exactly when none of its lists comes late, and a run of such transforms keeps every
terminal state it passes. -/
theorem keeps_iff_timely (hvalid : validateGraph spec = .ok ()) (hreach : Reachable spec body) :
    (∀ op, Keeps spec body (op.apply spec body) ↔ Timely spec body op) ∧
      ∀ ops body', Run (Guarded spec (Timely spec)) body ops body' → Keeps spec body body' := by
  have hspec := validSpec_of_validateGraph hvalid
  constructor
  · intro op
    exact ⟨timely_of_keeps hspec (hreach.wf hspec) op,
      keeps_of_timely hspec (hreach.wf hspec) op⟩
  · intro ops body' hrun
    refine hrun.rel (P := Reachable spec) ?_ Keeps.refl (fun _ _ _ => Keeps.trans) ?_ hreach
    · rintro b op b' hb ⟨-, rfl⟩
      exact .step op hb
    · rintro b op b' hb ⟨htimely, rfl⟩
      exact keeps_of_timely hspec (hb.wf hspec) op htimely

/-! ## A late list -/

/-- A mapped task that also waits for a second task, next to an unrelated one. -/
def lateSpec : DagSpec :=
  { name := "late"
    tasks := [
      { id := "src" },
      { id := "other" },
      { id := "m", dependsOn := ["src", "other"]
        expand := some { fromTask := "src", key := "items" } },
      { id := "free" }] }

/-- The source succeeded and the second task failed; the item list could not be read at that
pass, so the placeholder was resolved. The unrelated task keeps the run open. -/
def lateBody : RunBody :=
  applyAll lateSpec
    [.plan 1 "p" "h" .empty,
     .finish [
        { taskkey := "src", success := true, task := { id := "src" } },
        { taskkey := "other", success := false, task := { id := "other" } }] 2,
     .plan 3 "p" "h" (Dict.ofList [("m", none)])]
    (newRunBody "late" "k" "r" none "cron" 0 lateSpec)

/-- The list another node read before that pass. -/
def lateOp : Op := .plan 4 "q" "g" (Dict.ofList [("m", some [.num 1])])

/-- The late list moves the placeholder from `upstream_failed` to `expanded`. -/
theorem lateBody_not_keeps :
    validateGraph lateSpec = .ok () ∧ Reachable lateSpec lateBody ∧
      lateBody.stateAt "m" = some .upstreamFailed ∧
      (lateOp.apply lateSpec lateBody).stateAt "m" = some .expanded ∧
      ¬ Keeps lateSpec lateBody (lateOp.apply lateSpec lateBody) := by
  have hbefore : lateBody.stateAt "m" = some .upstreamFailed := by decide +kernel
  have hafter : (lateOp.apply lateSpec lateBody).stateAt "m" = some .expanded := by
    decide +kernel
  refine ⟨by decide +kernel, (Reachable.fresh ..).applyAll _, hbefore, hafter, fun hkeeps => ?_⟩
  obtain ⟨e, he, hstate⟩ := Option.map_eq_some_iff.mp hbefore
  obtain ⟨e', he', hsame⟩ := hkeeps.entry "m" e he (by rw [hstate]; rfl)
  rw [RunBody.stateAt, he', Option.map_some, hsame, hstate] at hafter
  cases hafter

/-- Without its late list the same transform keeps the placeholder as it was resolved. -/
theorem keeps_iff_timely_lateBody :
    Keeps lateSpec lateBody ((Op.plan 4 "q" "g" .empty).apply lateSpec lateBody) := by
  refine ((keeps_iff_timely (by decide +kernel) ((Reachable.fresh ..).applyAll _)).1 _).mpr ?_
  intro _ t _ l hlist
  cases hlist

end Cronstable.Dag

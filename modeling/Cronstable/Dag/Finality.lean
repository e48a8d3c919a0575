import Cronstable.Dag.Fused

/-!
# The end of a run

`_maybe_terminalise` ends a run when no task holds it open, as failed when an entry or an instance
failed. The passes, the recovery and the release of claims look at the state of the run and leave
an ended one alone. The other transforms look at entries only, and rewrite those in flight; an ended
run has none, since all of its entries are terminal or markers of a fan-out.

`ended_exact_and_final` is the result, for every sequence of transforms.
-/

namespace Cronstable.Dag

open Op CompletionMark

variable {spec : DagSpec} {body : RunBody}

/-- One transform of a run document: one of the batched ones, or the write of a single pid or a
single completion. -/
inductive Transform
  | op (o : Op)
  | taskPid (w : PidWrite) (now : Time)
  | taskFinished (m : CompletionMark) (now : Time)

/-- The document stored after a transform. -/
def Transform.apply (spec : DagSpec) (body : RunBody) : Transform → RunBody
  | .op o => o.apply spec body
  | .taskPid w now => (setTaskPid w now body).1.getD body
  | .taskFinished m now => (markTaskFinished m now body).1.getD body

/-- A failure among the entries of a task. -/
def Fails (body : RunBody) (t : TaskSpec) : Prop :=
  ∃ key e, Owns t.id key ∧ body.tasks.get? key = some e ∧ e.state.failure = true

/-- The run is over: no task holds it open, and its state says whether one failed. -/
def Ended (spec : DagSpec) (body : RunBody) : Prop :=
  terminalScan body spec.tasks false = some (decide (body.state = .failed))

/-! ## The scan -/

/-- A task without a recorded fan-out fails by its own entry. -/
private lemma fails_of_no_record (hspec : ValidSpec spec) (hwf : WF spec body) {t : TaskSpec}
    (ht : t ∈ spec.tasks) (hnone : body.mapped.get? t.id = none) {e : TaskEntry}
    (he : body.tasks.get? t.id = some e) : Fails body t ↔ e.state.failure = true := by
  constructor
  · rintro ⟨key, e', rfl | ⟨i, rfl⟩, hget, hfail⟩
    · rw [he] at hget
      cases hget
      exact hfail
    · have habsent := hwf.no_instance hspec ht (Dict.contains_eq_false_iff.mpr hnone) i
      rw [habsent] at hget
      cases hget
  · exact fun hfail => ⟨t.id, e, .inl rfl, he, hfail⟩

/-- A task with a recorded fan-out fails by its instances: its own entry is the group's marker. -/
private lemma fails_of_record (hspec : ValidSpec spec) (hwf : WF spec body) {t : TaskSpec}
    (ht : t ∈ spec.tasks) {record : MapRecord}
    (hrecord : body.mapped.get? t.id = some (some record)) :
    Fails body t ↔ ∃ i < record.items.length,
      (stateOrPending body.tasks (instanceKey t.id i)).failure = true := by
  constructor
  · rintro ⟨key, e, hown, hget, hfail⟩
    cases (hwf.slot hspec ht hown hget).2 with
    | plain _ _ hexp =>
      obtain ⟨u, hu, hid, hmapped, -⟩ := hwf.recorded t.id _ hrecord
      rw [hspec.eq_of_id hu ht hid, hexp] at hmapped
      cases hmapped
    | waiting _ _ _ hnone =>
      rw [Dict.contains_eq_false_iff, hrecord] at hnone
      cases hnone
    | group _ _ _ _ hstate =>
      rw [hstate] at hfail
      cases hfail
    | inst i record' hrecord' hlt hkey =>
      rw [hrecord] at hrecord'
      cases hrecord'
      subst hkey
      exact ⟨i, hlt, by rwa [stateOrPending_of_get? hget]⟩
  · rintro ⟨i, hlt, hfail⟩
    obtain ⟨e, he⟩ := hwf.no_hole hrecord hlt
    rw [stateOrPending_of_get? he] at hfail
    exact ⟨_, e, .inr ⟨i, rfl⟩, he, hfail⟩

/-- When the scan reaches its end, what it found is what the entries say. -/
private lemma terminalScan_failed (hspec : ValidSpec spec) (hwf : WF spec body)
    {tasks : List TaskSpec} (htasks : ∀ t ∈ tasks, t ∈ spec.tasks) {failed result : Bool}
    (h : terminalScan body tasks failed = some result) :
    result = true ↔ failed = true ∨ ∃ t ∈ tasks, Fails body t := by
  induction tasks generalizing failed with
  | nil =>
    cases h
    simp
  | cons t tasks ih =>
    obtain ⟨ht, htasks⟩ := List.forall_mem_cons.mp htasks
    rw [List.exists_mem_cons_iff, ← or_assoc]
    unfold terminalScan at h
    cases hmapped : body.mapped.get? t.id with
    | none =>
      obtain ⟨e, he⟩ := hwf.entry t ht
      simp only [hmapped, he] at h
      split_ifs at h with hterm
      rw [ih htasks h, fails_of_no_record hspec hwf ht hmapped he, Bool.or_eq_true]
    | some r =>
      obtain ⟨-, -, -, -, record, rfl, -⟩ := hwf.recorded t.id r hmapped
      simp only [hmapped, Option.elim_some] at h
      obtain ⟨hholds, h⟩ := Option.ite_none_left_eq_some.mp h
      -- no instance holds the fold, so it has seen them all
      have hall : ∀ s ∈ (List.range record.items.length).map fun i =>
          stateOrPending body.tasks (instanceKey t.id i), s.terminal = true := by
        intro s hs
        by_contra hopen
        exact hholds ((reduceStates_holds _ false false).mpr ⟨s, hs, by simpa using hopen⟩)
      rw [ih htasks h, fails_of_record hspec hwf ht hmapped, Bool.or_eq_true, foldMappedInstances,
        (reduceStates_saw false false hall).1]
      simp

/-! ## An ended run -/

lemma Ended.closed (h : Ended spec body) {t : TaskSpec} (ht : t ∈ spec.tasks) :
    ¬ HoldsOpen body t := by
  intro hopen
  have hnone : terminalScan body spec.tasks false = none :=
    terminalScan_eq_none.mpr ⟨t, ht, hopen⟩
  rw [h] at hnone
  cases hnone

section Ended

variable (hspec : ValidSpec spec) (hwf : WF spec body) (h : Ended spec body)
include hspec hwf h

omit hspec in
/-- The state that a dependency check sees for a task is terminal. -/
theorem Ended.effectiveState_terminal {t : TaskSpec} (ht : t ∈ spec.tasks) :
    (effectiveState spec body t.id).terminal = true := by
  have hclosed := h.closed ht
  rw [effectiveState_eq]
  cases hmapped : body.mapped.get? t.id with
  | none =>
    obtain ⟨e, he⟩ := hwf.entry t ht
    rw [mappedGroupState_of_no_record (by simp [hmapped]), stateOrPending_of_get? he]
    by_contra hopen
    refine hclosed ?_
    simp only [HoldsOpen, hmapped]
    exact ⟨e, he, by simpa using hopen⟩
  | some r =>
    obtain ⟨-, -, -, -, record, rfl, -⟩ := hwf.recorded t.id r hmapped
    rw [mappedGroupState_terminal_of_record hmapped]
    intro i hi
    by_contra hopen
    refine hclosed ?_
    simp only [HoldsOpen, hmapped]
    exact ⟨i, hi, by simpa using hopen⟩

/-- No entry is in flight. -/
theorem Ended.not_running {key : String} {e : TaskEntry} (he : body.tasks.get? key = some e) :
    e.state ≠ .running := by
  intro hrunning
  obtain ⟨t, ht, -, hslot⟩ := hwf.owner key e he
  apply h.closed ht
  unfold HoldsOpen
  cases hslot with
  | plain hkey _ hexp =>
    cases hmapped : body.mapped.get? t.id with
    | none => exact ⟨e, hkey ▸ he, by rw [hrunning]; rfl⟩
    | some r =>
      obtain ⟨u, hu, hid, hsome, -⟩ := hwf.recorded t.id r hmapped
      rw [hspec.eq_of_id hu ht hid, hexp] at hsome
      cases hsome
  | waiting _ _ _ _ hstate =>
    rw [hrunning] at hstate
    rcases hstate with hstate | ⟨hstate, -⟩ <;> cases hstate
  | group _ _ _ _ hstate =>
    rw [hrunning] at hstate
    cases hstate
  | inst i record hrecord hlt hkey =>
    rw [hrecord]
    refine ⟨i, hlt, ?_⟩
    rw [stateOrPending_of_get? (hkey ▸ he), hrunning]
    rfl

/-- A batch of writes to entries in flight finds none. -/
private lemma Ended.storeBatch_none {α : Type} (key : α → String)
    (write : α → TaskEntry → Option TaskEntry)
    (hwrite : ∀ a e e', write a e = some e' → e.state = .running) (elements : List α)
    (now : Time) : (storeBatch body now (applyBatch key write elements body.tasks)).1 = none := by
  have hnone : applyBatch key write elements body.tasks = (body.tasks, []) := by
    refine List.foldlRecOn (motive := (· = (body.tasks, []))) _ _ rfl ?_
    rintro _ rfl a -
    cases hbind : (body.tasks.get? (key a)).bind (write a) with
    | none => rfl
    | some e' =>
      obtain ⟨e, he, he'⟩ := Option.bind_eq_some_iff.mp hbind
      exact absurd (hwrite a e e' he') (h.not_running hspec hwf he)
  simp [hnone, storeBatch]

/-- Every transform leaves an ended run as it is. -/
theorem Ended.apply_eq (hterm : body.terminalRun = true) (op : Op) : op.apply spec body = body := by
  cases op with
  | plan => simp [apply, write, planAndClaim, hterm]
  | reconcilePlan => simp [apply, write, reconcileAndPlan, hterm]
  | reconcile => simp [apply, write, reconcileCrashed, hterm]
  | release => simp [apply, write, releaseLostClaims, hterm]
  | pids entries now =>
    have hnone := h.storeBatch_none hspec hwf PidWrite.taskkey (writePid now)
      (fun _ _ _ hwrite => (writePid_eq_some.mp hwrite).1) entries now
    simp [apply, write, setTaskPids, hnone]
  | finish marks now =>
    have hnone := h.storeBatch_none hspec hwf taskkey (finishEntry now)
      (fun _ _ _ hwrite => (finishEntry_eq_some.mp hwrite).1) marks now
    simp [apply, write, markTasksFinished, hnone]
  | approve taskkey approved decidedBy now onReject =>
    cases he : body.tasks.get? taskkey with
    | none => simp [apply, write, applyApproval, he]
    | some e => simp [apply, write, applyApproval, he, h.not_running hspec hwf he]

end Ended

/-! ## Runs -/

/-- A pass leaves the state of the run. -/
private lemma Advances.state_eq {p q : Pass} (h : Advances spec p q) :
    q.body.state = p.body.state := by
  obtain ⟨events, hpass⟩ := h
  refine hpass.run.history (P := fun b _ => b.state = p.body.state) rfl ?_
  intro b _ ev b' hev hb hstep
  cases hstep with
  | entry | hole | recover => exact hb
  | stamp => cases hpass.inPass _ hev

/-- The scan reads neither the state of the run nor its time. -/
private lemma terminalScan_stamped (body : RunBody) (tasks : List TaskSpec) (failed : Bool)
    (state : TaskState) (updatedAt : Time) :
    terminalScan { body with state, updatedAt } tasks failed = terminalScan body tasks failed := by
  induction tasks generalizing failed with
  | nil => rfl
  | cons t tasks ih => simp only [terminalScan, ih]

/-- Terminalising leaves the state of the run, or ends it. -/
private lemma maybeTerminalise_ended (p : Pass) (now : Time) :
    (maybeTerminalise spec p).body.state = p.body.state ∨
      Ended spec { (maybeTerminalise spec p).body with updatedAt := now } := by
  unfold maybeTerminalise
  cases hscan : terminalScan p.body spec.tasks false with
  | none => exact .inl rfl
  | some failed =>
    have hsame := terminalScan_stamped p.body spec.tasks false
      (if failed then .failed else .success) now
    refine .inr ((hsame.trans hscan).trans ?_)
    cases failed <;> rfl

private lemma storeBatch_state {α : Type} (now : Time) (batch : Dict String TaskEntry × List α) :
    ((storeBatch body now batch).1.getD body).state = body.state := by
  unfold storeBatch
  split_ifs <;> rfl

/-- A transform leaves the state of the run, or ends it. -/
private lemma Op.apply_ended (hspec : ValidSpec spec) (op : Op) :
    (op.apply spec body).state = body.state ∨ Ended spec (op.apply spec body) := by
  have hpass (now : Time) (proc host : String) (p : Pass) (hp : p.body.state = body.state) :
      (maybeTerminalise spec (propagateAndClaim spec now proc host p)).body.state = body.state ∨
        Ended spec { (maybeTerminalise spec (propagateAndClaim spec now proc host p)).body with
          updatedAt := now } := by
    have hstate := (propagateAndClaim_advances now proc host hspec p).state_eq.trans hp
    exact hstate ▸ maybeTerminalise_ended _ now
  cases op with
  | plan now proc host expansions =>
    have hstart := (applyExpansions_result spec expansions now { body }).2.2
    simp only [apply, write, planAndClaim]
    split_ifs <;> first | exact .inl rfl | exact hpass now proc host _ hstart
  | reconcilePlan now proc host alive =>
    simp only [apply, write, reconcileAndPlan]
    split_ifs <;> first | exact .inl rfl | exact hpass now proc host _ rfl
  | reconcile now proc host alive =>
    simp only [apply, write, reconcileCrashed]
    split_ifs <;> exact .inl rfl
  | release claims now =>
    simp only [apply, write, releaseLostClaims]
    split_ifs
    · exact .inl rfl
    · exact .inl (storeBatch_state now _)
  | pids entries now => exact .inl (storeBatch_state now _)
  | finish marks now =>
    exact .inl (storeBatch_state now
      (applyBatch taskkey (finishEntry now) marks body.tasks))
  | approve taskkey approved decidedBy now onReject =>
    simp only [apply, write, applyApproval]
    split
    · exact .inl rfl
    · split_ifs <;> exact .inl rfl

/-- A run whose state is terminal is over. -/
private lemma Reachable.ended (hspec : ValidSpec spec) (hreach : Reachable spec body)
    (hterm : body.terminalRun = true) : Ended spec body := by
  induction hreach with
  | fresh => cases hterm
  | @step body op hreach ih =>
    by_cases hbefore : body.terminalRun = true
    · have hended := ih hbefore
      rwa [hended.apply_eq hspec (hreach.wf hspec) hbefore op]
    · refine (op.apply_ended hspec).resolve_left fun hstate => hbefore ?_
      rwa [RunBody.terminalRun, hstate] at hterm

/-- The single transforms are batches of one. -/
private lemma Transform.exists_op (tr : Transform) :
    ∃ op : Op, ∀ body, tr.apply spec body = op.apply spec body := by
  cases tr with
  | op o => exact ⟨o, fun _ => rfl⟩
  | taskPid w now =>
    refine ⟨.pids [w] now, fun body => ?_⟩
    have hbatch := storeBatch_eq_applySingles PidWrite.taskkey (writePid now) now [w] body
    rw [Transform.apply, setTaskPid_eq]
    exact (congrArg Prod.fst hbatch).symm
  | taskFinished m now =>
    -- the single write takes neither verification nor limits
    let m' : CompletionMark := { m with verification := none, limits := none }
    refine ⟨.finish [m'] now, fun body => ?_⟩
    have hbatch := storeBatch_eq_applySingles taskkey (finishEntry now) now [m'] body
    have hsingle : markTaskFinished m now body = markTaskFinished m' now body := rfl
    rw [Transform.apply, hsingle, markTaskFinished_eq rfl rfl]
    exact (congrArg Prod.fst hbatch).symm

/-- The terminal state of a run is exact and final. Whatever transforms led there, every task's
effective state is terminal, the run is failed exactly when an entry or an instance of a task
failed, and every transform leaves the document as it is. -/
theorem ended_exact_and_final (hvalid : validateGraph spec = .ok ()) (dag runKey runId : String)
    (logicalDate : Option String) (kind : String) (now : Time) (transforms : List Transform) :
    let body := transforms.foldl (Transform.apply spec)
      (newRunBody dag runKey runId logicalDate kind now spec)
    body.state = .success ∨ body.state = .failed →
      (∀ t ∈ spec.tasks, (effectiveState spec body t.id).terminal = true) ∧
        (body.state = .failed ↔ ∃ t ∈ spec.tasks, ∃ key e, Owns t.id key ∧
          body.tasks.get? key = some e ∧ (e.state = .failed ∨ e.state = .upstreamFailed)) ∧
        ∀ tr : Transform, tr.apply spec body = body := by
  intro body hstate
  have hspec := validSpec_of_validateGraph hvalid
  have hreach : Reachable spec body := by
    refine List.foldlRecOn (motive := Reachable spec) transforms _ (.fresh ..) fun b hb tr _ => ?_
    obtain ⟨op, hop⟩ := tr.exists_op
    rw [hop]
    exact .step op hb
  have hterm : body.terminalRun = true := by simpa [RunBody.terminalRun] using hstate
  have hwf := hreach.wf hspec
  have hended := hreach.ended hspec hterm
  refine ⟨fun t ht => hended.effectiveState_terminal hwf ht, ?_, fun tr => ?_⟩
  · have hfailed := terminalScan_failed hspec hwf (fun _ => id) hended
    rw [decide_eq_true_eq] at hfailed
    rw [hfailed]
    have hfailure : ∀ s : TaskState, s.failure = true ↔ s = .failed ∨ s = .upstreamFailed := by
      rintro ⟨⟩ <;> simp
    simp [Fails, hfailure]
  · obtain ⟨op, hop⟩ := tr.exists_op
    rw [hop]
    exact hended.apply_eq hspec hwf hterm op

/-- The first task of the chain fails, and with it the run. -/
theorem ended_exact_and_final_chain :
    let body := [Transform.op (.plan 1 "p" "h" .empty),
        .taskFinished { taskkey := "a", success := false, task := { id := "a" } } 2,
        .op (.plan 3 "p" "h" .empty)].foldl (Transform.apply chainSpec)
      (newRunBody "chain" "k" "r" none "cron" 0 chainSpec)
    body.state = .failed ∧ ∀ tr : Transform, tr.apply chainSpec body = body := by
  intro body
  have hfailed : body.state = .failed := by decide +kernel
  exact ⟨hfailed, (ended_exact_and_final (by decide +kernel) "chain" "k" "r" none "cron" 0 _
    (.inr hfailed)).2.2⟩

end Cronstable.Dag

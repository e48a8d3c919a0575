import Cronstable.Dag.Quiescent

/-!
# Holes in a recorded fan-out

A damaged document can record an index of a fan-out without holding its entry. The claim walk
materialises such an entry as failed, so that the run can finish. The walk is only reached when
the pre-scan lets it, and the pre-scan reads the stored entries alone: a hole next to nothing but
inert entries, one of which holds the run open, is never looked at.

Nothing here assumes the shape of a reachable document: the results are about every document that
passes the null check.

## Main results

* `propagateAndClaim_fills`: the claim pass fills every hole of the DAG's tasks;
* `repaired_iff_unsettled`: both advance transforms repair the holes of a document exactly when
  some entry is neither settled nor parked, or none is parked.
-/

namespace Cronstable.Dag

open List Option Dict

open Trace (Run)

variable {spec : DagSpec} {body body' : RunBody} {now : Time} {proc host : String}

/-- A recorded index of a task without an entry. -/
def Hole (body : RunBody) (t : TaskSpec) (i : ℕ) : Prop :=
  ∃ record, body.mapped.get? t.id = some (some record) ∧ i < record.items.length ∧
    body.tasks.get? (instanceKey t.id i) = none

/-- Every hole of the first document is an entry in state failed in the second. -/
def Repaired (spec : DagSpec) (body body' : RunBody) : Prop :=
  ∀ t ∈ spec.tasks, ∀ i, Hole body t i →
    ∃ e, body'.tasks.get? (instanceKey t.id i) = some e ∧ e.state = .failed

/-- Some stored entry is neither settled nor parked, or none is parked. -/
def Unsettled (spec : DagSpec) (body : RunBody) (now : Time) (proc : String) : Prop :=
  (∃ key e, body.tasks.get? key = some e ∧ ¬ Settled spec body e ∧
      ¬ Parked spec body now proc key e) ∨
    ∀ key e, body.tasks.get? key = some e → ¬ Parked spec body now proc key e

/-! ## What runs do to holes -/

variable {key : String}

/-- A key that is present stays present. -/
private lemma present_of_step {ev : Event} (h : BodyStep spec body ev body')
    (hkey : body.tasks.contains key = true) : body'.tasks.contains key = true := by
  obtain ⟨e, he⟩ := contains_iff.mp hkey
  rcases h.get?_cases key with heq | ⟨-, e', -, he', -⟩ | ⟨-, -, -, -, -, -, -, -, -, hnone, -⟩
  · exact contains_iff.mpr ⟨e, heq.trans he⟩
  · exact contains_iff.mpr ⟨e', he'⟩
  · rw [he] at hnone
    cases hnone

variable {p : Pass}

lemma Advances.present {q : Pass} (h : Advances spec p q)
    (hkey : p.body.tasks.contains key = true) : q.body.tasks.contains key = true := by
  obtain ⟨events, h⟩ := h
  exact h.run.invariant (P := fun b => b.tasks.contains key = true)
    (fun b ev b' hb hstep => present_of_step hstep hb) hkey

/-- A missing entry stays missing or is materialised as failed, and then stays so. -/
private lemma missing_of_step {ev : Event} (h : BodyStep spec body ev body')
    (hkey : ∀ e, body.tasks.get? key = some e → e.state = .failed) :
    ∀ e, body'.tasks.get? key = some e → e.state = .failed := by
  intro e' he'
  rcases h.get?_cases key with heq | ⟨e, e'', he, -, hstep⟩ |
    ⟨task, record, i, item, now, -, -, -, -, -, hnew⟩
  · exact hkey e' (heq ▸ he')
  · have hlive := hstep.live
    rw [hkey e he] at hlive
    cases hlive
  · rw [he'] at hnew
    cases hnew
    rfl

lemma Advances.missing {q : Pass} (h : Advances spec p q) (hkey : p.body.tasks.get? key = none) :
    ∀ e, q.body.tasks.get? key = some e → e.state = .failed := by
  obtain ⟨events, h⟩ := h
  refine h.run.invariant (P := fun b => ∀ e, b.tasks.get? key = some e → e.state = .failed)
    (fun b ev b' hb hstep => missing_of_step hstep hb) ?_
  intro e he
  rw [hkey] at he
  cases he

/-! ## The walk fills every hole -/

/-- After an instance was visited its entry is present. -/
private lemma walkInstance_present (t : TaskSpec) (s : Pass × Option Verdict)
    {inst : Instance} (hindex : inst.mapIndex ≠ none) :
    (walkInstance spec now proc host t s inst).1.body.tasks.contains inst.key = true := by
  unfold walkInstance
  cases hget : s.1.body.tasks.get? inst.key with
  | none =>
    cases hi : inst.mapIndex with
    | none => exact absurd hi hindex
    | some i => simp [hget, resolveMissingInstance]
  | some e => simp [hget]

/-- Visiting an instance keeps every present key. -/
private lemma walkInstance_keeps (t : TaskSpec) (s : Pass × Option Verdict) (inst : Instance)
    (hkey : s.1.body.tasks.contains key = true) :
    (walkInstance spec now proc host t s inst).1.body.tasks.contains key = true := by
  unfold walkInstance
  cases hget : s.1.body.tasks.get? inst.key with
  | none =>
    cases hi : inst.mapIndex with
    | none => simpa [hget, hi] using hkey
    | some i => simp [hget, resolveMissingInstance, hkey]
  | some e => simp [hget, hkey]

/-- After the instances of a list were visited, each has its entry. -/
private lemma foldl_walkInstance_present (t : TaskSpec) (insts : List Instance)
    (s : Pass × Option Verdict) {inst : Instance} (hinst : inst ∈ insts)
    (hindex : inst.mapIndex ≠ none) :
    (insts.foldl (walkInstance spec now proc host t) s).1.body.tasks.contains inst.key =
      true := by
  obtain ⟨before, after, rfl⟩ := append_of_mem hinst
  rw [foldl_append]
  exact List.foldlRecOn (motive := fun s : Pass × Option Verdict =>
      s.1.body.tasks.contains inst.key = true) after _
    (walkInstance_present t _ hindex) fun s hs b _ => walkInstance_keeps t s b hs

/-- Advancing a task with a recorded fan-out leaves no hole in it. -/
private lemma walkTask_present {t : TaskSpec} {record : MapRecord}
    (hrecord : p.body.mapped.get? t.id = some (some record)) {i : ℕ}
    (hi : i < record.items.length) :
    (walkTask spec now proc host p t).body.tasks.contains (instanceKey t.id i) = true := by
  have hcontains : p.body.mapped.contains t.id = true := contains_iff.mpr ⟨_, hrecord⟩
  have hinst : Instance.mk (instanceKey t.id i) (some i) (some record.items[i]) ∈
      instancesOf p.body t := by
    simp only [instancesOf, hrecord, List.mem_map]
    refine ⟨(record.items[i], i), ?_, rfl⟩
    exact List.mem_zipIdx_iff_getElem?.mpr (List.getElem?_eq_getElem hi)
  simp only [walkTask, hcontains, Bool.not_true, Bool.and_false, Bool.false_eq_true, if_false]
  exact foldl_walkInstance_present t _ _ hinst (Option.some_ne_none i)

/-- The claim pass fills every hole. -/
theorem propagateAndClaim_fills (now : Time) (proc host : String) (hspec : ValidSpec spec)
    {t : TaskSpec} (ht : t ∈ spec.tasks) {i : ℕ} (hhole : Hole p.body t i) :
    ∃ e, (propagateAndClaim spec now proc host p).body.tasks.get? (instanceKey t.id i) = some e ∧
      e.state = .failed := by
  obtain ⟨record, hrecord, hi, hnone⟩ := hhole
  have hadvances := propagateAndClaim_advances now proc host hspec p
  -- the first walk reaches the task, and what it fills stays
  have hwalk : (walkAndClaim spec now proc host p).body.tasks.contains (instanceKey t.id i) =
      true := by
    obtain ⟨before, after, hsplit⟩ := append_of_mem ht
    have hmem : ∀ u, u ∈ before ∨ u ∈ after → u ∈ spec.tasks := by
      intro u hu
      rw [hsplit]
      simp only [mem_append, mem_cons]
      tauto
    rw [walkAndClaim, hsplit, foldl_append]
    have hbefore : Advances spec p (before.foldl (walkTask spec now proc host) p) :=
      .foldl (fun q u hu =>
        (walkTask_touches now proc host hspec (hmem u (.inl hu)) q).advances) p
    have hafter := fun q => Advances.foldl (f := walkTask spec now proc host) (l := after)
      (fun q u hu => (walkTask_touches now proc host hspec (hmem u (.inr hu)) q).advances) q
    refine (hafter _).present (walkTask_present ?_ hi)
    rw [hbefore.mapped_eq]
    exact hrecord
  have hpresent := (claimLoop_advances now proc host hspec (claimFuel spec p.body) p.result.ended
    (walkAndClaim spec now proc host p)).present hwalk
  obtain ⟨e, he⟩ := contains_iff.mp hpresent
  exact ⟨e, he, hadvances.missing hnone e he⟩

/-- A claim half that starts from a document with a hole reports a change and fills all holes. -/
private lemma claimHalf_repairs (now : Time) (proc host : String) (hspec : ValidSpec spec)
    (hhole : ∃ t ∈ spec.tasks, ∃ i, Hole p.body t i) :
    (maybeTerminalise spec (propagateAndClaim spec now proc host p)).result.changed = true ∧
      Repaired spec p.body
        (maybeTerminalise spec (propagateAndClaim spec now proc host p)).body := by
  obtain ⟨htasks, -, -, hchanged⟩ :=
    maybeTerminalise_tasks spec (propagateAndClaim spec now proc host p)
  constructor
  · by_contra hfalse
    obtain ⟨t, ht, i, hhole⟩ := hhole
    obtain ⟨e, he, -⟩ := propagateAndClaim_fills now proc host hspec ht hhole
    -- an unchanged pass made no step, so the hole would still be there
    have hsame := (propagateAndClaim_advances now proc host hspec p).eq_of_unchanged
      (hchanged (by simpa using hfalse))
    obtain ⟨-, -, -, hnone⟩ := hhole
    rw [hsame, hnone] at he
    cases he
  · intro t ht i hhole
    rw [htasks]
    exact propagateAndClaim_fills now proc host hspec ht hhole

/-! ## Recovery and expansion -/

section Reconcile

variable (spec now proc host) (isPidAlive : ℤ → Bool) (body)

/-- The recovery neither makes an entry pending or successful nor takes that from it. -/
private lemma reconcileEntry_state (e : TaskEntry) {state : TaskState}
    (hstate : state = .pending ∨ state = .success) :
    (reconcileEntry spec now proc host isPidAlive e).state = state ↔ e.state = state := by
  unfold reconcileEntry
  split
  next hcrash =>
    have hrunning := (running_of_crashed hcrash).1
    have hne : e.state ≠ state := by rcases hstate with rfl | rfl <;> rw [hrunning] <;> decide
    refine iff_of_false ?_ hne
    unfold reconcileOne
    split_ifs
    · exact hne
    · rcases hstate with rfl | rfl <;> simp
    · rcases hstate with rfl | rfl <;> simp
  next => rfl

/-- The recovery leaves the successful tasks as they are. -/
private lemma reconcileEntries_success (id : String) :
    effectiveState spec (reconcileEntries spec now proc host isPidAlive body).1 id = .success ↔
      effectiveState spec body id = .success := by
  have hstate : ∀ key, stateOrPending
      (reconcileEntries spec now proc host isPidAlive body).1.tasks key = .success ↔
        stateOrPending body.tasks key = .success := by
    intro key
    simp only [stateOrPending, reconcileEntries, get?_mapVal]
    cases body.tasks.get? key with
    | none => rfl
    | some e => exact reconcileEntry_state spec now proc host isPidAlive e (.inr rfl)
  rw [effectiveState_eq, effectiveState_eq]
  have hmapped : (reconcileEntries spec now proc host isPidAlive body).1.mapped = body.mapped :=
    rfl
  by_cases hrecord : ∃ record, body.mapped.get? id = some (some record)
  · obtain ⟨record, hrecord⟩ := hrecord
    rw [mappedGroupState_success_of_record (hmapped ▸ hrecord),
      mappedGroupState_success_of_record hrecord]
    simp only [hstate]
  · push Not at hrecord
    rw [mappedGroupState_of_no_record (hmapped ▸ hrecord), mappedGroupState_of_no_record hrecord]
    exact hstate id

/-- The recovery changes nothing about which tasks await their item list. -/
theorem tasksAwaitingExpansion_reconcileEntries :
    tasksAwaitingExpansion spec (reconcileEntries spec now proc host isPidAlive body).1 =
      tasksAwaitingExpansion spec body := by
  have hpending : ∀ id,
      ((reconcileEntries spec now proc host isPidAlive body).1.tasks.get? id).any
        (·.state != .pending) = (body.tasks.get? id).any (·.state != .pending) := by
    intro id
    simp only [reconcileEntries, get?_mapVal]
    cases body.tasks.get? id with
    | none => rfl
    | some e =>
      have h : (reconcileEntry spec now proc host isPidAlive e).state = .pending ↔
          e.state = .pending :=
        reconcileEntry_state spec now proc host isPidAlive e (.inl rfl)
      rw [Bool.eq_iff_iff]
      simp [h]
  have hterminal : (reconcileEntries spec now proc host isPidAlive body).1.terminalRun =
      body.terminalRun := rfl
  have hmapped : (reconcileEntries spec now proc host isPidAlive body).1.mapped = body.mapped :=
    rfl
  unfold tasksAwaitingExpansion
  simp only [hterminal, hmapped, hpending, reconcileEntries_success]

end Reconcile

/-! ## Both transforms -/

/-- With no list to record, the pre-scan fails exactly when the document is unsettled. -/
private lemma isQuiescent_empty (hawait : tasksAwaitingExpansion spec body = []) :
    isQuiescent spec body now proc .empty = false ↔ Unsettled spec body now proc := by
  have hiff : isQuiescent spec body now proc .empty = true ↔ ¬ Unsettled spec body now proc := by
    rw [isQuiescent_iff]
    simp only [ne_eq, entryQuiescence_eq_act, entryQuiescence_eq_blocked]
    constructor
    · rintro ⟨-, -, hact, key, e, hget, hparked⟩ (⟨key', e', hget', hact'⟩ | hnone)
      · exact hact key' e' hget' hact'
      · exact hnone key e hget hparked
    · intro h
      obtain ⟨hact, hparked⟩ := not_or.mp h
      refine ⟨fun id items => by simp, hawait, fun key e hget hneither => ?_, ?_⟩
      · exact hact ⟨key, e, hget, hneither⟩
      · push Not at hparked
        exact hparked
  rw [← Bool.not_eq_true, hiff, not_not]

/-- A document is not its own repair. -/
private lemma not_repaired_self (hhole : ∃ t ∈ spec.tasks, ∃ i, Hole body t i) :
    ¬ Repaired spec body body := by
  intro h
  obtain ⟨t, ht, i, hhole⟩ := hhole
  obtain ⟨e, he, -⟩ := h t ht i hhole
  obtain ⟨-, -, -, hnone⟩ := hhole
  rw [hnone] at he
  cases he

/-- `plan_and_claim` without lists repairs the holes exactly when the document is unsettled. -/
private lemma planAndClaim_repairs_iff (now : Time) (proc host : String)
    (hspec : ValidSpec spec) (hopen : body.terminalRun = false)
    (hawait : tasksAwaitingExpansion spec body = [])
    (hhole : ∃ t ∈ spec.tasks, ∃ i, Hole body t i) :
    Repaired spec body ((planAndClaim spec now proc host .empty body).1.getD body) ↔
      Unsettled spec body now proc := by
  rw [← isQuiescent_empty hawait]
  unfold planAndClaim
  rw [hopen]
  cases hquiet : isQuiescent spec body now proc .empty with
  | true => simpa using not_repaired_self hhole
  | false =>
    have hlists : applyExpansions spec .empty now { body } = { body } := rfl
    obtain ⟨hchanged, hrepair⟩ :=
      claimHalf_repairs (p := { body }) now proc host hspec hhole
    simp only [fullPlan, hlists, hchanged, Bool.false_eq_true, if_false, if_true,
      getD_some, iff_true]
    exact hrepair

/-- `reconcile_and_plan` repairs the holes exactly when the document is unsettled. -/
private lemma reconcileAndPlan_repairs_iff (now : Time) (proc host : String)
    (isPidAlive : ℤ → Bool) (hspec : ValidSpec spec) (hopen : body.terminalRun = false)
    (hawait : tasksAwaitingExpansion spec body = [])
    (hhole : ∃ t ∈ spec.tasks, ∃ i, Hole body t i) :
    Repaired spec body ((reconcileAndPlan spec now proc host isPidAlive body).1.getD body) ↔
      Unsettled spec body now proc := by
  rw [← isQuiescent_empty hawait]
  unfold reconcileAndPlan
  simp only [hopen, tasksAwaitingExpansion_reconcileEntries, hawait]
  cases hquiet : isQuiescent spec body now proc .empty with
  | true => simpa using not_repaired_self hhole
  | false =>
    -- the recovery neither fills a hole nor makes one
    have hholes : ∀ t i, Hole (reconcileEntries spec now proc host isPidAlive body).1 t i ↔
        Hole body t i := by
      intro t i
      simp [Hole, reconcileEntries]
    have hhole' : ∃ t ∈ spec.tasks, ∃ i,
        Hole (reconcileEntries spec now proc host isPidAlive body).1 t i := by
      simpa only [hholes] using hhole
    obtain ⟨hchanged, hrepair⟩ := claimHalf_repairs
      (p := { body := (reconcileEntries spec now proc host isPidAlive body).1 })
      now proc host hspec hhole'
    simp only [hchanged, Bool.false_eq_true, if_false, isEmpty_nil, Bool.not_true,
      Bool.false_and, getD_some, iff_true]
    intro t ht i hi
    exact hrepair t ht i ((hholes t i).mpr hi)

/-- When a hole is repaired. For every stored document that passes the null check, whose run is
open, which has a hole and in which no mapped task awaits its list, either advance transform
turns every hole into a failed entry exactly when some stored entry is neither settled nor parked,
or none is parked. -/
theorem repaired_iff_unsettled (hvalid : validateGraph spec = .ok ()) (stored : StoredBody)
    (hnull : refuseNullShapes stored = .ok ()) (hopen : stored.body.terminalRun = false)
    (hhole : ∃ t ∈ spec.tasks, ∃ i, Hole stored.body t i)
    (hawait : tasksAwaitingExpansion spec stored.body = []) (now : Time) (proc host : String)
    (isPidAlive : ℤ → Bool) :
    ((∃ r, planAndClaimStored spec now proc host .empty (some stored) = .ok r ∧
        Repaired spec stored.body (r.1.getD stored.body)) ↔
      Unsettled spec stored.body now proc) ∧
    ((∃ r, reconcileAndPlanStored spec now proc host isPidAlive (some stored) = .ok r ∧
        Repaired spec stored.body (r.1.getD stored.body)) ↔
      Unsettled spec stored.body now proc) := by
  have hspec := validSpec_of_validateGraph hvalid
  have hplan : planAndClaimStored spec now proc host .empty (some stored) =
      .ok (planAndClaim spec now proc host .empty stored.body) := by
    simp only [planAndClaimStored, hopen, hnull, Bool.false_eq_true, if_false]
    rfl
  have hreconcile : reconcileAndPlanStored spec now proc host isPidAlive (some stored) =
      .ok (reconcileAndPlan spec now proc host isPidAlive stored.body) := by
    simp only [reconcileAndPlanStored, hopen, hnull, Bool.false_eq_true, if_false]
    rfl
  simp only [hplan, hreconcile, Except.ok.injEq, exists_eq_left']
  exact ⟨planAndClaim_repairs_iff now proc host hspec hopen hawait hhole,
    reconcileAndPlan_repairs_iff now proc host isPidAlive hspec hopen hawait hhole⟩

/-! ## A fan-out with a hole -/

/-- A source, a task mapped over its list, and a task downstream of the fan-out. -/
def fanSpec : DagSpec :=
  { name := "fan"
    tasks := [
      { id := "src" },
      { id := "m", dependsOn := ["src"], expand := some { fromTask := "src", key := "items" } },
      { id := "sink", dependsOn := ["m"] }] }

/-- A run of the fan-out that records two items and lost the entry of the second, with the given
state downstream. -/
def holedBody (sink : TaskState) : RunBody :=
  { newRunBody "fan" "k" "r" none "cron" 0 fanSpec with
    tasks := Dict.ofList [
      ("src", { id := some "src", state := .success }),
      ("m", { id := some "m", state := .expanded, mapped := true }),
      ("sink", { id := some "sink", state := sink }),
      ("m#0", { id := some "m", mapIndex := some 0, state := .success })]
    mapped := Dict.ofList [("m", some { items := [.num 1, .num 2], expandedAt := 0 })] }

/-- The document as stored, without null shapes. -/
def holedStored (sink : TaskState) : StoredBody := ⟨holedBody sink, false, []⟩

private lemma holedBody_hole (sink : TaskState) :
    ∃ t ∈ fanSpec.tasks, ∃ i, Hole (holedBody sink) t i :=
  ⟨_, mem_cons_of_mem _ mem_cons_self, 1, _, rfl, by decide, rfl⟩

/-- With the downstream task done nothing holds the run open, and the hole is repaired. -/
theorem repaired_iff_unsettled_done :
    ∃ r, planAndClaimStored fanSpec 1 "p" "h" .empty (some (holedStored .success)) = .ok r ∧
      Repaired fanSpec (holedStored .success).body (r.1.getD (holedStored .success).body) := by
  have hawait : tasksAwaitingExpansion fanSpec (holedBody .success) = [] := by decide +kernel
  have hscan : isQuiescent fanSpec (holedBody .success) 1 "p" .empty = false := by
    decide +kernel
  exact (repaired_iff_unsettled (by decide +kernel) (holedStored .success) rfl rfl
    (holedBody_hole _) hawait 1 "p" "h" fun _ => false).1.mpr ((isQuiescent_empty hawait).mp hscan)

/-- With the downstream task pending, the pre-scan keeps the document: neither transform repairs
the hole. -/
theorem holedBody_pending_not_repaired :
    validateGraph fanSpec = .ok () ∧ refuseNullShapes (holedStored .pending) = .ok () ∧
      (holedBody .pending).terminalRun = false ∧
      (∃ t ∈ fanSpec.tasks, ∃ i, Hole (holedBody .pending) t i) ∧
      tasksAwaitingExpansion fanSpec (holedBody .pending) = [] ∧
      ¬ Repaired fanSpec (holedBody .pending)
        ((planAndClaim fanSpec 1 "p" "h" .empty (holedBody .pending)).1.getD
          (holedBody .pending)) ∧
      ¬ Repaired fanSpec (holedBody .pending)
        ((reconcileAndPlan fanSpec 1 "p" "h" (fun _ => false) (holedBody .pending)).1.getD
          (holedBody .pending)) := by
  have hvalid : validateGraph fanSpec = .ok () := by decide +kernel
  have hspec := validSpec_of_validateGraph hvalid
  have hawait : tasksAwaitingExpansion fanSpec (holedBody .pending) = [] := by decide +kernel
  have hscan : isQuiescent fanSpec (holedBody .pending) 1 "p" .empty = true := by
    decide +kernel
  have hsettled : ¬ Unsettled fanSpec (holedBody .pending) 1 "p" := by
    rw [← isQuiescent_empty hawait]
    decide
  have hhole := holedBody_hole .pending
  refine ⟨hvalid, rfl, rfl, hhole, hawait, ?_, ?_⟩
  · rwa [planAndClaim_repairs_iff 1 "p" "h" hspec rfl hawait hhole]
  · rwa [reconcileAndPlan_repairs_iff 1 "p" "h" _ hspec rfl hawait hhole]

/-! ## What is launched of a fan-out -/

/-- The launch of the instance of a recorded item, for this item. -/
def LaunchIntent.OfItem (intent : LaunchIntent) (record : MapRecord) : Prop :=
  ∃ i item, record.items[i]? = some item ∧ intent.taskkey = instanceKey intent.taskId i ∧
    intent.mapIndex = some i ∧ intent.mapItem = some item

private lemma record_apply (hspec : ValidSpec spec) {t : TaskSpec} (ht : t ∈ spec.tasks)
    {record : MapRecord} (op : Op)
    (hrecord : body.mapped.get? t.id = some (some record)) :
    (op.apply spec body).mapped.get? t.id = some (some record) ∧
      ∀ intent ∈ op.launches spec body, intent.taskId = t.id → intent.OfItem record := by
  obtain ⟨start, events, hrun, hlaunches, -, hstart⟩ := op.apply_run hspec body
  have hbegin : start.mapped.get? t.id = some (some record) := by
    rcases hstart with rfl | ⟨now, -, -, expansions, -, -, rfl⟩
    · exact hrecord
    · have heffect := applyExpansions_task hspec expansions now { body } ht
      exact (heffect.sameTask (.inr (Dict.contains_iff.mpr ⟨_, hrecord⟩))).1.trans hrecord
  rw [hlaunches]
  refine hrun.history (P := fun b done => b.mapped.get? t.id = some (some record) ∧
    ∀ intent ∈ done.flatMap Event.launches, intent.taskId = t.id → intent.OfItem record)
    ⟨hbegin, by simp⟩ ?_
  rintro b done ev b' - ⟨hb, hdone⟩ hstep
  rw [flatMap_append, flatMap_singleton]
  refine ⟨hstep.mapped_eq ▸ hb, forall_mem_append.mpr ⟨hdone, fun intent hintent hid => ?_⟩⟩
  obtain rfl := Event.mem_launches.mp hintent
  cases hstep with
  | entry _ hentry =>
    cases hentry with
    | claim u _ _ _ _ hu hinst | poke u _ _ _ _ hu hinst =>
      obtain rfl := hspec.eq_of_id hu ht hid
      simp only [instancesOf, hb] at hinst
      obtain ⟨⟨item, i⟩, hitem, rfl⟩ := mem_map.mp hinst
      exact ⟨i, item, mem_zipIdx_iff_getElem?.mp hitem, rfl, rfl, rfl⟩

/-- A recorded fan-out is kept by whatever transforms follow, and what is launched of its task then
is the instance of one of the recorded items, for this item. -/
theorem launched_for_recorded_item (hvalid : validateGraph spec = .ok ()) {t : TaskSpec}
    (ht : t ∈ spec.tasks) {record : MapRecord}
    (hrecord : body.mapped.get? t.id = some (some record)) (ops : List Op) (op : Op) :
    (applyAll spec ops body).mapped.get? t.id = some (some record) ∧
      ∀ intent ∈ op.launches spec (applyAll spec ops body), intent.taskId = t.id →
        intent.OfItem record := by
  have hspec := validSpec_of_validateGraph hvalid
  have hkept : (applyAll spec ops body).mapped.get? t.id = some (some record) :=
    foldlRecOn (motive := fun b : RunBody => b.mapped.get? t.id = some (some record)) ops _ hrecord
      fun _ hb op _ => (record_apply hspec ht op hb).1
  exact ⟨hkept, (record_apply hspec ht op hkept).2⟩

/-- The second instance of a fan-out is launched. -/
theorem launched_for_recorded_item_second :
    let body := (holedBody .pending).setEntry "m#1" { id := some "m", mapIndex := some 1 }
    let op : Op := .plan 1 "p" "h" .empty
    (op.launches fanSpec body).map (·.taskId) = ["m"] ∧
      ∀ intent ∈ op.launches fanSpec body, intent.taskId = "m" →
        intent.OfItem { items := [.num 1, .num 2], expandedAt := 0 } := by
  have hvalid : validateGraph fanSpec = .ok () := by decide +kernel
  exact ⟨by decide +kernel,
    (launched_for_recorded_item hvalid (mem_cons_of_mem _ mem_cons_self) rfl [] _).2⟩

end Cronstable.Dag

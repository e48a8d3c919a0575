import Cronstable.Dag.Retention

/-!
# Run retention spares the sources of recoveries

Two requests never work under unexpired leases of one run (`State.Inv.exclusive`). A recovery that
is written under the lease of its source, and a deletion that is made under the lease under which
the references were read, exclude each other: one of the two leases was granted after the other
write was done. The times that retention and `recover_range` allow themselves keep their writes
inside their leases; `recover` looks at no clock, and a source with many artifacts on a slow store
outlasts its lease (`expired_lease_loses_source`).

`sources_retained` is the result, for runs whose steps are clear.
-/

namespace Cronstable.Dag.Retention

open Trace List Option Dict

variable {key : RunKey} {n : ℕ} {b : Batch}

namespace State

/-! ## References -/

/-- Retention did not delete the source of the plan since the plan was made. -/
def Fresh (s : State) (plan : Plan) : Prop :=
  ∀ n, (plan.sourceRunKey, n) ∈ s.deleted → n < plan.planned

/-- A recovery run in preparation, written at step `n`, has this source. -/
def RunRef (s : State) (key : RunKey) (n : ℕ) : Prop :=
  ∃ key' run plan, s.runs.get? key' = some run ∧ run.preparing = some plan ∧
    plan.sourceRunKey = key ∧ run.born = n

/-- An open batch, written at step `n`, has this source. -/
def BatchRef (s : State) (key : RunKey) (n : ℕ) : Prop :=
  ∃ token b plan, s.batches.get? token = some b ∧ b.isOpen s.clock ∧ plan ∈ b.plans ∧
    plan.sourceRunKey = key ∧ b.born = n

/-- The run is the source of a recovery that was written at step `n`. -/
def Ref (s : State) (key : RunKey) (n : ℕ) : Prop := s.RunRef key n ∨ s.BatchRef key n

/-- Nothing new refers to the run, and it is not deleted. -/
structure Calm (s t : State) (key : RunKey) : Prop where
  runRef : ∀ n, t.RunRef key n → s.RunRef key n
  batchRef : ∀ n, t.BatchRef key n → s.BatchRef key n
  deleted : ∀ n, (key, n) ∈ t.deleted → (key, n) ∈ s.deleted

lemma Calm.ref {s t : State} (h : Calm s t key) (hn : t.Ref key n) : s.Ref key n :=
  hn.imp (h.runRef n) (h.batchRef n)

lemma Calm.fresh {s t : State} {plan : Plan} (h : Calm s t plan.sourceRunKey)
    (hs : s.Fresh plan) : t.Fresh plan :=
  fun n hn => hs n (h.deleted n hn)

/-- A batch that is open later is open now. -/
theorem isOpen_of_le {now later : Instant} (hle : now ≤ later) (h : b.isOpen later) :
    b.isOpen now := by
  simp only [Batch.isOpen, Bool.and_eq_true, decide_eq_true_eq] at h ⊢
  exact ⟨h.1, hle.trans_lt h.2⟩

/-! ## What a request knows -/

/-- The lease that a request was granted then is its own until it expires. -/
structure Kept (s : State) (p : ℕ) (key : RunKey) (since : Instant) : Prop where
  since_le : since ≤ s.clock
  owned : s.clock < since + leaseTtl →
    ∃ e, s.leases key = some (some p, e) ∧ since + leaseTtl ≤ e

end State

open State

/-- What a request knows of the runs it has under lease, while the leases last. -/
def Request.Sound (s : State) : Request → Prop
  | .idle | .leasing .. | .planning .. | .ranging _ | .rewriting .. => True
  | .checking _ plan since _ _ | .creating _ plan since _ | .createOut _ plan since =>
    s.clock < since + leaseTtl → s.Fresh plan
  | .sourcing _ _ _ started since _ | .listing _ _ started since _ =>
    started ≤ since ∧ since ≤ s.clock
  | .writing _ plans since issued =>
    issued < since + leaseTtl / 2 ∧ ∀ plan ∈ plans, s.clock < since + leaseTtl → s.Fresh plan
  | .writeOut _ plans since => ∀ plan ∈ plans, s.clock < since + leaseTtl → s.Fresh plan
  | .taking _ held _ => ∀ h ∈ held, h.taken ≤ h.since
  | .acquiring _ _ held _ taken => taken ≤ s.clock ∧ ∀ h ∈ held, h.taken ≤ h.since
  | .readingRuns held begun _ => ∀ h ∈ held, h.taken ≤ h.since ∧
      (s.clock < h.since + leaseTtl → ∀ n, s.Ref h.target.key n → n ≤ begun)
  | .readingBatches held referenced begun _ => ∀ h ∈ held, h.taken ≤ h.since ∧
      (s.clock < h.since + leaseTtl → (∀ n, s.RunRef h.target.key n → h.target.key ∈ referenced) ∧
        ∀ n, s.BatchRef h.target.key n → n ≤ begun)
  | .deleting held referenced => ∀ h ∈ held, h.taken ≤ h.since ∧
      (s.clock < h.since + leaseTtl → ∀ n, s.Ref h.target.key n → h.target.key ∈ referenced)
  | .deletion entry held referenced issued =>
    issued < entry.since + leaseTtl / 2 ∧
    (s.clock < entry.since + leaseTtl → ∀ n, ¬ s.Ref entry.target.key n) ∧
    ∀ h ∈ held, h.taken ≤ h.since ∧
      (s.clock < h.since + leaseTtl → ∀ n, s.Ref h.target.key n → h.target.key ∈ referenced)
  | .deleteOut entry => s.clock < entry.since + leaseTtl → ∀ n, ¬ s.Ref entry.target.key n

/-- What a request knows stays true as long as nothing happens to the runs whose leases last. -/
theorem Request.Sound.mono {s t : State} {x : Request} (h : x.Sound s) (hclock : s.clock ≤ t.clock)
    (hcalm : ∀ key since, (key, since) ∈ x.leases → t.clock < since + leaseTtl → Calm s t key) :
    x.Sound t := by
  have hheld {held : List Held} {entry : Held} (hx : x.leases = Held.leases held)
      (hentry : entry ∈ held) (hlive : t.clock < entry.since + leaseTtl) :
      Calm s t entry.target.key :=
    hcalm _ _ (hx ▸ mem_map_of_mem (f := fun h : Held => (h.target.key, h.since)) hentry) hlive
  have hplans {plans : List Plan} {since : Instant} {plan : Plan}
      (hx : x.leases = Plan.leases plans since) (hplan : plan ∈ plans)
      (hlive : t.clock < since + leaseTtl) : Calm s t plan.sourceRunKey :=
    hcalm _ _ (hx ▸ mem_map_of_mem (f := fun plan : Plan => (plan.sourceRunKey, since)) hplan) hlive
  cases x with
  | idle | leasing | planning | ranging | rewriting => trivial
  | checking _ plan since | creating _ plan since | createOut _ plan since =>
    exact fun hlive =>
      (hcalm _ since (mem_singleton_self _) hlive).fresh (h (hclock.trans_lt hlive))
  | sourcing | listing => exact ⟨h.1, h.2.trans hclock⟩
  | writing token plans since =>
    exact ⟨h.1, fun plan hplan hlive =>
      (hplans rfl hplan hlive).fresh (h.2 plan hplan (hclock.trans_lt hlive))⟩
  | writeOut token plans since =>
    exact fun plan hplan hlive =>
      (hplans rfl hplan hlive).fresh (h plan hplan (hclock.trans_lt hlive))
  | taking => exact h
  | acquiring => exact ⟨h.1.trans hclock, h.2⟩
  | readingRuns held | deleting held =>
    intro entry hentry
    refine ⟨(h entry hentry).1, fun hlive n hn => ?_⟩
    exact (h entry hentry).2 (hclock.trans_lt hlive) n
      ((hheld rfl hentry hlive).ref hn)
  | readingBatches held referenced begun =>
    intro entry hentry
    refine ⟨(h entry hentry).1, fun hlive => ?_⟩
    have hc := hheld rfl hentry hlive
    obtain ⟨hruns, hbatches⟩ := (h entry hentry).2 (hclock.trans_lt hlive)
    exact ⟨fun n hn => hruns n (hc.runRef n hn), fun n hn => hbatches n (hc.batchRef n hn)⟩
  | deletion entry held referenced issued =>
    obtain ⟨hissued, hentry, hrest⟩ := h
    refine ⟨hissued, fun hlive n hn => ?_, fun entry' hentry' => ⟨(hrest entry' hentry').1, ?_⟩⟩
    · exact hentry (hclock.trans_lt hlive) n
        ((hheld rfl mem_cons_self hlive).ref hn)
    · exact fun hlive n hn => (hrest entry' hentry').2 (hclock.trans_lt hlive) n
        ((hheld rfl (mem_cons_of_mem _ hentry') hlive).ref hn)
  | deleteOut entry =>
    exact fun hlive n hn => h (hclock.trans_lt hlive) n
      ((hheld rfl mem_cons_self hlive).ref hn)

variable {token : String} {since issued started : Instant} {plans : List Plan} {held : List Held}
  {entry : Held} {begun m : ℕ} {referenced : List RunKey}

variable {new : Plan → Prop} {s t : State}

namespace State

/-! ## The invariant -/

/-- What holds of the documents. -/
structure Sane (s : State) : Prop where
  runs : ∀ key run plan, s.runs.get? key = some run → run.preparing = some plan → s.Fresh plan
  batches : ∀ token b, s.batches.get? token = some b → b.isOpen s.clock →
    ∀ plan ∈ b.plans, s.Fresh plan
  bornRun : ∀ key run, s.runs.get? key = some run → run.born < s.steps
  bornBatch : ∀ token b, s.batches.get? token = some b → b.born < s.steps
  past : ∀ key n, (key, n) ∈ s.deleted → n < s.steps
  /-- A run that is there was created after the last deletion of its key. -/
  reborn : ∀ key run n, s.runs.get? key = some run → (key, n) ∈ s.deleted → n < run.born
  prefixed : ∀ key run plan, s.runs.get? key = some run → run.preparing = some plan →
    ∃ token, key = .recovery token

structure Inv (s : State) : Prop where
  sane : s.Sane
  kept : ∀ p key since, (key, since) ∈ (s.requests p).leases → s.Kept p key since
  sound : ∀ p, (s.requests p).Sound s

/-- What a request knows where it is. -/
theorem Inv.sound_of {p : ℕ} {x : Request} (h : s.Inv) (hx : s.requests p = x) :
    x.Sound s :=
  hx ▸ h.sound p

/-- Two requests never work under unexpired leases of one run. -/
theorem Inv.exclusive (h : s.Inv) {p q : ℕ} {since' : Instant}
    (hp : (key, since) ∈ (s.requests p).leases) (hlive : s.clock < since + leaseTtl)
    (hq : (key, since') ∈ (s.requests q).leases) (hlive' : s.clock < since' + leaseTtl) :
    p = q := by
  obtain ⟨e, hlease, -⟩ := (h.kept p key since hp).owned hlive
  obtain ⟨e', hlease', -⟩ := (h.kept q key since' hq).owned hlive'
  rw [hlease] at hlease'
  simpa using congrArg (Option.map Prod.fst) hlease'

/-- A step of at most one request keeps the invariant when it keeps the documents sane, takes no
unexpired lease from another request, and is calm where another request has one. -/
theorem Inv.of_step (h : s.Inv) (actor : Option ℕ) (hsane : t.Sane)
    (hclock : s.clock ≤ t.clock)
    (hrequests : ∀ p, some p ≠ actor → t.requests p = s.requests p)
    (hleases : ∀ p key e, some p ≠ actor → s.leases key = some (some p, e) → s.clock < e →
      (∃ since, (key, since) ∈ (s.requests p).leases) → t.leases key = some (some p, e))
    (hcalm : ∀ p key since, some p ≠ actor → (key, since) ∈ (s.requests p).leases →
      t.clock < since + leaseTtl → Calm s t key)
    (hkept : ∀ p key since, some p = actor → (key, since) ∈ (t.requests p).leases →
      t.Kept p key since)
    (hsound : ∀ p, some p = actor → (t.requests p).Sound t) : t.Inv where
  sane := hsane
  kept p key since hmem := by
    by_cases hp : some p = actor
    · exact hkept p key since hp hmem
    · rw [hrequests p hp] at hmem
      have hold := h.kept p key since hmem
      refine ⟨hold.since_le.trans hclock, fun hlive => ?_⟩
      have hlive' := hclock.trans_lt hlive
      obtain ⟨e, hlease, hle⟩ := hold.owned hlive'
      exact ⟨e, hleases p key e hp hlease (hlive'.trans_le hle) ⟨since, hmem⟩, hle⟩
  sound p := by
    by_cases hp : some p = actor
    · exact hsound p hp
    · rw [hrequests p hp]
      exact (h.sound p).mono hclock fun key since hmem hlive => hcalm p key since hp hmem hlive

/-- What the next step finds. -/
abbrev after (s t : State) : State := { t with steps := s.steps + 1 }

/-! ## Documents -/

section Documents

/-- The documents went on with no other references than to the sources of new plans: a run is
created, or goes on and may end its preparation; a batch is created, goes on, is completed, expires
or is dropped. -/
structure Older (s t : State) (new : Plan → Prop) : Prop where
  runs : ∀ key run, t.runs.get? key = some run →
    (∃ run', s.runs.get? key = some run' ∧ run.born = run'.born ∧
      ∀ plan, run.preparing = some plan → run'.preparing = some plan) ∨
    run.born = s.steps ∧
      ∀ plan, run.preparing = some plan → new plan ∧ ∃ token, key = .recovery token
  batches : ∀ token b, t.batches.get? token = some b →
    (∃ b', s.batches.get? token = some b' ∧ b.born = b'.born ∧ b.plans = b'.plans ∧
      (b.isOpen t.clock → b'.isOpen s.clock)) ∨
    b.born = s.steps ∧ ∀ plan ∈ b.plans, new plan
  deleted : t.deleted = s.deleted

lemma Older.later (hruns : t.runs = s.runs) (hbatches : t.batches = s.batches)
    (hdeleted : t.deleted = s.deleted) (hclock : s.clock ≤ t.clock) : Older s t new where
  runs _ run hrun := .inl ⟨run, hruns ▸ hrun, rfl, fun _ => id⟩
  batches _ b hb := .inl ⟨b, hbatches ▸ hb, rfl, rfl, isOpen_of_le hclock⟩
  deleted := hdeleted

lemma Older.sane (h : Older s t new) (hs : s.Sane) (hnew : ∀ plan, new plan → s.Fresh plan)
    (hsteps : t.steps = s.steps + 1) : t.Sane where
  runs key run plan hrun hplan n hn := by
    rcases h.runs key run hrun with ⟨run', hrun', -, hprep⟩ | ⟨-, hplans⟩
    · exact hs.runs key run' plan hrun' (hprep plan hplan) n (h.deleted ▸ hn)
    · exact hnew plan (hplans plan hplan).1 n (h.deleted ▸ hn)
  batches token b hb hopen plan hplan n hn := by
    rcases h.batches token b hb with ⟨b', hb', -, hplans, hopens⟩ | ⟨-, hplans⟩
    · exact hs.batches token b' hb' (hopens hopen) plan (hplans ▸ hplan) n (h.deleted ▸ hn)
    · exact hnew plan (hplans plan hplan) n (h.deleted ▸ hn)
  bornRun key run hrun := by
    rw [hsteps]
    rcases h.runs key run hrun with ⟨run', hrun', hborn, -⟩ | ⟨hborn, -⟩
    · exact hborn ▸ (hs.bornRun key run' hrun').trans (Nat.lt_succ_self _)
    · exact hborn ▸ Nat.lt_succ_self _
  bornBatch token b hb := by
    rw [hsteps]
    rcases h.batches token b hb with ⟨b', hb', hborn, -⟩ | ⟨hborn, -⟩
    · exact hborn ▸ (hs.bornBatch token b' hb').trans (Nat.lt_succ_self _)
    · exact hborn ▸ Nat.lt_succ_self _
  past key n hn := hsteps ▸ (hs.past key n (h.deleted ▸ hn)).trans (Nat.lt_succ_self _)
  reborn key run n hrun hn := by
    rcases h.runs key run hrun with ⟨run', hrun', hborn, -⟩ | ⟨hborn, -⟩
    · exact hborn ▸ hs.reborn key run' n hrun' (h.deleted ▸ hn)
    · exact hborn ▸ hs.past key n (h.deleted ▸ hn)
  prefixed key run plan hrun hplan := by
    rcases h.runs key run hrun with ⟨run', hrun', -, hprep⟩ | ⟨-, hplans⟩
    · exact hs.prefixed key run' plan hrun' (hprep plan hplan)
    · exact (hplans plan hplan).2

lemma Sane.later (h : s.Sane) (hruns : t.runs = s.runs) (hbatches : t.batches = s.batches)
    (hdeleted : t.deleted = s.deleted) (hclock : s.clock ≤ t.clock)
    (hsteps : t.steps = s.steps + 1) : t.Sane := by
  have holder : Older s t fun _ => False := .later hruns hbatches hdeleted hclock
  exact holder.sane h (fun _ => nofun) hsteps

/-- Only the sources of new plans are not calm. -/
theorem Older.calm (h : Older s t new) (hkey : ∀ plan, new plan → plan.sourceRunKey ≠ key) :
    Calm s t key where
  runRef n := by
    rintro ⟨key', run, plan, hrun, hplan, hsource, rfl⟩
    rcases h.runs key' run hrun with ⟨run', hrun', hborn, hprep⟩ | ⟨-, hplans⟩
    · exact ⟨key', run', plan, hrun', hprep plan hplan, hsource, hborn.symm⟩
    · exact absurd hsource (hkey plan (hplans plan hplan).1)
  batchRef n := by
    rintro ⟨token, b, plan, hb, hopen, hplan, hsource, rfl⟩
    rcases h.batches token b hb with ⟨b', hb', hborn, hplans, hopens⟩ | ⟨-, hplans⟩
    · exact ⟨token, b', plan, hb', hopens hopen, hplans ▸ hplan, hsource, hborn.symm⟩
    · exact absurd hsource (hkey plan (hplans plan hplan))
  deleted n hn := h.deleted ▸ hn

lemma Older.setRun {run : Run}
    (hrun : (∃ run', s.runs.get? key = some run' ∧ run.born = run'.born ∧
        ∀ plan, run.preparing = some plan → run'.preparing = some plan) ∨
      run.born = s.steps ∧
        ∀ plan, run.preparing = some plan → new plan ∧ ∃ token, key = .recovery token) :
    Older s (s.after { s with runs := s.runs.set key run }) new where
  runs := forall_set (fun _ run' hget => .inl ⟨run', hget, rfl, fun _ => id⟩) hrun
  batches _ b hb := .inl ⟨b, hb, rfl, rfl, id⟩
  deleted := rfl

lemma Older.setBatch
    (hb : (∃ b', s.batches.get? token = some b' ∧ b.born = b'.born ∧ b.plans = b'.plans ∧
        (b.isOpen s.clock → b'.isOpen s.clock)) ∨
      b.born = s.steps ∧ ∀ plan ∈ b.plans, new plan) :
    Older s (s.after { s with batches := s.batches.set token b }) new where
  runs _ run hrun := .inl ⟨run, hrun, rfl, fun _ => id⟩
  batches := forall_set (fun _ b' hget => .inl ⟨b', hget, rfl, rfl, id⟩) hb
  deleted := rfl

lemma Older.dropBatch :
    Older s (s.after { s with batches := s.batches.erase token }) new where
  runs _ run hrun := .inl ⟨run, hrun, rfl, fun _ => id⟩
  batches _ b hget := .inl ⟨b, (of_get?_erase hget).2, rfl, rfl, id⟩
  deleted := rfl

/-- A recovery run is written, unless it is there. -/
theorem Older.createRun (token : String) (plan : Plan) :
    Older s (s.after (s.createRun token plan)) (· = plan) := by
  unfold State.createRun
  split
  · exact .later rfl rfl rfl le_rfl
  · exact .setRun (.inr ⟨rfl, fun _ hplan => ⟨(Option.some.inj hplan).symm, token, rfl⟩⟩)

/-- A batch is written, unless it is there. -/
theorem Older.createBatch (token : String) (plans : List Plan) :
    Older s (s.after (s.createBatch token plans)) (· ∈ plans) := by
  unfold State.createBatch
  split
  · exact .later rfl rfl rfl le_rfl
  · exact .setBatch (.inr ⟨rfl, fun _ => id⟩)

/-- Only documents were written. -/
def Writes (s t : State) : Prop :=
  t.clock = s.clock ∧ t.leases = s.leases ∧ t.requests = s.requests

lemma writes_createRun (token : String) (plan : Plan) : s.Writes (s.createRun token plan) := by
  unfold createRun
  split <;> exact ⟨rfl, rfl, rfl⟩

lemma writes_createBatch (token : String) (plans : List Plan) :
    s.Writes (s.createBatch token plans) := by
  unfold createBatch
  split <;> exact ⟨rfl, rfl, rfl⟩

lemma deleteRun_cases (s : State) (target : Target) :
    s.deleteRun target = s ∨ s.deleteRun target =
      { s with
        runs := s.runs.erase target.key, deleted := (target.key, s.steps) :: s.deleted } := by
  unfold deleteRun
  split
  · split
    · exact .inr rfl
    · exact .inl rfl
  · exact .inl rfl

/-- A run that nothing refers to is deleted. -/
theorem Sane.deleteRun (h : s.Sane) {target : Target} (hfree : ∀ n, ¬ s.Ref target.key n) :
    (s.after (s.deleteRun target)).Sane := by
  rcases s.deleteRun_cases target with heq | heq
  · rw [heq]
    exact h.later rfl rfl rfl le_rfl rfl
  rw [heq]
  have hold {key : RunKey} {run : Run} (hrun : (s.runs.erase target.key).get? key = some run) :
      key ≠ target.key ∧ s.runs.get? key = some run := of_get?_erase hrun
  -- a plan whose source goes would be a reference
  have hfresh {plan : Plan} {n : ℕ} (hs : s.Fresh plan) (href : s.Ref plan.sourceRunKey n) :
      ∀ n, (plan.sourceRunKey, n) ∈ (target.key, s.steps) :: s.deleted → n < plan.planned := by
    intro n' hn'
    rcases mem_cons.mp hn' with heq | hn'
    · obtain ⟨hkey, -⟩ := Prod.mk.inj heq
      exact absurd (hkey ▸ href) (hfree n)
    · exact hs n' hn'
  refine ⟨?_, ?_, ?_, ?_, ?_, ?_, ?_⟩
  · intro key run plan hrun hplan
    obtain ⟨-, hrun⟩ := hold hrun
    exact hfresh (h.runs key run plan hrun hplan) (.inl ⟨key, run, plan, hrun, hplan, rfl, rfl⟩)
  · intro token b hb hopen plan hplan
    exact hfresh (h.batches token b hb hopen plan hplan)
      (.inr ⟨token, b, plan, hb, hopen, hplan, rfl, rfl⟩)
  · exact fun key run hrun => (h.bornRun key run (hold hrun).2).trans (Nat.lt_succ_self _)
  · exact fun token b hb => (h.bornBatch token b hb).trans (Nat.lt_succ_self _)
  · intro key n hn
    rcases mem_cons.mp hn with heq | hn
    · rw [(Prod.mk.inj heq).2]
      exact Nat.lt_succ_self _
    · exact (h.past key n hn).trans (Nat.lt_succ_self _)
  · intro key run n hrun hn
    obtain ⟨hne, hrun⟩ := hold hrun
    rcases mem_cons.mp hn with heq | hn
    · exact absurd (Prod.mk.inj heq).1 hne
    · exact h.reborn key run n hrun hn
  · exact fun key run plan hrun => h.prefixed key run plan (hold hrun).2

/-- A deletion takes references away, and spares the other runs. -/
theorem runRef_of_deleteRun {target : Target}
    (h : ({ s.deleteRun target with steps := m } : State).RunRef key n) : s.RunRef key n := by
  rcases s.deleteRun_cases target with heq | heq <;> rw [heq] at h
  · exact h
  · obtain ⟨key', run, plan, hrun, hrest⟩ := h
    exact ⟨key', run, plan, (of_get?_erase hrun).2, hrest⟩

lemma batchRef_of_deleteRun {target : Target}
    (h : ({ s.deleteRun target with steps := m } : State).BatchRef key n) : s.BatchRef key n := by
  rcases s.deleteRun_cases target with heq | heq <;> rw [heq] at h <;> exact h

lemma Calm.deleteRun {target : Target} (hkey : key ≠ target.key) :
    Calm s { s.deleteRun target with steps := m } key where
  runRef _ := runRef_of_deleteRun
  batchRef _ := batchRef_of_deleteRun
  deleted n hn := by
    rcases s.deleteRun_cases target with heq | heq <;> rw [heq] at hn
    · exact hn
    · rcases mem_cons.mp hn with heq | hn
      · exact absurd (Prod.mk.inj heq).1 hkey
      · exact hn

lemma writes_deleteRun (target : Target) : s.Writes (s.deleteRun target) := by
  rcases s.deleteRun_cases target with heq | heq <;> rw [heq] <;> exact ⟨rfl, rfl, rfl⟩

end Documents

/-! ## Steps -/

section Steps

variable {p : ℕ} {x : Request}

/-- Requests and their leases are not documents. -/
theorem Calm.same {leases : RunKey → Option (Holder × Instant)} {requests : ℕ → Request} :
    Calm s { s with leases, requests, steps := n } key :=
  ⟨fun _ => id, fun _ => id, fun _ => id⟩

lemma setRequest_of_ne {q : ℕ} (h : some q ≠ some p) :
    (s.setRequest p x).requests q = s.requests q :=
  Function.update_of_ne (fun heq => h (congrArg some heq)) _ _

@[simp]
lemma setRequest_self : (s.setRequest p x).requests p = x := Function.update_self ..

/-- An unexpired lease is not granted to another holder. -/
theorem ne_of_grants {holder : Holder} {q : ℕ} {key' : RunKey} {e : Instant}
    (hgrants : s.grants holder key) (hq : some q ≠ holder)
    (hlease : s.leases key' = some (some q, e)) (hlive : s.clock < e) : key' ≠ key := by
  rintro rfl
  simp only [grants, hlease, all_some, decide_eq_true_eq] at hgrants
  rcases hgrants with heq | hle
  · exact hq heq
  · exact absurd hlive (Nat.not_lt.mpr hle)

section

variable (h : s.Inv)

include h

/-- A request is granted a lease. -/
theorem Inv.acquired (hgrants : s.grants (some p) key)
    (hleases : ∀ key' since, (key', since) ∈ x.leases →
      (key', since) ∈ (s.requests p).leases ∨ key' = key ∧ since ≤ s.clock) (hsound : x.Sound s) :
    (s.after ((s.acquire (some p) key leaseTtl).setRequest p x)).Inv := by
  refine h.of_step (some p) (h.sane.later rfl rfl rfl le_rfl rfl) le_rfl
    (fun q hq => setRequest_of_ne hq) ?_ (fun _ _ _ _ _ _ => .same) ?_ ?_
  · intro q key' e hq hlease hlive _
    have hne := ne_of_grants hgrants hq hlease hlive
    simpa [setRequest, acquire, hne] using hlease
  · rintro _ key' since ⟨⟩ hmem
    have hmem : (key', since) ∈ x.leases := by simpa using hmem
    have hle : since ≤ s.clock := by
      rcases hleases key' since hmem with hold | ⟨-, hle⟩
      · exact (h.kept p key' since hold).since_le
      · exact hle
    refine ⟨hle, fun hlive => ?_⟩
    by_cases hkey : key' = key
    · subst hkey
      exact ⟨s.clock + leaseTtl, by simp [setRequest, acquire], Nat.add_le_add_right hle _⟩
    · rcases hleases key' since hmem with hold | ⟨heq, -⟩
      · obtain ⟨e, hlease, he⟩ := (h.kept p key' since hold).owned hlive
        exact ⟨e, by simpa [setRequest, acquire, hkey] using hlease, he⟩
      · exact absurd heq hkey
  · rintro _ ⟨⟩
    have hx : (s.after ((s.acquire (some p) key leaseTtl).setRequest p x)).requests p = x :=
      setRequest_self
    rw [hx]
    exact hsound.mono le_rfl fun _ _ _ _ => .same

/-- A request writes under its leases, and moves on. `t` is the store after the write. -/
theorem Inv.wrote (hwrites : s.Writes t) (hsane : (s.after t).Sane)
    -- whatever the write disturbs is under an unexpired lease of this request
    (hcalm : ∀ key, Calm s (s.after t) key ∨
      ∃ since, (key, since) ∈ (s.requests p).leases ∧ s.clock < since + leaseTtl)
    (hsub : x.leases ⊆ (s.requests p).leases)
    (hsound : x.Sound (s.after t)) : (s.after (t.setRequest p x)).Inv := by
  obtain ⟨hclock, hleases, hrequests⟩ := hwrites
  refine h.of_step (some p) { hsane with } hclock.ge ?_ ?_ ?_ ?_ ?_
  · intro q hq
    exact (setRequest_of_ne hq).trans (congrFun hrequests q)
  · intro q key e _ hlease _ _
    exact (congrFun hleases key).trans hlease
  · intro q key since hq hmem hlive
    have hlive : s.clock < since + leaseTtl := hclock ▸ hlive
    rcases hcalm key with hcalm | ⟨since', hmem', hlive'⟩
    · exact ⟨hcalm.runRef, hcalm.batchRef, hcalm.deleted⟩
    · exact absurd (congrArg some (h.exclusive hmem hlive hmem' hlive')) hq
  · rintro _ key since ⟨⟩ hmem
    have hmem : (key, since) ∈ x.leases := by simpa using hmem
    have hold := h.kept p key since (hsub hmem)
    refine ⟨hold.since_le.trans hclock.ge, fun hlive => ?_⟩
    obtain ⟨e, hlease, he⟩ := hold.owned (hclock ▸ hlive)
    exact ⟨e, (congrFun hleases key).trans hlease, he⟩
  · rintro _ ⟨⟩
    have hx : (s.after (t.setRequest p x)).requests p = x :=
      setRequest_self
    rw [hx]
    exact hsound.mono le_rfl fun _ _ _ _ => .same

/-- A request moves on without new leases. -/
theorem Inv.move (hleases : x.leases ⊆ (s.requests p).leases) (hsound : x.Sound s) :
    (s.after (s.setRequest p x)).Inv :=
  h.wrote ⟨rfl, rfl, rfl⟩ (h.sane.later rfl rfl rfl le_rfl rfl) (fun _ => .inl .same) hleases
    (hsound.mono le_rfl fun _ _ _ _ => .same)

/-- A recovery is written under the leases of its sources. -/
theorem Inv.created (holder : Older s (s.after t) new)
    (hwrites : s.Writes t)
    (hmem : ∀ plan, new plan → (plan.sourceRunKey, since) ∈ (s.requests p).leases)
    (hlive : s.clock < since + leaseTtl) (hfresh : ∀ plan, new plan → s.Fresh plan) :
    (s.after (t.setRequest p .idle)).Inv := by
  refine h.wrote hwrites (holder.sane h.sane hfresh rfl) (fun key => ?_)
    (by simp [Request.leases]) trivial
  by_cases hkey : ∃ plan, new plan ∧ plan.sourceRunKey = key
  · obtain ⟨plan, hplan, rfl⟩ := hkey
    exact .inr ⟨since, hmem plan hplan, hlive⟩
  · exact .inl (holder.calm fun plan hplan heq => hkey ⟨plan, hplan, heq⟩)

/-- A run that nothing refers to is deleted under its lease. -/
theorem Inv.deleteRun (hmem : (entry.target.key, entry.since) ∈ (s.requests p).leases)
    (hlive : s.clock < entry.since + leaseTtl) (hfree : ∀ n, ¬ s.Ref entry.target.key n)
    (hsub : x.leases ⊆ (s.requests p).leases)
    (hsound : x.Sound (s.after (s.deleteRun entry.target))) :
    (s.after ((s.deleteRun entry.target).setRequest p x)).Inv := by
  refine h.wrote (writes_deleteRun _) (h.sane.deleteRun hfree) (fun key => ?_) hsub hsound
  by_cases hkey : key = entry.target.key
  · exact .inr ⟨entry.since, hkey ▸ hmem, hlive⟩
  · exact .inl (Calm.deleteRun hkey)

/-! ### Steps of others -/

/-- The documents go on, or time passes; the requests and their leases stay. -/
theorem Inv.others (holder : Older s t fun _ => False) (hsteps : t.steps = s.steps + 1)
    (hclock : s.clock ≤ t.clock) (hrequests : t.requests = s.requests)
    (hleases : ∀ q key e, s.leases key = some (some q, e) → s.clock < e →
      (∃ since, (key, since) ∈ (s.requests q).leases) → t.leases key = some (some q, e)) :
    t.Inv :=
  h.of_step none (holder.sane h.sane (fun _ => nofun) hsteps) hclock
    (fun q _ => congrFun hrequests q) (fun q key e _ => hleases q key e)
    (fun _ _ _ _ _ _ => holder.calm fun _ => nofun) (by simp) (by simp)

lemma Inv.tick (delay : Instant) :
    ({ s with clock := s.clock + delay, steps := s.steps + 1 } : State).Inv :=
  h.others (.later rfl rfl rfl (Nat.le_add_right _ _)) rfl (Nat.le_add_right _ _) rfl
    fun _ _ _ hlease _ _ => hlease

/-- A lease is given back by a holder that does not work under it. -/
theorem Inv.unleased {holder : Holder}
    (hfree : ∀ q, holder = some q → ∀ since, (key, since) ∉ (s.requests q).leases) :
    (s.after (s.releaseLease holder key)).Inv := by
  unfold releaseLease
  split
  case isFalse => exact h.tick 0
  case isTrue hheld =>
    refine h.others (.later rfl rfl rfl le_rfl) rfl le_rfl rfl ?_
    rintro q key' e hlease - ⟨since, hmem⟩
    have hne : key' ≠ key := by
      rintro rfl
      simp only [hlease, any_some, decide_eq_true_eq] at hheld
      exact hfree q hheld.symm since hmem
    simpa [hne] using hlease

/-- Somebody else is granted a lease. -/
theorem Inv.leasedOut {ttl : Instant} (hgrants : s.grants none key) :
    (s.after (s.acquire none key ttl)).Inv := by
  refine h.others (.later rfl rfl rfl le_rfl) rfl le_rfl rfl fun q key' e hlease hlive _ => ?_
  have hne := ne_of_grants hgrants nofun hlease hlive
  simpa [acquire, hne] using hlease

end

/-! ### Steps of requests -/

/-- A plan is fresh when it is made. -/
theorem fresh_planOf (h : s.Sane) {source : RunKey} {artifacts : ℕ} {plan : Plan}
    (hplan : s.planOf source artifacts = some plan) :
    plan.sourceRunKey = source ∧ s.Fresh plan := by
  unfold planOf at hplan
  split at hplan
  · split at hplan
    · cases hplan
      exact ⟨rfl, h.past source⟩
    · cases hplan
  · cases hplan

/-- Sources that are still the runs that were planned are fresh. -/
theorem fresh_sourcesMatch (h : s.Sane) (hmatch : s.sourcesMatch plans)
    (hborn : ∀ plan ∈ plans, ∀ run ∈ s.runs.get? plan.sourceRunKey,
      run.runId = plan.sourceRunId → run.born ≤ plan.planned) :
    ∀ plan ∈ plans, s.Fresh plan := by
  intro plan hplan n hn
  have hsource := List.all_eq_true.mp hmatch plan hplan
  obtain ⟨run, hrun, hid⟩ : ∃ run, s.runs.get? plan.sourceRunKey = some run ∧
      run.runId = plan.sourceRunId := by simpa [Option.any_eq_true] using hsource
  exact (h.reborn _ run n hrun hn).trans_le (hborn plan hplan run hrun hid)

/-- A listing of the runs shows the references that were there when it began. -/
theorem RunRef.mem_runReferences (h : s.Sane) (href : s.RunRef key n) (hle : n ≤ begun) :
    key ∈ s.runReferences begun := by
  obtain ⟨key', run, plan, hrun, hplan, rfl, rfl⟩ := href
  obtain ⟨token, rfl⟩ := h.prefixed key' run plan hrun hplan
  exact mem_filterMap.mpr ⟨_, mem_items_iff.mpr hrun, by simp [hle, hplan]⟩

/-- A listing of the batches does so, too. -/
theorem BatchRef.mem_batchReferences (href : s.BatchRef key n) (hle : n ≤ begun) :
    key ∈ s.batchReferences begun := by
  obtain ⟨token, b, plan, hb, hopen, hplan, rfl, rfl⟩ := href
  refine mem_flatMap.mpr ⟨b, mem_values_iff.mpr ⟨token, hb⟩, ?_⟩
  simpa [hle, hopen] using ⟨plan, hplan, rfl⟩

/-- Every reference was written before. -/
theorem Ref.born (h : s.Sane) (href : s.Ref key n) : n < s.steps := by
  rcases href with ⟨key', run, plan, hrun, -, -, rfl⟩ | ⟨token, b, plan, hb, -, -, -, rfl⟩
  · exact h.bornRun key' run hrun
  · exact h.bornBatch token b hb

/-- A call that began in the first half of the lease returns inside it. -/
theorem unexpired_of_inTime (hissued : issued < since + leaseTtl / 2) (hin : s.inTime issued) :
    s.clock < since + leaseTtl := by
  have hle : s.clock ≤ issued + stateOpTimeout := by simpa [inTime] using hin
  have hslack : leaseTtl / 2 + stateOpTimeout ≤ leaseTtl := by decide
  calc s.clock ≤ issued + stateOpTimeout := hle
    _ < since + leaseTtl / 2 + stateOpTimeout := Nat.add_lt_add_right hissued _
    _ = since + (leaseTtl / 2 + stateOpTimeout) := Nat.add_assoc ..
    _ ≤ since + leaseTtl := Nat.add_le_add_left hslack _

/-! ### Recoveries -/

section

variable (h : s.Inv)

include h

/-- `recover` has read its source. -/
theorem Inv.plan {source : RunKey} {artifacts left : ℕ} {plan : Plan}
    (hx : s.requests p = .planning source since issued)
    (hplan : s.planOf source artifacts = some plan) :
    (s.after (s.setRequest p (.checking token plan since s.clock left))).Inv := by
  obtain ⟨rfl, hfresh⟩ := fresh_planOf h.sane hplan
  exact h.move (fun _ hmem => hx ▸ hmem) fun _ => hfresh

/-- `recover_range` is granted the lease of one more source. -/
theorem Inv.sourced {plan : Plan} {left got : List Plan}
    (hx : s.requests p = .sourcing token (plan :: left) got started since issued)
    (hgrants : s.grants (some p) plan.sourceRunKey)
    (hleases : x.leases = Plan.leases (got ++ [plan]) (if got.isEmpty then s.clock else since))
    (hsound : started ≤ (if got.isEmpty then s.clock else since) →
      (if got.isEmpty then s.clock else since) ≤ s.clock → x.Sound s) :
    (s.after ((s.acquire (some p) plan.sourceRunKey leaseTtl).setRequest p x)).Inv := by
  have hold : started ≤ since ∧ since ≤ s.clock := h.sound_of hx
  have hle : (if got.isEmpty then s.clock else since) ≤ s.clock := by
    split
    · exact le_rfl
    · exact hold.2
  refine h.acquired hgrants ?_ (hsound ?_ hle)
  · intro key since' hmem
    rw [hleases, Plan.leases, map_append, mem_append] at hmem
    rcases hmem with hmem | hmem
    · -- with leases granted before, the first of them counts
      have hgot : got ≠ [] := by
        rintro rfl
        cases hmem
      refine .inl ?_
      rw [hx]
      simpa [Request.leases, Plan.leases, hgot] using hmem
    · obtain ⟨rfl, rfl⟩ : key = plan.sourceRunKey ∧
          since' = if got.isEmpty then s.clock else since := by simpa using hmem
      exact .inr ⟨rfl, hle⟩
  · split
    · exact hold.1.trans hold.2
    · exact hold.1

/-- `recover_range` has found its sources to be the runs it planned, in time. -/
theorem Inv.listed (hx : s.requests p = .listing token plans started since issued)
    (hmatch : s.sourcesMatch plans) (htime : s.clock - started < leaseTtl / 2)
    (hborn : ∀ plan ∈ plans, ∀ run ∈ s.runs.get? plan.sourceRunKey,
      run.runId = plan.sourceRunId → run.born ≤ plan.planned) :
    (s.after (s.setRequest p (.writing token plans since s.clock))).Inv := by
  have hold : started ≤ since ∧ since ≤ s.clock := h.sound_of hx
  refine h.move (fun _ hmem => hx ▸ hmem) ⟨?_, fun plan hplan _ =>
    fresh_sourcesMatch h.sane hmatch hborn plan hplan⟩
  exact (Nat.sub_lt_iff_lt_add' (hold.1.trans hold.2)).mp htime |>.trans_le
    (Nat.add_le_add_right hold.1 _)

/-! ### Retention -/

/-- Retention is granted the lease of a run. -/
theorem Inv.taken {target : Target} {todo : List Target} {taken : Instant}
    (hx : s.requests p = .acquiring target todo held started taken)
    (hgrants : s.grants (some p) target.key) :
    (s.after ((s.acquire (some p) target.key leaseTtl).setRequest p
      (.taking todo (held ++ [{ target, taken, since := s.clock }]) started))).Inv := by
  have hold : taken ≤ s.clock ∧ ∀ e ∈ held, e.taken ≤ e.since := h.sound_of hx
  refine h.acquired hgrants (fun key since hmem => ?_)
    (forall_mem_append.mpr ⟨hold.2, forall_mem_singleton.mpr hold.1⟩)
  rw [Request.leases, Held.leases, map_append, mem_append] at hmem
  rcases hmem with hmem | hmem
  · exact .inl (hx ▸ hmem)
  · obtain ⟨rfl, rfl⟩ : key = target.key ∧ since = s.clock := by simpa using hmem
    exact .inr ⟨rfl, le_rfl⟩

/-- Retention begins to read the references. Every one of them was written before. -/
theorem Inv.reading {todo : List Target}
    (hx : s.requests p = .taking todo held started) :
    (s.after (s.setRequest p (.readingRuns held s.steps s.clock))).Inv := by
  have hold : ∀ e ∈ held, e.taken ≤ e.since := h.sound_of hx
  refine h.move (fun _ hmem => hx ▸ hmem) fun e he => ⟨hold e he, fun _ n href => ?_⟩
  exact (href.born h.sane).le

/-- Retention has listed the runs. -/
theorem Inv.readRuns (hx : s.requests p = .readingRuns held begun issued)
    (more : List RunKey) :
    (s.after (s.setRequest p
      (.readingBatches held (s.runReferences begun ++ more) s.steps s.clock))).Inv := by
  have hold := h.sound_of hx
  refine h.move (fun _ hmem => hx ▸ hmem) fun e he => ⟨(hold e he).1, fun hlive => ⟨?_, ?_⟩⟩
  · intro n href
    have hle := (hold e he).2 hlive n (.inl href)
    exact mem_append_left _ (href.mem_runReferences h.sane hle)
  · exact fun n href => (Ref.born h.sane (.inr href)).le

/-- Retention has listed the batches. -/
theorem Inv.readBatches
    (hx : s.requests p = .readingBatches held referenced begun issued) (more : List RunKey) :
    (s.after (s.setRequest p
      (.deleting held (referenced ++ s.batchReferences begun ++ more)))).Inv := by
  have hold := h.sound_of hx
  refine h.move (fun _ hmem => hx ▸ hmem) fun e he => ⟨(hold e he).1, fun hlive n href => ?_⟩
  obtain ⟨hruns, hbatches⟩ := (hold e he).2 hlive
  rcases href with href | href
  · exact mem_append_left _ (mem_append_left _ (hruns n href))
  · exact mem_append_left _ (mem_append_right _
      (href.mem_batchReferences (hbatches n href)))

/-- Retention goes on to a run that nothing refers to, in time. -/
theorem Inv.next (hx : s.requests p = .deleting (entry :: held) referenced)
    (hfree : entry.target.key ∉ referenced) (htime : s.clock < entry.taken + leaseTtl / 2) :
    (s.after (s.setRequest p (.deletion entry held referenced s.clock))).Inv := by
  have hold := h.sound_of hx
  have hentry := hold entry mem_cons_self
  refine h.move (fun _ hmem => hx ▸ hmem) ⟨?_, ?_, fun e he => hold e (mem_cons_of_mem _ he)⟩
  · exact htime.trans_le (Nat.add_le_add_right hentry.1 _)
  · exact fun hlive n href => hfree (hentry.2 hlive n href)

/-- Retention passes over a run. -/
theorem Inv.skip (hx : s.requests p = .deleting (entry :: held) referenced) :
    (s.after (s.setRequest p (.deleting held referenced))).Inv := by
  have hold := h.sound_of hx
  refine h.move (fun _ hmem => ?_) fun e he => hold e (mem_cons_of_mem _ he)
  rw [hx]
  exact mem_cons_of_mem _ hmem

/-- Retention has deleted a run, and goes on. -/
theorem Inv.deleted (hx : s.requests p = .deletion entry held referenced issued)
    (hin : s.inTime issued) :
    (s.after ((s.deleteRun entry.target).setRequest p (.deleting held referenced))).Inv := by
  obtain ⟨hissued, hfree, hrest⟩ := h.sound_of hx
  have hlive := unexpired_of_inTime hissued hin
  refine h.deleteRun (hx ▸ mem_cons_self) hlive (hfree hlive) (fun _ hmem => ?_) ?_
  · rw [hx]
    exact mem_cons_of_mem _ hmem
  · -- a deletion writes no reference
    intro e he
    refine ⟨(hrest e he).1, fun hlive n href => (hrest e he).2 ?_ n ?_⟩
    · exact (writes_deleteRun entry.target).1 ▸ hlive
    · exact href.imp runRef_of_deleteRun batchRef_of_deleteRun

/-! ### Every step -/

/-- A request gives up its leases. -/
lemma Inv.idle (hx : x.leases = []) (hsound : x.Sound s) : (s.after (s.setRequest p x)).Inv :=
  h.move (by simp [hx]) hsound

/-- A request moves on under the leases that it has. -/
lemma Inv.stay {y : Request} (hx : s.requests p = x) (hy : y.leases = x.leases)
    (hsound : y.Sound s) : (s.after (s.setRequest p y)).Inv :=
  h.move (fun _ hmem => hx ▸ hy ▸ hmem) hsound

/-- A recovery run is written under the lease of its source. -/
lemma Inv.createRun {plan : Plan} (hmem : (plan.sourceRunKey, since) ∈ (s.requests p).leases)
    (hlive : s.clock < since + leaseTtl) (hfresh : s.Fresh plan) :
    (s.after ((s.createRun token plan).setRequest p .idle)).Inv := by
  refine h.created (.createRun token plan) (writes_createRun token plan) ?_ hlive ?_
  · rintro _ rfl
    exact hmem
  · rintro _ rfl
    exact hfresh

/-- A batch is written under the leases of its sources. -/
lemma Inv.createBatch (hmem : Plan.leases plans since ⊆ (s.requests p).leases)
    (hlive : s.clock < since + leaseTtl) (hfresh : ∀ plan ∈ plans, s.Fresh plan) :
    (s.after ((s.createBatch token plans).setRequest p .idle)).Inv :=
  h.created (.createBatch token plans) (writes_createBatch token plans)
    (fun _ hplan => hmem (mem_map_of_mem hplan)) hlive hfresh

attribute [local simp] State.move

/-- The lease of the source of a recovery was asked for. -/
theorem Inv.act_leased (hmove : s.move p (s.requests p) .leased = some t) : (s.after t).Inv := by
  generalize hx : s.requests p = x at hmove
  cases x with
  | leasing source issued =>
    obtain ⟨-, hmove⟩ := ite_none_right_eq_some.mp hmove
    split at hmove
    case isFalse =>
      cases hmove
      exact h.idle rfl trivial
    case isTrue hgrants =>
      cases hmove
      refine h.acquired hgrants (fun key since hmem => .inr ?_) trivial
      obtain ⟨rfl, rfl⟩ : key = source ∧ since = s.clock := by simpa [Request.leases] using hmem
      exact ⟨rfl, le_rfl⟩
  | _ => simp at hmove

/-- The source of a recovery was read. -/
theorem Inv.act_plan {artifacts : ℕ}
    (hmove : s.move p (s.requests p) (.plan token artifacts) = some t) : (s.after t).Inv := by
  generalize hx : s.requests p = x at hmove
  cases x with
  | planning source since issued =>
    obtain ⟨-, hmove⟩ := ite_none_right_eq_some.mp hmove
    split at hmove
    case h_1 plan hplan =>
      cases hmove
      exact h.plan hx hplan
    case h_2 =>
      cases hmove
      exact h.idle rfl trivial
  | _ => simp at hmove

/-- An artifact of the source was looked for. -/
theorem Inv.act_checked (hmove : s.move p (s.requests p) .checked = some t) : (s.after t).Inv := by
  generalize hx : s.requests p = x at hmove
  cases x with
  | checking token plan since issued left =>
    have hsound := h.sound_of hx
    obtain ⟨-, hmove⟩ := ite_none_right_eq_some.mp hmove
    split at hmove
    all_goals
      cases hmove
      exact h.stay hx rfl hsound
  | _ => simp at hmove

/-- The recovery run is written. -/
theorem Inv.act_created (hclear : s.Clear (.act p .created))
    (hmove : s.move p (s.requests p) .created = some t) : (s.after t).Inv := by
  generalize hx : s.requests p = x at hmove
  cases x with
  | creating token plan since issued =>
    obtain ⟨-, ⟨⟩⟩ := ite_none_right_eq_some.mp hmove
    have hlive : s.clock < since + leaseTtl := by
      simpa [unexpired] using hclear token plan since issued hx
    exact h.createRun (hx ▸ mem_singleton_self _) hlive (h.sound_of hx hlive)
  | _ => simp at hmove

/-- The recovery run is written after its request gave up. -/
theorem Inv.act_createdLate (hmove : s.move p (s.requests p) .createdLate = some t) :
    (s.after t).Inv := by
  generalize hx : s.requests p = x at hmove
  cases x with
  | createOut token plan since =>
    obtain ⟨hlive, ⟨⟩⟩ := ite_none_right_eq_some.mp hmove
    have hlive : s.clock < since + leaseTtl := by simpa [unexpired] using hlive
    exact h.createRun (hx ▸ mem_singleton_self _) hlive (h.sound_of hx hlive)
  | _ => simp at hmove

/-- A source of a range is planned. -/
theorem Inv.act_planSource {source : RunKey} {artifacts : ℕ}
    (hmove : s.move p (s.requests p) (.planSource source artifacts) = some t) :
    (s.after t).Inv := by
  generalize s.requests p = x at hmove
  cases x with
  | idle | ranging =>
    obtain ⟨_, -, rfl⟩ := map_eq_some_iff.mp hmove
    exact h.idle rfl trivial
  | _ => simp at hmove

/-- The sources of a range are to be leased. -/
theorem Inv.act_accept (hmove : s.move p (s.requests p) (.accept token) = some t) :
    (s.after t).Inv := by
  generalize s.requests p = x at hmove
  cases x with
  | ranging plans =>
    obtain ⟨-, ⟨⟩⟩ := ite_none_left_eq_some.mp hmove
    exact h.idle rfl ⟨le_rfl, le_rfl⟩
  | _ => simp at hmove

/-- The lease of a source of a range was asked for. -/
theorem Inv.act_sourced (hmove : s.move p (s.requests p) .sourced = some t) : (s.after t).Inv := by
  generalize hx : s.requests p = x at hmove
  cases x with
  | sourcing token left got started since issued =>
    cases left with
    | nil => cases hmove
    | cons plan left =>
      obtain ⟨-, hmove⟩ := ite_none_right_eq_some.mp hmove
      split at hmove
      case isFalse =>
        cases hmove
        exact h.idle rfl trivial
      case isTrue hgrants =>
        cases hmove
        refine h.sourced hx hgrants ?_ fun hstarted hle => ?_
        · split <;> rfl
        · split <;> exact ⟨hstarted, hle⟩
  | _ => simp at hmove

/-- The sources of a range were listed under their leases. -/
theorem Inv.act_listed (hclear : s.Clear (.act p .listed))
    (hmove : s.move p (s.requests p) .listed = some t) : (s.after t).Inv := by
  generalize hx : s.requests p = x at hmove
  cases x with
  | listing token plans started since issued =>
    obtain ⟨-, hmove⟩ := ite_none_right_eq_some.mp hmove
    split at hmove
    case isFalse =>
      cases hmove
      exact h.idle rfl trivial
    case isTrue hlisted =>
      cases hmove
      exact h.listed hx hlisted.1 hlisted.2 (hclear token plans started since issued hx)
  | _ => simp at hmove

/-- A batch is written, or one that was found is written again. -/
theorem Inv.act_written (hclear : s.Clear (.act p .written))
    (hmove : s.move p (s.requests p) .written = some t) : (s.after t).Inv := by
  generalize hx : s.requests p = x at hmove
  cases x with
  | writing token plans since issued =>
    obtain ⟨hin, ⟨⟩⟩ := ite_none_right_eq_some.mp hmove
    obtain ⟨hissued, hfresh⟩ := h.sound_of hx
    have hlive := unexpired_of_inTime hissued hin
    exact h.createBatch (hx ▸ Subset.refl _) hlive fun plan hplan => hfresh plan hplan hlive
  | rewriting token plans =>
    cases hmove
    rw [State.createBatch, if_pos (hclear token plans hx)]
    exact h.idle rfl trivial
  | _ => simp at hmove

/-- A batch is written after its request gave up. -/
theorem Inv.act_writtenLate (hmove : s.move p (s.requests p) .writtenLate = some t) :
    (s.after t).Inv := by
  generalize hx : s.requests p = x at hmove
  cases x with
  | writeOut token plans since =>
    obtain ⟨hlive, ⟨⟩⟩ := ite_none_right_eq_some.mp hmove
    have hlive : s.clock < since + leaseTtl := by simpa [unexpired] using hlive
    exact h.createBatch (hx ▸ Subset.refl _) hlive fun plan hplan => h.sound_of hx plan hplan hlive
  | _ => simp at hmove

/-- Retention goes on to the next run, or has leased enough of them. -/
theorem Inv.act_take (hmove : s.move p (s.requests p) .take = some t) : (s.after t).Inv := by
  generalize hx : s.requests p = x at hmove
  cases x with
  | taking todo held started =>
    cases todo with
    | nil =>
      simp only [State.move] at hmove
      split at hmove
      case isTrue =>
        cases hmove
        exact h.idle rfl trivial
      case isFalse =>
        cases hmove
        exact h.reading hx
    | cons target todo =>
      simp only [State.move] at hmove
      split at hmove
      case isTrue =>
        cases hmove
        exact h.reading hx
      case isFalse =>
        cases hmove
        exact h.stay hx rfl ⟨le_rfl, h.sound_of hx⟩
  | _ => simp at hmove

/-- The lease of a run was asked for by retention. -/
theorem Inv.act_taken (hmove : s.move p (s.requests p) .taken = some t) : (s.after t).Inv := by
  generalize hx : s.requests p = x at hmove
  cases x with
  | acquiring target todo held started taken =>
    obtain ⟨-, hmove⟩ := ite_none_right_eq_some.mp hmove
    split at hmove
    case isFalse =>
      cases hmove
      exact h.stay hx rfl (h.sound_of hx).2
    case isTrue hgrants =>
      cases hmove
      exact h.taken hx hgrants
  | _ => simp at hmove

/-- Retention looks at the next run that it holds. -/
theorem Inv.act_next (hmove : s.move p (s.requests p) .next = some t) : (s.after t).Inv := by
  generalize hx : s.requests p = x at hmove
  cases x with
  | deleting held referenced =>
    cases held with
    | nil =>
      cases hmove
      exact h.idle rfl trivial
    | cons entry held =>
      simp only [State.move] at hmove
      split at hmove
      case isTrue hnext =>
        cases hmove
        exact h.next hx hnext.1 hnext.2
      case isFalse =>
        cases hmove
        exact h.skip hx
  | _ => simp at hmove

/-- A run is deleted after retention gave up. -/
theorem Inv.act_deletedLate (hmove : s.move p (s.requests p) .deletedLate = some t) :
    (s.after t).Inv := by
  generalize hx : s.requests p = x at hmove
  cases x with
  | deleteOut entry =>
    obtain ⟨hlive, ⟨⟩⟩ := ite_none_right_eq_some.mp hmove
    have hlive : s.clock < entry.since + leaseTtl := by simpa [unexpired] using hlive
    exact h.deleteRun (hx ▸ mem_singleton_self _) hlive (h.sound_of hx hlive)
      (by simp [Request.leases]) trivial
  | _ => simp at hmove

/-- A request gives up. What it was writing may still be written. -/
theorem Inv.act_giveUp (hmove : s.move p (s.requests p) .giveUp = some t) : (s.after t).Inv := by
  generalize hx : s.requests p = x at hmove
  cases x with
  | creating token plan since issued =>
    have hsound := h.sound_of hx
    cases hmove
    exact h.stay hx rfl hsound
  | writing token plans since issued =>
    cases hmove
    exact h.stay hx rfl (h.sound_of hx).2
  | deletion entry held referenced issued =>
    cases hmove
    refine h.move (fun _ hmem => ?_) (h.sound_of hx).2.1
    rw [hx]
    exact mem_cons.mpr (.inl (mem_singleton.mp hmem))
  | _ =>
    simp only [State.move, Option.some.injEq] at hmove
    subst hmove
    exact h.idle rfl trivial

/-- Every step of a request keeps the invariant. -/
theorem Inv.act {action : Action} (hclear : s.Clear (.act p action))
    (hmove : s.move p (s.requests p) action = some t) : (s.after t).Inv := by
  cases action with
  | giveUp => exact h.act_giveUp hmove
  | recover source =>
    generalize s.requests p = x at hmove
    cases x with
    | idle =>
      cases hmove
      exact h.idle rfl trivial
    | _ => simp at hmove
  | leased => exact h.act_leased hmove
  | plan token artifacts => exact h.act_plan hmove
  | checked => exact h.act_checked hmove
  | created => exact h.act_created hclear hmove
  | createdLate => exact h.act_createdLate hmove
  | planSource source artifacts => exact h.act_planSource hmove
  | accept token => exact h.act_accept hmove
  | resume token =>
    generalize s.requests p = x at hmove
    cases x with
    | idle =>
      obtain ⟨_, -, rfl⟩ := map_eq_some_iff.mp hmove
      exact h.idle rfl trivial
    | _ => simp at hmove
  | sourced => exact h.act_sourced hmove
  | listed => exact h.act_listed hclear hmove
  | written => exact h.act_written hclear hmove
  | writtenLate => exact h.act_writtenLate hmove
  | retain targets =>
    generalize s.requests p = x at hmove
    cases x with
    | idle =>
      cases hmove
      exact h.idle rfl (by simp [Request.Sound])
    | _ => simp at hmove
  | take => exact h.act_take hmove
  | taken => exact h.act_taken hmove
  | readRuns more =>
    generalize hx : s.requests p = x at hmove
    cases x with
    | readingRuns =>
      obtain ⟨-, ⟨⟩⟩ := ite_none_right_eq_some.mp hmove
      exact h.readRuns hx more
    | _ => simp at hmove
  | readBatches more =>
    generalize hx : s.requests p = x at hmove
    cases x with
    | readingBatches =>
      obtain ⟨-, ⟨⟩⟩ := ite_none_right_eq_some.mp hmove
      exact h.readBatches hx more
    | _ => simp at hmove
  | next => exact h.act_next hmove
  | deleted =>
    generalize hx : s.requests p = x at hmove
    cases x with
    | deletion =>
      obtain ⟨hin, ⟨⟩⟩ := ite_none_right_eq_some.mp hmove
      exact h.deleted hx hin
    | _ => simp at hmove
  | deletedLate => exact h.act_deletedLate hmove

/-- Every clear step keeps the invariant. -/
theorem Inv.step {e : Event} (hclear : s.Clear e) (hstep : s.step e = some t) :
    t.Inv := by
  obtain ⟨u, happly, rfl⟩ := map_eq_some_iff.mp hstep
  cases e with simp only [apply] at happly
  | tick delay =>
    cases happly
    exact h.tick delay
  | start key runId =>
    split at happly
    · cases happly
    · cases happly
      exact h.others (.setRun (.inr ⟨rfl, nofun⟩)) rfl le_rfl rfl fun _ _ _ hlease _ _ => hlease
  | advance key terminal prepared =>
    obtain ⟨run, hrun, rfl⟩ := map_eq_some_iff.mp happly
    refine h.others (.setRun (.inl ⟨run, hrun, rfl, fun plan hplan => ?_⟩)) rfl le_rfl rfl
      fun _ _ _ hlease _ _ => hlease
    cases prepared
    · exact hplan
    · cases hplan
  | record token complete =>
    obtain ⟨b, hb, rfl⟩ := map_eq_some_iff.mp happly
    refine h.others (.setBatch (.inl ⟨b, hb, rfl, rfl, fun hopen => ?_⟩)) rfl le_rfl rfl
      fun _ _ _ hlease _ _ => hlease
    simp only [Batch.isOpen, Bool.not_or, Bool.and_eq_true] at hopen ⊢
    exact ⟨hopen.1.1, hopen.2⟩
  | dropBatch token =>
    split at happly
    · split at happly
      · cases happly
        exact h.others .dropBatch rfl le_rfl rfl fun _ _ _ hlease _ _ => hlease
      · cases happly
    · cases happly
  | lease key ttl =>
    split at happly
    case isTrue hgrants =>
      cases happly
      exact h.leasedOut hgrants
    case isFalse => cases happly
  | unlease key =>
    cases happly
    exact h.unleased (by simp)
  | release q key =>
    split at happly
    case isTrue => cases happly
    case isFalse hfree =>
      cases happly
      refine h.unleased ?_
      rintro _ ⟨⟩ since hmem
      exact hfree (mem_map_of_mem (f := Prod.fst) hmem)
  | act q action => exact h.act hclear happly

end

end Steps

/-! ## Every run -/

/-- No request is under way. Recoveries may have been accepted before. -/
structure Starts (s : State) : Prop where
  requests : ∀ p, s.requests p = .idle
  deleted : s.deleted = []
  bornRun : ∀ key run, s.runs.get? key = some run → run.born < s.steps
  bornBatch : ∀ token b, s.batches.get? token = some b → b.born < s.steps
  prefixed : ∀ key run plan, s.runs.get? key = some run → run.preparing = some plan →
    ∃ token, key = .recovery token

lemma Starts.inv (h : s.Starts) : s.Inv where
  sane :=
    { runs := by simp [Fresh, h.deleted]
      batches := by simp [Fresh, h.deleted]
      bornRun := h.bornRun
      bornBatch := h.bornBatch
      past := by simp [h.deleted]
      reborn := by simp [h.deleted]
      prefixed := h.prefixed }
  kept p := by simp [h.requests p, Request.leases]
  sound p := by simp [h.requests p, Request.Sound]

/-- **Sources are retained.** In every run whose steps are clear, retention has not deleted the
source of a recovery in preparation, or of a recovery in an open batch, since it was planned. -/
theorem sources_retained {s t : State} {events : List Event} (hs : s.Starts)
    (hrun : Trace.Run (fun s e t => s.Clear e ∧ s.step e = some t) s events t) :
    (∀ key run plan, t.runs.get? key = some run → run.preparing = some plan → t.Fresh plan) ∧
      ∀ token b, t.batches.get? token = some b → b.isOpen t.clock →
        ∀ plan ∈ b.plans, t.Fresh plan := by
  have hinv : t.Inv := hrun.invariant (fun _ _ _ h hstep => h.step hstep.1 hstep.2) hs.inv
  exact ⟨hinv.sane.runs, hinv.sane.batches⟩

/-! ## Two runs -/

private def empty : State :=
  { clock := 0, steps := 0, runs := .empty, batches := .empty, leases := fun _ => none
    requests := fun _ => .idle }

private lemma empty_starts : empty.Starts where
  requests _ := rfl
  deleted := rfl
  bornRun := by simp [empty]
  bornBatch := by simp [empty]
  prefixed := by simp [empty]

/-- A run that has finished. -/
private def finished (key : String) : List Event :=
  [.start key "id", .advance (.run key) true true]

/-- What retention lists of it. -/
private def target (key : String) : Target := { key := .run key, runId := "id", createdAt := 0 }

/-- The first request recovers a run up to its last check of an artifact. -/
private def recovering (key : String) (artifacts : ℕ) : List Event :=
  [.act 0 (.recover (.run key)), .act 0 .leased, .act 0 (.plan "t" artifacts)]

private def clearStep (s : State) : Event → Option State
  | .act p .created =>
    match s.requests p with
    | .creating _ _ since _ => if s.unexpired since then s.step (.act p .created) else none
    | _ => none
  | .act _ .written | .act _ .listed => none
  | e => s.step e

private lemma clear_of_clearStep {e : Event} (h : clearStep s e = some t) :
    s.Clear e ∧ s.step e = some t := by
  unfold clearStep at h
  split at h
  · split at h
    case h_1 token plan since issued hx =>
      obtain ⟨hlive, hstep⟩ := ite_none_right_eq_some.mp h
      refine ⟨fun token' plan' since' issued' hx' => ?_, hstep⟩
      obtain ⟨-, -, rfl, -⟩ := Request.creating.inj (hx.symm.trans hx')
      exact hlive
    case h_2 => cases h
  · cases h
  · cases h
  case h_4 hcreated hwritten hlisted =>
    refine ⟨?_, h⟩
    unfold Clear
    split
    · exact absurd rfl (hcreated _)
    · exact absurd rfl (hwritten _)
    · exact absurd rfl (hlisted _)
    · trivial

/-- Of two finished runs, one is recovered: retention deletes the other and spares it. -/
private def spared : List Event :=
  finished "a" ++ finished "b" ++ recovering "a" 0 ++
    [.act 0 .checked, .act 0 .created, .release 0 (.run "a"),
      .act 1 (.retain [target "a", target "b"]), .act 1 .take, .act 1 .taken, .act 1 .take,
      .act 1 .taken, .act 1 .take, .act 1 (.readRuns []), .act 1 (.readBatches []), .act 1 .next,
      .act 1 .next, .act 1 .deleted]

theorem sources_retained_spared : ∃ t run plan,
    Trace.Run (fun s e t => s.Clear e ∧ s.step e = some t) empty spared t ∧
      t.runs.get? (.recovery "t") = some run ∧ run.preparing = some plan ∧
      plan.sourceRunKey = .run "a" ∧ t.deleted.map Prod.fst = [.run "b"] ∧ t.Fresh plan := by
  have hfold : (spared.foldlM clearStep empty).map (fun t =>
      ((t.runs.get? (.recovery "t")).bind (·.preparing), t.deleted.map Prod.fst)) =
      some (some ⟨.run "a", "id", 0, 6⟩, [.run "b"]) := by
    decide +kernel
  obtain ⟨t, ht, hsummary⟩ := map_eq_some_iff.mp hfold
  obtain ⟨hrun, hdeleted⟩ := Prod.mk.inj hsummary
  obtain ⟨run, hrun, hplan⟩ := bind_eq_some_iff.mp hrun
  have htrace := (Run.of_foldlM ht).mono fun _ _ _ => clear_of_clearStep
  exact ⟨t, run, _, htrace, hrun, hplan, rfl, hdeleted,
    (sources_retained empty_starts htrace).1 _ run _ hrun hplan⟩

/-- A call that takes nine seconds. -/
private def slowCheck : List Event := [.tick (9 * second), .act 0 .checked]

/-- Six artifacts are checked on a slow store. The lease expires, and retention comes by before
the recovery is written. -/
private def slow : List Event :=
  finished "a" ++ recovering "a" 6 ++ (List.replicate 7 slowCheck).flatten ++
    [.act 1 (.retain [target "a"]), .act 1 .take, .act 1 .taken, .act 1 .take,
      .act 1 (.readRuns []), .act 1 (.readBatches []), .act 1 .next, .act 1 .deleted,
      .act 0 .created]

/-- The recovery is in preparation, and its source was deleted after it was planned. -/
theorem expired_lease_loses_source : ∃ t run plan n, empty.Starts ∧
    Trace.Run (fun s e t => s.step e = some t) empty slow t ∧
      t.runs.get? (.recovery "t") = some run ∧ run.preparing = some plan ∧
      (plan.sourceRunKey, n) ∈ t.deleted ∧ plan.planned < n ∧
      t.runs.get? plan.sourceRunKey = none := by
  have hfold : (slow.foldlM step empty).map (fun t =>
      ((t.runs.get? (.recovery "t")).bind (·.preparing), t.deleted, t.runs.get? (.run "a"))) =
      some (some ⟨.run "a", "id", 6, 4⟩, [(.run "a", 26)], none) := by
    decide +kernel
  obtain ⟨t, ht, hsummary⟩ := map_eq_some_iff.mp hfold
  simp only [Prod.mk.injEq] at hsummary
  obtain ⟨hrun, hdeleted, hgone⟩ := hsummary
  obtain ⟨run, hrun, hplan⟩ := bind_eq_some_iff.mp hrun
  exact ⟨t, run, _, 26, empty_starts, .of_foldlM ht, hrun, hplan, by simp [hdeleted], by decide,
    hgone⟩

end State

end Cronstable.Dag.Retention

import Cronstable.Dag.Invariant

/-!
# What a visit leaves behind

The walk of a pass visits every task once. What the visit leaves behind rests (`Rests`): the
dispatch would not touch the entry again while the upstreams say what they said, unless the visit
was deferred (`walkTask_rests`). The placeholder of a mapped task that is not expanded stays pending
only while neither its upstreams nor its source end it (`held_of_pending`).
-/

namespace Cronstable.Dag

open List Dict

variable {spec : DagSpec} {body : RunBody} {now : Time} {proc host : String} {t : TaskSpec}
  {p q : Pass} {v w : Verdict} {e : TaskEntry}

/-- A pass keeps the shape of the document. -/
theorem Advances.wf (hspec : ValidSpec spec) (h : Advances spec p q) (hwf : WF spec p.body) :
    WF spec q.body := by
  obtain ⟨events, h⟩ := h
  exact h.run.invariant (fun _ _ _ hb hstep => hb.step hspec hstep) hwf

/-! ## Deferrals -/

/-- A dispatch that ends without a deferral began without one. -/
lemma advanceTask_deferred {inst : Instance} {r : AdvanceResult} {fallback : Verdict}
    {verdict : Option Verdict}
    (h : (advanceTask t inst now proc host fallback verdict e r).2.deferred = false) :
    r.deferred = false := by
  have hclaim : (claimTask t inst now proc host e r).2.deferred = false → r.deferred = false := by
    unfold claimTask
    split_ifs
    · exact id
    · exact nofun
    · exact id
  revert h
  unfold advanceTask
  split
  next => exact id
  next =>
    split
    next =>
      unfold advanceRunning
      split_ifs <;> first | exact id | exact nofun
    next =>
      split
      next => exact hclaim
      next => exact id
    next =>
      split
      next => exact id
      next => exact id
      next => exact id
      next =>
        split
        next => exact id
        next => exact hclaim
    next => exact id

/-- A deferral stays noted. -/
theorem walkInstance_deferred {inst : Instance} {s : Pass × Option Verdict}
    (h : (walkInstance spec now proc host t s inst).1.result.deferred = false) :
    s.1.result.deferred = false := by
  unfold walkInstance at h
  simp only at h
  split at h
  next =>
    split at h
    next => exact h
    next => exact h
  next => exact advanceTask_deferred h

/-- A visit that ends without a deferral began without one. -/
lemma walkTask_deferred (h : (walkTask spec now proc host p t).result.deferred = false) :
    p.result.deferred = false := by
  revert h
  unfold walkTask
  simp only
  split
  next =>
    unfold propagatePlaceholder resolveStalePlaceholder
    repeat' split
    all_goals exact id
  next =>
    split
    next =>
      split
      next => exact id
      next =>
        split
        next => exact id
        next => exact advanceTask_deferred
    next =>
      refine List.foldlRecOn (motive := fun s : Pass × Option Verdict =>
        s.1.result.deferred = false → p.result.deferred = false) _ _ id ?_
      exact fun s hs inst _ h => hs (walkInstance_deferred h)

/-! ## Entries at rest -/

/-- The dispatch leaves the entry of an instance of `t` alone at `now` under the verdict `v`. -/
def Rests (t : TaskSpec) (now : Time) (v : Verdict) (e : TaskEntry) : Prop :=
  match e.state with
  | .pending => v = .wait
  | .upForRetry => now < e.nextRetryAt.getD 0
  | .running =>
    if t.type = .sensor then
      e.pid.isSome = true ∨ e.proc.isSome = true ∨ e.nextPokeAt.any (now < ·) = true
    else e.proc ≠ none ∨ e.pid ≠ none ∨ e.awaitingApproval = true
  | _ => True

lemma rests_of_inert (h : e.state.inert = true) : Rests t now v e := by
  unfold Rests
  split <;> simp_all [TaskState.inert]

/-- Only a pending entry looks at the verdict. -/
theorem Rests.of_wait (h : Rests t now v e) (hw : v = .wait → w = .wait) : Rests t now w e := by
  by_cases hs : e.state = .pending
  · simp only [Rests, hs] at h ⊢
    exact hw h
  · unfold Rests at h ⊢
    split at h <;> first | contradiction | exact h

section Dispatch

variable {inst : Instance} {fallback : Verdict} {verdict : Option Verdict} {r : AdvanceResult}

lemma advanceTask_of_rests (h : Rests t now v e)
    (hv : e.state = .pending → verdict.getD fallback = v) :
    advanceTask t inst now proc host fallback verdict e r = (e, r) := by
  unfold advanceTask
  split
  next => rfl
  next =>
    split
    next hs =>
      simp only [Rests, hs] at h
      unfold advanceRunning
      by_cases hsensor : t.type = .sensor
      · simp only [hsensor, if_true] at h
        by_cases howned : e.pid.isSome = true ∨ e.proc.isSome = true
        · simp [hsensor, howned]
        · have hdue : e.nextPokeAt.any (now < ·) = true := by
            rcases h with h | h | h
            · exact absurd (.inl h) howned
            · exact absurd (.inr h) howned
            · exact h
          simp [hsensor, howned, hdue]
      · simp only [hsensor, if_false] at h
        have hbusy : ¬ (e.proc = none ∧ e.pid = none ∧ e.awaitingApproval = false) := by
          rintro ⟨hproc, hpid, hgate⟩
          simp [hproc, hpid, hgate] at h
        simp [hsensor, hbusy]
    next hs =>
      simp only [Rests, hs] at h
      rw [if_neg fun hdue => absurd hdue.1 (not_le.mpr h)]
    next hs =>
      simp only [Rests, hs] at h
      rw [hv hs, h]
    next => rfl

private lemma claimTask_rests
    (h : (claimTask t inst now proc host e r).2.deferred = false) :
    Rests t now v (claimTask t inst now proc host e r).1 := by
  unfold claimTask at h ⊢
  split
  next happroval => simp [Rests, parkedEntry, happroval]
  next =>
    split
    next hfull => simp_all [AdvanceResult.defer]
    next => simp [Rests, claimedEntry]

private lemma advanceRunning_rests (hs : e.state = .running)
    (h : (advanceRunning t inst now proc host e r).2.deferred = false) :
    Rests t now v (advanceRunning t inst now proc host e r).1 := by
  unfold advanceRunning at h ⊢
  by_cases hsensor : t.type = .sensor
  · simp only [hsensor, ne_eq, not_true, if_false] at h ⊢
    split_ifs at h ⊢ with howned hwait htimeout hfull
    · simpa [Rests, hs, hsensor, or_assoc] using Or.inl howned
    · simp [Rests, hs, hsensor, hwait]
    · exact rests_of_inert rfl
    · cases h
    · simp [Rests, pokedEntry, hs, hsensor]
  · simp only [hsensor, ne_eq, not_false_eq_true, if_true] at h ⊢
    split_ifs with hidle
    · exact rests_of_inert rfl
    · simp only [Rests, hs, hsensor, if_false]
      by_cases hproc : e.proc = none
      · by_cases hpid : e.pid = none
        · exact .inr (.inr (by simpa [hproc, hpid] using hidle))
        · exact .inr (.inl hpid)
      · exact .inl hproc

/-- What the dispatch leaves behind rests, unless it was deferred. -/
theorem advanceTask_rests (hv : e.state = .pending → verdict.getD fallback = v)
    (h : (advanceTask t inst now proc host fallback verdict e r).2.deferred = false) :
    Rests t now v (advanceTask t inst now proc host fallback verdict e r).1 := by
  have hdeferred := advanceTask_deferred h
  unfold advanceTask at h ⊢
  by_cases hinert : e.state.inert = true
  · rw [if_pos hinert]
    exact rests_of_inert hinert
  · rw [if_neg hinert] at h ⊢
    cases hs : e.state with
    | running =>
      simp only [hs] at h ⊢
      exact advanceRunning_rests hs h
    | upForRetry =>
      simp only [hs, hdeferred, Bool.false_eq_true, false_and, not_false_eq_true, and_true] at h ⊢
      split_ifs at h ⊢ with hdue
      · exact claimTask_rests h
      · simpa [Rests, hs] using hdue
    | pending =>
      simp only [hs, hv hs, hdeferred, Bool.false_eq_true, false_and, if_false] at h ⊢
      cases v with
      | wait => simp [Rests, hs]
      | fail | skip => exact rests_of_inert rfl
      | ready => exact claimTask_rests h
    | _ => simp [Rests, hs]

end Dispatch

/-! ## What a visit leaves behind -/

private lemma walkInstance_rests {s : Pass × Option Verdict} {inst : Instance}
    (hcached : ∀ u, s.2 = some u → u = v) (hverdict : depsVerdict spec s.1.body t = v)
    (hdeferred : (walkInstance spec now proc host t s inst).1.result.deferred = false)
    (hget : (walkInstance spec now proc host t s inst).1.body.tasks.get? inst.key = some e) :
    Rests t now v e := by
  unfold walkInstance at hget hdeferred
  cases hold : s.1.body.tasks.get? inst.key with
  | none =>
    cases hindex : inst.mapIndex with
    | none =>
      simp only [hold, hindex] at hget
      cases hget
    | some i =>
      simp only [hold, hindex, resolveMissingInstance, RunBody.setEntry_tasks,
        get?_set_self, Option.some.injEq] at hget
      rw [← hget]
      exact rests_of_inert rfl
  | some e₀ =>
    simp only [hold, RunBody.setEntry_tasks, get?_set_self,
      Option.some.injEq] at hget hdeferred
    rw [← hget]
    refine advanceTask_rests (fun hpending => ?_) hdeferred
    cases hs : s.2 with
    | some u => exact hcached u hs
    | none => simp [hpending, hverdict]

/-- A visit to another instance leaves the entry alone. -/
private lemma walkInstance_frame {s : Pass × Option Verdict} {inst : Instance} {key : String}
    (hne : key ≠ inst.key) :
    (walkInstance spec now proc host t s inst).1.body.tasks.get? key =
      s.1.body.tasks.get? key := by
  unfold walkInstance
  simp only
  split
  next =>
    split
    next => rfl
    next => simp [resolveMissingInstance, hne]
  next => simp [hne]

/-- Visiting the instances of a fan-out: those visited rest. -/
private lemma foldl_walkInstance_rests (hspec : ValidSpec spec) (ht : t ∈ spec.tasks)
    (l : List Instance) (hl : ∀ inst ∈ l, inst ∈ instancesOf p.body t) :
    Handed spec t p (l.foldl (walkInstance spec now proc host t) (p, none)).1
        (l.foldl (walkInstance spec now proc host t) (p, none)).2 ∧
      ((l.foldl (walkInstance spec now proc host t) (p, none)).1.result.deferred = false →
        ∀ inst ∈ l, ∀ e, (l.foldl (walkInstance spec now proc host t)
          (p, none)).1.body.tasks.get? inst.key = some e →
          Rests t now (depsVerdict spec p.body t) e) := by
  -- along the visits, newest last
  induction l using List.reverseRecOn with
  | nil => exact ⟨⟨.refl p, fun v hv => nomatch hv⟩, fun _ inst hinst => nomatch hinst⟩
  | append_singleton l inst ih =>
    obtain ⟨hhanded, hvisited⟩ := ih fun i hi => hl i (mem_append_left _ hi)
    have hinst := hl inst (by simp)
    rw [foldl_append, foldl_cons, foldl_nil]
    refine ⟨walkInstance_handed now proc host hspec ht hhanded hinst,
      fun hdeferred i hi e he => ?_⟩
    by_cases hkey : i.key = inst.key
    · rw [hkey] at he
      exact walkInstance_rests hhanded.2 (hhanded.1.depsVerdict_eq hspec ht) hdeferred he
    · rw [walkInstance_frame hkey] at he
      have hi : i ∈ l := by
        rcases mem_append.mp hi with hi | hi
        · exact hi
        · exact absurd (congrArg Instance.key (mem_singleton.mp hi)) hkey
      exact hvisited (walkInstance_deferred hdeferred) i hi e he

/-- A visit that deferred nothing leaves the entries of a task at rest, its placeholder apart. -/
theorem walkTask_rests (hspec : ValidSpec spec) (hwf : WF spec p.body) (ht : t ∈ spec.tasks)
    (hexpanded : t.expand.isSome = true → p.body.mapped.contains t.id = true)
    (hdeferred : (walkTask spec now proc host p t).result.deferred = false) {key : String}
    (hown : Owns t.id key)
    (hget : (walkTask spec now proc host p t).body.tasks.get? key = some e) :
    Rests t now (depsVerdict spec p.body t) e := by
  have htouch := walkTask_touches now proc host hspec ht p
  have hslot := ((htouch.advances.wf hspec hwf).slot hspec ht hown hget).2
  have hmapped := htouch.advances.mapped_eq
  have hfirst := walkTask_deferred hdeferred
  -- the slot tells which branch of the walk was taken
  cases hslot with
  | group _ _ _ _ hstate => exact rests_of_inert (by rw [hstate]; rfl)
  | waiting _ _ hexp hnone =>
    rw [Dict.contains, hmapped, ← Dict.contains, hexpanded hexp] at hnone
    cases hnone
  | plain hkey _ hexp =>
    subst hkey
    obtain ⟨e₀, he₀⟩ := hwf.entry t ht
    have hunrecorded : p.body.mapped.contains t.id = false := by
      cases hrec : p.body.mapped.get? t.id with
      | none => rw [Dict.contains, hrec]; rfl
      | some r =>
        obtain ⟨u, hu, hid, hsome, -⟩ := hwf.recorded _ _ hrec
        rw [hspec.eq_of_id hu ht hid, hexp] at hsome
        cases hsome
    simp only [walkTask, hexp, hunrecorded, he₀, Option.isSome_none, Bool.false_and,
      Bool.false_eq_true, if_false, Bool.not_false, if_true, hfirst, false_and, and_false,
      RunBody.setEntry_tasks, get?_set_self, Option.some.injEq] at hget hdeferred
    rw [← hget]
    exact advanceTask_rests (fun hpending => by simp [hpending]) hdeferred
  | inst i record hrec hlt hkey =>
    rw [hmapped] at hrec
    have hcontains : p.body.mapped.contains t.id = true := contains_iff.mpr ⟨_, hrec⟩
    have hwalk : walkTask spec now proc host p t =
        ((instancesOf p.body t).foldl (walkInstance spec now proc host t) (p, none)).1 := by
      rw [walkTask]
      simp only [hcontains, Bool.not_true, Bool.and_false, Bool.false_eq_true, if_false]
    have hinst : Instance.mk key (some i) (some record.items[i]) ∈ instancesOf p.body t := by
      rw [instancesOf, hrec, hkey]
      refine mem_map.mpr ⟨(record.items[i], i), ?_, rfl⟩
      exact mem_zipIdx_iff_getElem?.mpr (List.getElem?_eq_getElem hlt)
    rw [hwalk] at hget hdeferred
    exact (foldl_walkInstance_rests hspec ht _ fun _ h => h).2 hdeferred _ hinst e hget

/-! ## Placeholders -/

lemma walkTask_of_placeholder {exp : ExpandSpec} (hexp : t.expand = some exp)
    (hnone : p.body.mapped.contains t.id = false) :
    walkTask spec now proc host p t = propagatePlaceholder spec t now p := by
  rw [walkTask]
  simp only [hexp, hnone, Option.isSome_some, Bool.not_false, Bool.and_self, if_true]

/-- Neither the upstreams nor the source of a mapped task end its placeholder. -/
def Held (v : Verdict) (source : TaskState) : Prop :=
  v ≠ .fail ∧ v ≠ .skip ∧ source.failure = false ∧ source ≠ .skipped

section Placeholder

variable {exp : ExpandSpec} {e₀ : TaskEntry} (hexp : t.expand = some exp)
  (hpresent : p.body.tasks.contains exp.fromTask = true)
  (he₀ : p.body.tasks.get? t.id = some e₀)
include hexp hpresent he₀

lemma propagatePlaceholder_of_held (hpending : e₀.state = .pending)
    (h : Held (depsVerdict spec p.body t) (effectiveState spec p.body exp.fromTask)) :
    propagatePlaceholder spec t now p = p := by
  obtain ⟨hfail, hskip, hsource, hskipped⟩ := h
  simp only [propagatePlaceholder, he₀, hexp, hpresent, hpending, ne_eq, not_true, if_false,
    Bool.true_or, Bool.not_true, Bool.false_eq_true]
  cases hs : effectiveState spec p.body exp.fromTask <;>
    cases hv : depsVerdict spec p.body t <;> simp_all

/-- A placeholder that a visit leaves pending was pending and held. -/
theorem held_of_pending
    (hget : (propagatePlaceholder spec t now p).body.tasks.get? t.id = some e)
    (hpending : e.state = .pending) :
    e₀.state = .pending ∧
      Held (depsVerdict spec p.body t) (effectiveState spec p.body exp.fromTask) := by
  simp only [propagatePlaceholder, he₀, hexp, hpresent, Bool.true_or, Bool.not_true,
    Bool.false_eq_true, if_false] at hget
  by_cases hs₀ : e₀.state = .pending
  · refine ⟨hs₀, ?_⟩
    cases hs : effectiveState spec p.body exp.fromTask <;>
      cases hv : depsVerdict spec p.body t <;>
      simp_all [Held, Pass.endTask]
    all_goals
      rw [← hget] at hpending
      cases hpending
  · simp only [hs₀, ne_eq, not_false_eq_true, if_true, resolveStalePlaceholder] at hget
    -- an entry in another state is kept or failed
    split_ifs at hget
    · rw [he₀] at hget
      exact absurd (Option.some.inj hget ▸ hpending) hs₀
    · rw [he₀] at hget
      exact absurd (Option.some.inj hget ▸ hpending) hs₀
    · simp only [Pass.endTask, RunBody.setEntry_tasks, get?_set_self,
        Option.some.injEq] at hget
      rw [← hget] at hpending
      cases hpending

end Placeholder

end Cronstable.Dag

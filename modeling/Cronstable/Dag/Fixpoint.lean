import Cronstable.Dag.Fused

/-!
# One pass reaches a fixpoint

A pass that deferred nothing leaves nothing for a second one at the same time: the second launches
nothing and keeps the document, whatever the declaration order of the tasks. So a driver need not
advance a run again until time passes or an event changes the document.

What a visit leaves behind rests while the upstreams say what they said (`Rests`). The last walk of
the pass comes to every task with its upstreams as they are at the end (`walkAndClaim_visit`), so at
the end every entry rests, and a further walk changes nothing. A placeholder that is not expanded is
left to its list, supplied or not.
-/

namespace Cronstable.Dag

variable {spec : DagSpec} {body : RunBody} {now : Time} {proc host : String} {t : TaskSpec}
  {p q : Pass} {v w : Verdict} {e : TaskEntry}

/-! ## The second walk -/

/-- After the last walk of a pass that deferred nothing, a further visit to a task changes
nothing. -/
private lemma walkTask_again (hspec : ValidSpec spec) (hwf : WF spec p.body)
    (ht : t ∈ spec.tasks) {x : Pass} (hx : VisitedAt spec now proc host p q t x)
    (hdeferred : q.result.deferred = false) :
    walkTask spec now proc host { body := q.body } t = { body := q.body } := by
  have hwfx := hx.reached.wf hspec hwf
  have hwfq := (hx.visit.trans hx.rest).wf hspec hwfx
  have hmapped := (hx.visit.trans hx.rest).mapped_eq
  have hcontains : q.body.mapped.contains t.id = x.body.mapped.contains t.id := by rw [hmapped]
  -- a verdict other than "wait" was there at the visit already
  have hverdict : depsVerdict spec x.body t = .wait → depsVerdict spec q.body t = .wait := by
    intro hwait
    by_contra hne
    exact hne ((hx.depsVerdict_eq now proc host hspec ht hwf hne).symm.trans hwait)
  refine walkTask_eq_self hwfq ht (fun hexp hnone => ?_)
    fun hexpanded inst e fallback verdict hown hget hv => ?_
  · obtain ⟨exp, hexp⟩ := Option.isSome_iff_exists.mp hexp
    obtain ⟨-, hdep, -⟩ := hspec.expand t ht exp hexp
    obtain ⟨u, hu, hid⟩ := hspec.known t ht _ hdep
    have hpresent : ∀ {b : RunBody}, WF spec b → b.tasks.contains exp.fromTask = true :=
      fun hb => Dict.contains_iff.mpr (hid ▸ hb.entry u hu)
    obtain ⟨e, hget⟩ := hwfq.entry t ht
    obtain ⟨e₀, he₀⟩ := hwfx.entry t ht
    have hstate : e.state = .pending ∨ e.state.inert = true := by
      cases (hwfq.slot hspec ht (Or.inl rfl) hget).2 with
      | plain _ _ hexp' => rw [hexp] at hexp'; cases hexp'
      | waiting _ _ _ _ hs => exact hs.imp_right fun hs => by simp [TaskState.inert, hs.1]
      | group _ _ _ hrec => rw [hnone] at hrec; cases hrec
      | inst i _ _ _ hkey => exact absurd hkey.symm (instanceKey_ne (hspec.no_hash t ht) i)
    rcases hstate with hpending | hinert
    · -- the visit left the placeholder pending, and what held it then holds it now
      have hthen := hx.frame t.id (Or.inl rfl)
      rw [hget, walkTask_of_placeholder hexp (hcontains ▸ hnone)] at hthen
      obtain ⟨-, hfail, hskip, hsource, hskipped⟩ :=
        held_of_pending hexp (hpresent hwfx) he₀ hthen.symm hpending
      refine propagatePlaceholder_of_held hexp (hpresent hwfq) hget hpending ?_
      have hsame : depsVerdict spec q.body t = .wait ∨
          depsVerdict spec q.body t = depsVerdict spec x.body t :=
        or_iff_not_imp_left.mpr fun hne =>
          (hx.depsVerdict_eq now proc host hspec ht hwf hne).symm
      rw [effectiveState_eq] at hsource hskipped ⊢
      cases hdone : (mappedGroupState q.body exp.fromTask).terminal with
      | true =>
        rw [hx.upstream _ hdep hdone] at hsource hskipped
        refine ⟨?_, ?_, hsource, hskipped⟩ <;> rcases hsame with h | h <;> rw [h] <;>
          first | decide | assumption
      | false =>
        refine ⟨?_, ?_, ?_, ?_⟩
        · rcases hsame with h | h <;> rw [h] <;> first | decide | assumption
        · rcases hsame with h | h <;> rw [h] <;> first | decide | assumption
        · cases hs : mappedGroupState q.body exp.fromTask <;> simp_all
        · rintro hs
          rw [hs] at hdone
          cases hdone
    · have hne : e.state ≠ .pending := by
        intro hpending
        rw [hpending] at hinert
        cases hinert
      simp [propagatePlaceholder, hget, hne, resolveStalePlaceholder, hinert]
  · rw [hx.frame _ hown] at hget
    have hrests := walkTask_rests hspec hwfx ht (fun hexp => hcontains ▸ hexpanded hexp)
      (hx.deferred hdeferred) hown hget
    exact advanceTask_of_rests (hrests.of_wait hverdict) hv

/-- The claim half of a pass that deferred nothing leaves nothing for another one. -/
private lemma fullPlan_again (hspec : ValidSpec spec) (hwf : WF spec p.body)
    (hdeferred : (propagateAndClaim spec now proc host p).result.deferred = false)
    (hopen : terminalScan (propagateAndClaim spec now proc host p).body spec.tasks false = none) :
    fullPlan spec now proc host .empty (propagateAndClaim spec now proc host p).body =
      { body := (propagateAndClaim spec now proc host p).body } := by
  obtain ⟨p', hp', hresult, hexit⟩ := propagateAndClaim_exit now proc host hspec hwf
  rw [hresult] at hdeferred hopen ⊢
  set q := walkAndClaim spec now proc host p'
  have hwalk : walkAndClaim spec now proc host { body := q.body } = { body := q.body } := by
    refine List.foldlRecOn (motive := fun r : Pass => r = { body := q.body }) _ _ rfl ?_
    rintro r rfl t ht
    obtain ⟨x, hx⟩ := walkAndClaim_visit now proc host hspec hexit ht
    exact walkTask_again hspec (hp'.wf hspec hwf) ht hx hdeferred
  have hclaim : propagateAndClaim spec now proc host { body := q.body } = { body := q.body } := by
    rw [propagateAndClaim, hwalk]
    exact claimLoop_eq_self le_rfl _
  change maybeTerminalise spec (propagateAndClaim spec now proc host { body := q.body }) = _
  rw [hclaim, maybeTerminalise]
  simp only [hopen]

private lemma planAndClaim_of_fullPlan
    (h : fullPlan spec now proc host .empty body = { body }) :
    planAndClaim spec now proc host .empty body = (none, {}) := by
  unfold planAndClaim
  split
  next => rfl
  next =>
    split
    next => rfl
    next => simp [h]

/-- One pass reaches a fixpoint. After a pass that deferred nothing, with whatever lists it was
given, a second one at the same time by the same process launches nothing, reports nothing and
keeps the document. -/
theorem planAndClaim_fixpoint (hvalid : validateGraph spec = .ok ())
    (hreach : Reachable spec body) (now : Time) (proc host : String) (expansions : Expansions)
    (hdeferred : (planAndClaim spec now proc host expansions body).2.deferred = false) :
    planAndClaim spec now proc host .empty
      ((planAndClaim spec now proc host expansions body).1.getD body) = (none, {}) := by
  have hspec := validSpec_of_validateGraph hvalid
  have hwf := hreach.wf hspec
  have hterminal : ∀ {b : RunBody}, b.terminalRun = true →
      planAndClaim spec now proc host .empty b = (none, {}) := fun hb => by simp [planAndClaim, hb]
  cases hopen : body.terminalRun with
  | true => simp [planAndClaim, hopen]
  | false =>
    cases hquiet : isQuiescent spec body now proc expansions with
    | true =>
      -- the pre-scan finds the same without the lists
      have hquiet' : isQuiescent spec body now proc .empty = true :=
        isQuiescent_iff.mpr ⟨by simp, (isQuiescent_iff.mp hquiet).2⟩
      simp [planAndClaim, hopen, hquiet, hquiet']
    | false =>
      set p := applyExpansions spec expansions now { body }
      set q := propagateAndClaim spec now proc host p with hq
      have hfull : fullPlan spec now proc host expansions body = maybeTerminalise spec q := rfl
      have hfirst : planAndClaim spec now proc host expansions body =
          if (maybeTerminalise spec q).result.changed then
            (some { (maybeTerminalise spec q).body with updatedAt := now },
              (maybeTerminalise spec q).result)
          else (none, (maybeTerminalise spec q).result) := by
        simp [planAndClaim, hopen, hquiet, hfull]
      -- an unchanged pass ends on the document it started from
      have hkept : (maybeTerminalise spec q).result.changed = false →
          (maybeTerminalise spec q).body = body := by
        exact fullPlan_unchanged now proc host hspec
      cases hscan : terminalScan q.body spec.tasks false with
      | some failed =>
        have hended : (maybeTerminalise spec q).body.terminalRun = true := by
          rw [maybeTerminalise, hscan]
          cases failed <;> rfl
        rw [hfirst]
        split_ifs with hchanged
        · exact hterminal hended
        · rw [hkept (by simpa using hchanged)] at hended
          exact hterminal hended
      | none =>
        have hsame : maybeTerminalise spec q = q := by rw [maybeTerminalise, hscan]
        rw [hsame] at hfirst hkept
        rw [hfirst] at hdeferred ⊢
        have hnone : q.result.deferred = false := by
          revert hdeferred
          split_ifs <;> exact id
        have hagain : fullPlan spec now proc host .empty q.body = { body := q.body } :=
          fullPlan_again hspec (hwf.expand hspec expansions now) hnone hscan
        split_ifs with hchanged
        · refine planAndClaim_of_fullPlan ?_
          have hstamp := claimHalf_stamp now spec now proc host { body := q.body }
          exact hstamp.trans (congrArg (Pass.stamp now) hagain)
        · rw [← hkept (by simpa using hchanged)]
          exact planAndClaim_of_fullPlan hagain

/-- The list of the mapped task is supplied and its one instance launched; nothing awaits a list
then, and nothing is left to do. -/
theorem planAndClaim_fixpoint_reversed :
    let first :=
      planAndClaim reversedSpec 3 "p" "h" (Dict.ofList [("m", some [.null])]) reversedBody
    first.2.launches.map LaunchIntent.taskkey = ["m#0"] ∧
      tasksAwaitingExpansion reversedSpec (first.1.getD reversedBody) = [] ∧
      planAndClaim reversedSpec 3 "p" "h" .empty (first.1.getD reversedBody) = (none, {}) :=
  ⟨by decide +kernel, by decide +kernel,
    planAndClaim_fixpoint (by decide +kernel) ((Reachable.fresh ..).applyAll _) 3 "p" "h" _
      (by decide +kernel)⟩

end Cronstable.Dag

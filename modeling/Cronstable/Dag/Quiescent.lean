import Cronstable.Dag.Invariant

/-!
# The quiescence pre-scan is exact on reachable documents

A document that the pre-scan calls quiescent is one the full pass would leave as it is: no entry
is recovered, nothing is launched or ended, and the run is not terminalised. The scan reads one
entry at a time; what makes its verdict right is the shape of the document (`WF`), which ties an
entry to the task the walk dispatches it under.
-/

namespace Cronstable.Dag

open TaskState List

variable {spec : DagSpec} {body : RunBody} {now : Time} {proc host : String}

/-- The whole pass without the pre-scan: recover, expand, claim, terminalise. Returns the pass and
how many entries were recovered. -/
def fullPass (spec : DagSpec) (now : Time) (proc host : String) (isPidAlive : ℤ → Bool)
    (expansions : Expansions) (body : RunBody) : Pass × ℕ :=
  let reconciled := reconcileEntries spec now proc host isPidAlive body
  (fullPlan spec now proc host expansions reconciled.1, reconciled.2)

/-! ## Entries that cannot act -/

section Entry

variable {t : TaskSpec} {key : String} {e : TaskEntry}

variable (hid : e.id.bind spec.byId.get? = some t)

include hid

/-- What the scan knows of an entry that cannot act. -/
private lemma entryQuiescence_ne_act (h : entryQuiescence spec body now proc key e ≠ .act) :
    e.state.inert = true ∨
    (e.state = .upForRetry ∧ now < e.nextRetryAt.getD 0) ∨
    (e.state = .running ∧ (e.awaitingApproval = true ∨
      (e.awaitingApproval = false ∧ e.proc = some proc) ∨
      (e.awaitingApproval = false ∧ e.proc = none ∧ t.type = .sensor ∧ e.pid = none ∧
        ∃ due, e.nextPokeAt = some due ∧ now < due))) ∨
    (e.state = .pending ∧ t.expand = none ∧ depsVerdict spec body t = .wait) := by
  unfold entryQuiescence at h
  rw [hid] at h
  cases hstate : e.state with
  | success | failed | skipped | upstreamFailed | expanded => exact .inl rfl
  | unrecognised raw => simp [hstate] at h
  | upForRetry =>
    simp only [hstate, terminal_ctor, Bool.false_eq_true, if_false] at h
    split_ifs at h with hdue
    · exact absurd rfl h
    · exact .inr (.inl ⟨rfl, not_le.mp hdue⟩)
  | pending =>
    simp only [hstate, terminal_ctor, Bool.false_eq_true, if_false] at h
    split_ifs at h with hwait
    · simp only [Bool.and_eq_true, Option.isNone_iff_eq_none, decide_eq_true_eq] at hwait
      exact .inr (.inr (.inr ⟨rfl, hwait⟩))
    · exact absurd rfl h
  | running =>
    refine .inr (.inr (.inl ⟨rfl, ?_⟩))
    simp only [hstate, terminal_ctor, Bool.false_eq_true, if_false] at h
    cases hwait : e.awaitingApproval with
    | true => exact .inl rfl
    | false =>
      right
      rw [hwait] at h
      simp only [Bool.false_eq_true, if_false] at h
      cases hproc : e.proc with
      | some owner =>
        rw [hproc] at h
        by_cases howner : owner = proc
        · exact .inl ⟨rfl, by rw [howner]⟩
        · simp [howner] at h
      | none =>
        rw [hproc] at h
        split_ifs at h with hshape
        · exact absurd rfl h
        · obtain ⟨htype, hpid⟩ : t.type = .sensor ∧ e.pid = none := by simpa using hshape
          cases hpoke : e.nextPokeAt with
          | none => simp [hpoke] at h
          | some due =>
            rw [hpoke] at h
            simp only at h
            split_ifs at h with hdue
            · exact absurd rfl h
            · exact .inr ⟨rfl, rfl, htype, hpid, due, rfl, not_le.mp hdue⟩

/-- The dispatch leaves an entry that cannot act alone. -/
private lemma advanceTask_idle (hgate : e.awaitingApproval = true → t.type = .approval)
    (h : entryQuiescence spec body now proc key e ≠ .act) {inst : Instance} {fallback : Verdict}
    {verdict : Option Verdict}
    (hverdict : e.state = .pending → verdict.getD fallback = depsVerdict spec body t)
    (r : AdvanceResult) : advanceTask t inst now proc host fallback verdict e r = (e, r) := by
  unfold advanceTask
  rcases entryQuiescence_ne_act hid h with hinert | ⟨hstate, hdue⟩ | ⟨hstate, hlive⟩ |
    ⟨hstate, -, hwait⟩
  · rw [if_pos hinert]
  · simp [hstate, inert, not_le.mpr hdue]
  · simp only [hstate]
    unfold advanceRunning
    rcases hlive with hwait | ⟨hwait, hproc⟩ | ⟨-, hproc, htype, hpid, due, hpoke, hdue⟩
    · simp [inert, hgate hwait, hwait]
    · by_cases htype : t.type = .sensor <;> simp [inert, htype, hproc]
    · simp [inert, htype, hproc, hpid, hpoke, hdue]
  · simp [hstate, inert, hverdict hstate, hwait]

/-- The recovery leaves an entry that cannot act alone. -/
private lemma not_crashed (h : entryQuiescence spec body now proc key e ≠ .act)
    (isPidAlive : ℤ → Bool) : crashed proc host isPidAlive e = false := by
  by_contra hcrash
  have hcrash : crashed proc host isPidAlive e = true := by simpa using hcrash
  obtain ⟨hstate, hwait, hproc⟩ := running_of_crashed hcrash
  rcases entryQuiescence_ne_act hid h with hinert | ⟨hretry, -⟩ | ⟨-, hlive⟩ | ⟨hpending, -⟩
  · rw [hstate] at hinert
    cases hinert
  · rw [hstate] at hretry
    cases hretry
  · rcases hlive with hwait' | ⟨-, hown⟩ | ⟨-, hnone, -⟩
    · rw [hwait] at hwait'
      cases hwait'
    · simp [crashed, hasLiveProcess, hown] at hcrash
    · exact hproc hnone
  · rw [hstate] at hpending
    cases hpending

/-- A blocked entry holds the run open. -/
private lemma holdsOpen_of_blocked (hget : body.tasks.get? key = some e)
    (h : entryQuiescence spec body now proc key e = .blocked) : HoldsOpen body t := by
  have hlive : e.state.terminal = false := by
    cases hterm : e.state.terminal with
    | false => rfl
    | true =>
      rw [entryQuiescence, if_pos hterm] at h
      cases h
  -- every way to a blocked verdict goes through the test of the consulted slot
  have hslot : qBlocked body t key e = .blocked := by
    unfold entryQuiescence at h
    rw [hid, hlive] at h
    simp only [Bool.false_eq_true, if_false] at h
    revert h
    split
    next => split <;> intro h <;> cases h
    next =>
      split
      · intro h; cases h
      · exact id
    next =>
      split
      · exact id
      · split
        · split
          · intro h; cases h
          · exact id
        · split
          · intro h; cases h
          · split
            · intro h; cases h
            · split
              · intro h; cases h
              · exact id
    next =>
      split
      · exact id
      · intro h; cases h
    next => intro h; cases h
  unfold qBlocked at hslot
  unfold HoldsOpen
  split at hslot
  next hexp hnone =>
    split at hslot
    next hkey =>
      rw [hnone]
      exact ⟨e, hkey ▸ hget, hlive⟩
    next => cases hslot
  next record hrecord =>
    split at hslot
    next => cases hslot
    next i hi =>
      split at hslot
      next hcond =>
        obtain ⟨hnonneg, hlt, hkey⟩ := hcond
        rw [hrecord]
        refine ⟨i.toNat, by simp only [Option.elim_some]; omega, ?_⟩
        have hkey' : key = instanceKey t.id i.toNat := hkey
        rw [stateOrPending, ← hkey', hget]
        exact hlive
      next => cases hslot
  next => cases hslot

end Entry

/-! ## The pass -/

/-- Lists that could not be read change nothing. -/
theorem applyExpansions_eq_self {expansions : Expansions}
    (h : ∀ id items, expansions.get? id ≠ some (some items)) (p : Pass) :
    applyExpansions spec expansions now p = p := by
  refine foldlRecOn (motive := fun q : Pass => q = p) _ _ rfl ?_
  rintro q rfl ⟨id, items⟩ hmem
  cases items with
  | none => rfl
  | some items => exact absurd (Dict.mem_items_iff.mp hmem) (h id items)

/-- The claim loop is left when the last walk ended nothing. -/
theorem claimLoop_eq_self {p : Pass} {settled : ℕ} (h : p.result.ended ≤ settled) (fuel : ℕ) :
    claimLoop spec now proc host fuel settled p = p := by
  cases fuel with
  | zero => rfl
  | succ fuel => rw [claimLoop, if_neg (not_lt.mpr h)]

section Document

variable {isPidAlive : ℤ → Bool}

variable {t : TaskSpec}

/-- The task an entry is classified under. -/
private lemma bind_byId (hspec : ValidSpec spec) (hwf : WF spec body) (ht : t ∈ spec.tasks)
    {key : String} (hown : Owns t.id key) {e : TaskEntry} (hget : body.tasks.get? key = some e) :
    e.id.bind spec.byId.get? = some t := by
  rw [(hwf.slot hspec ht hown hget).1]
  exact hspec.byId_self ht

/-- With nothing that could act, the recovery finds nothing. -/
private lemma reconcileEntries_eq_self (hspec : ValidSpec spec) (hwf : WF spec body)
    (h : ∀ key e, body.tasks.get? key = some e →
      entryQuiescence spec body now proc key e ≠ .act) :
    reconcileEntries spec now proc host isPidAlive body = (body, 0) := by
  have halive : ∀ key e, body.tasks.get? key = some e →
      crashed proc host isPidAlive e = false := by
    intro key e hget
    obtain ⟨t, ht, -, hslot⟩ := hwf.owner key e hget
    exact not_crashed (bind_byId hspec hwf ht hslot.owns hget) (h key e hget) isPidAlive
  have htasks : body.tasks.mapVal (fun _ => reconcileEntry spec now proc host isPidAlive) =
      body.tasks := by
    apply Dict.ext
    refine (map_congr_left ?_).trans (map_id _)
    rintro ⟨key, e⟩ hmem
    simp [reconcileEntry, halive key e (Dict.mem_items_iff.mp hmem)]
  have hcount : body.tasks.values.countP (crashed proc host isPidAlive) = 0 := by
    rw [countP_eq_zero]
    intro e he
    obtain ⟨key, hget⟩ := Dict.mem_values_iff.mp he
    simp [halive key e hget]
  rw [reconcileEntries, htasks, hcount]

/-- A visit leaves a task alone when the dispatch leaves each of its entries alone, and the
placeholder while the task is not expanded. -/
theorem walkTask_eq_self (hwf : WF spec body) (ht : t ∈ spec.tasks) {r : AdvanceResult}
    (hplaceholder : t.expand.isSome = true → body.mapped.contains t.id = false →
      propagatePlaceholder spec t now ⟨body, r⟩ = ⟨body, r⟩)
    (hidle : (t.expand.isSome = true → body.mapped.contains t.id = true) →
      ∀ (inst : Instance) (e : TaskEntry) (fallback : Verdict) (verdict : Option Verdict),
        Owns t.id inst.key → body.tasks.get? inst.key = some e →
        (e.state = .pending → verdict.getD fallback = depsVerdict spec body t) →
        advanceTask t inst now proc host fallback verdict e r = (e, r)) :
    walkTask spec now proc host ⟨body, r⟩ t = ⟨body, r⟩ := by
  unfold walkTask
  simp only
  split
  next hmapped =>
    obtain ⟨hexp, hnone⟩ : t.expand.isSome ∧ body.mapped.contains t.id = false := by
      simpa using hmapped
    exact hplaceholder hexp hnone
  next hmapped =>
    have hidle := hidle (by simpa using hmapped)
    obtain ⟨e, hget⟩ := hwf.entry t ht
    split
    next =>
      simp only [hget]
      split
      next => rfl
      next =>
        have hown : Owns t.id (Instance.mk t.id none none).key := .inl rfl
        rw [hidle _ _ _ _ hown hget (by intro hpending; simp [hpending])]
        simp only [RunBody.setEntry_eq_self hget]
    next hrecorded =>
      -- every instance has its entry, and each is left alone
      have hloop := foldlRecOn (instancesOf body t) (walkInstance spec now proc host t)
        (b := (⟨body, r⟩, none))
        (motive := fun s : Pass × Option Verdict =>
          s.1 = ⟨body, r⟩ ∧ ∀ v, s.2 = some v → v = depsVerdict spec body t)
        ⟨rfl, by simp⟩ ?_
      · exact hloop.1
      rintro ⟨q, cached⟩ ⟨rfl, hcached⟩ inst hinst
      obtain ⟨hown, hindexed⟩ := mem_instancesOf hinst
      have hentry : ∃ e, body.tasks.get? inst.key = some e := by
        cases hi : inst.mapIndex with
        | none =>
          have hkey : inst.key = t.id := by
            unfold instancesOf at hinst
            split at hinst
            next =>
              split at hinst
              next => cases hinst
              next => rw [mem_singleton.mp hinst]
            next => cases hinst
            next =>
              obtain ⟨p, -, rfl⟩ := List.mem_map.mp hinst
              cases hi
          exact hkey ▸ hwf.entry t ht
        | some i =>
          obtain ⟨record, item, hrec, hitem, rfl⟩ := hindexed i hi
          exact hwf.no_hole hrec (List.getElem?_eq_some_iff.mp hitem).1
      obtain ⟨e, hget⟩ := hentry
      simp only [walkInstance, hget]
      rw [hidle _ _ _ _ hown hget ?_]
      · simp only [RunBody.setEntry_eq_self hget, true_and]
        intro v hv
        cases cached with
        | some w => exact hcached v hv
        | none =>
          simp only [Option.ite_none_right_eq_some, Option.some.injEq] at hv
          exact hv.2.symm
      · intro hpending
        cases cached with
        | some w => exact hcached w rfl
        | none => simp [hpending]

/-- With nothing that could act, advancing a task changes nothing. -/
private lemma walkTask_of_no_act (hspec : ValidSpec spec) (hwf : WF spec body)
    (h : ∀ key e, body.tasks.get? key = some e →
      entryQuiescence spec body now proc key e ≠ .act) (ht : t ∈ spec.tasks) (r : AdvanceResult) :
    walkTask spec now proc host ⟨body, r⟩ t = ⟨body, r⟩ := by
  refine walkTask_eq_self hwf ht (fun hexp hnone => ?_)
    fun _ _ _ _ _ hown hget hverdict =>
      advanceTask_idle (bind_byId hspec hwf ht hown hget)
        (fun hwait => hwf.gate _ _ hget hwait t ht hown) (h _ _ hget) hverdict r
  -- an unexpanded placeholder that cannot act is terminal
  obtain ⟨e, hget⟩ := hwf.entry t ht
  have hterm : e.state.inert = true := by
    rcases entryQuiescence_ne_act (bind_byId hspec hwf ht (.inl rfl) hget) (h _ e hget) with
      hinert | ⟨hstate, -⟩ | ⟨hstate, -⟩ | ⟨-, hplain, -⟩
    · exact hinert
    all_goals
      cases (hwf.slot hspec ht (.inl rfl) hget).2 with
      | plain _ _ hexp' => simp [hexp'] at hexp
      | waiting _ _ _ _ hstate' => rcases hstate' with hs | hs <;> simp_all
      | group _ _ _ hrec => simp [hnone] at hrec
      | inst i _ _ _ hkey => exact absurd hkey.symm (instanceKey_ne (hspec.no_hash t ht) i)
  have hne : e.state ≠ .pending := by
    intro hpending
    rw [hpending] at hterm
    cases hterm
  simp [propagatePlaceholder, hget, hne, resolveStalePlaceholder, hterm]

end Document

/-- The pre-scan is airtight: on a document it calls quiescent the whole pass recovers no entry,
leaves the document as it is and reports nothing, neither a launch nor the end of the run. -/
theorem fullPass_eq_of_isQuiescent (hvalid : validateGraph spec = .ok ())
    (hreach : Reachable spec body) (now : Time) (proc host : String) (isPidAlive : ℤ → Bool)
    (expansions : Expansions) (hquiet : isQuiescent spec body now proc expansions = true) :
    fullPass spec now proc host isPidAlive expansions body = (⟨body, {}⟩, 0) := by
  have hspec := validSpec_of_validateGraph hvalid
  have hwf := hreach.wf hspec
  obtain ⟨hlists, -, hact, key, e, hget, hblocked⟩ := isQuiescent_iff.mp hquiet
  have hwalk : walkAndClaim spec now proc host ⟨body, {}⟩ = ⟨body, {}⟩ := by
    refine foldlRecOn (motive := fun q : Pass => q = ⟨body, {}⟩) _ _ rfl ?_
    rintro q rfl t ht
    exact walkTask_of_no_act hspec hwf hact ht {}
  have hopen : terminalScan body spec.tasks false = none := by
    obtain ⟨t, ht, -, hslot⟩ := hwf.owner key e hget
    exact terminalScan_eq_none.mpr
      ⟨t, ht, holdsOpen_of_blocked (bind_byId hspec hwf ht hslot.owns hget) hget hblocked⟩
  have hclaim : propagateAndClaim spec now proc host ⟨body, {}⟩ = ⟨body, {}⟩ := by
    rw [propagateAndClaim, hwalk]
    exact claimLoop_eq_self le_rfl _
  rw [fullPass, reconcileEntries_eq_self hspec hwf hact]
  simp only [fullPlan, applyExpansions_eq_self hlists, hclaim, maybeTerminalise, hopen]

/-- Two tasks in a row. -/
def chainSpec : DagSpec :=
  { name := "chain", tasks := [{ id := "a" }, { id := "b", dependsOn := ["a"] }] }

/-- The run of the chain with its first task in flight. -/
def chainInFlight : RunBody :=
  (Op.plan 1 "p" "h" .empty).apply chainSpec (newRunBody "chain" "k" "r" none "cron" 0 chainSpec)

theorem fullPass_eq_of_isQuiescent_chain :
    isQuiescent chainSpec chainInFlight 2 "p" .empty = true ∧
      fullPass chainSpec 2 "p" "h" (fun _ => false) .empty chainInFlight =
        (⟨chainInFlight, {}⟩, 0) := by
  have hquiet : isQuiescent chainSpec chainInFlight 2 "p" .empty = true := by decide +kernel
  exact ⟨hquiet, fullPass_eq_of_isQuiescent (by decide +kernel) (.step _ (.fresh ..)) 2 "p" "h" _ _
    hquiet⟩

end Cronstable.Dag

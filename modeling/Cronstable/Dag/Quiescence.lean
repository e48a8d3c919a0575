import Cronstable.Dag.Advance

/-!
# The quiescence pre-scan

Before the claim transforms copy a document they scan it read-only: when every entry is provably
inert and one of them holds the run open, the document is kept as it is. The scan walks the
stored entries and nothing else, so a recorded index without an entry is invisible to it.
-/

namespace Cronstable.Dag

open Option

/-- The per-entry verdicts of the pre-scan. -/
inductive Quiescence
  /-- The pass could change the entry, or the scan cannot prove that it will not. -/
  | act
  /-- The entry is inert and its state holds the run open. -/
  | blocked
  /-- The entry is inert and does not hold the run open. -/
  | inert
  deriving DecidableEq, Repr

/-- `_q_blocked`: `blocked` when the terminaliser provably consults this inert entry. -/
def qBlocked (body : RunBody) (task : TaskSpec) (taskkey : String) (entry : TaskEntry) :
    Quiescence :=
  match task.expand, body.mapped.get? task.id with
  | none, none => if taskkey = task.id then .blocked else .act
  | _, some (some record) =>
    match entry.mapIndex with
    | none => .act
    | some i =>
      if 0 ≤ i ∧ i < record.items.length ∧
          taskkey = taskDisplayKey task.id (some i.toNat) then .blocked
      else .act
  | _, _ => .act

/-- `_entry_quiescence`: classify one entry. -/
def entryQuiescence (spec : DagSpec) (body : RunBody) (now : Time) (proc : String)
    (taskkey : String) (entry : TaskEntry) : Quiescence :=
  if entry.state.terminal then .inert
  else match entry.id.bind spec.byId.get? with
  -- the spec no longer has the task
  | none => .act
  | some task =>
    match entry.state with
    | .expanded =>
      if task.expand.isNone && !body.mapped.contains task.id then .act else .inert
    | .upForRetry =>
      if entry.nextRetryAt.getD 0 ≤ now then .act else qBlocked body task taskkey entry
    | .running =>
      if entry.awaitingApproval then qBlocked body task taskkey entry
      else match entry.proc with
      | some owner => if owner ≠ proc then .act else qBlocked body task taskkey entry
      | none =>
        if task.type ≠ .sensor ∨ entry.pid.isSome then .act
        else match entry.nextPokeAt with
        | none => .act
        | some due => if due ≤ now then .act else qBlocked body task taskkey entry
    | .pending =>
      if task.expand.isNone && decide (depsVerdict spec body task = .wait) then
        qBlocked body task taskkey entry
      else .act
    | _ => .act

/-- The loop of `_is_quiescent`: leave at the first entry that could act, and remember whether one
was blocked. -/
def quiescenceScan (classify : String → TaskEntry → Quiescence) :
    List (String × TaskEntry) → Bool → Bool
  | [], blocked => blocked
  | (taskkey, entry) :: entries, blocked =>
    match classify taskkey entry with
    | .act => false
    | .blocked => quiescenceScan classify entries true
    | .inert => quiescenceScan classify entries blocked

/-- `_is_quiescent`: whether an advance pass provably cannot change the document. No expansions
at all and an empty dictionary of them read the same. -/
def isQuiescent (spec : DagSpec) (body : RunBody) (now : Time) (proc : String)
    (expansions : Expansions) : Bool :=
  if expansions.values.any Option.isSome then false
  else if !(tasksAwaitingExpansion spec body).isEmpty then false
  else quiescenceScan (entryQuiescence spec body now proc) body.tasks.items false

/-! ## The verdicts in terms of the document -/

section Entry

variable (spec : DagSpec) (body : RunBody) (now : Time) (proc : String)

/-- The entry is out of the run's way: terminal, or the marker of a fan-out. -/
def Settled (e : TaskEntry) : Prop :=
  e.state.terminal = true ∨ e.state = .expanded ∧ ∃ t, e.id.bind spec.byId.get? = some t ∧
    (t.expand.isSome = true ∨ body.mapped.contains t.id = true)

/-- The terminaliser reads the entry: it sits under the id of an unmapped task or under a
recorded index of its task. -/
def Consulted (t : TaskSpec) (key : String) (e : TaskEntry) : Prop :=
  (t.expand = none ∧ body.mapped.get? t.id = none ∧ key = t.id) ∨
    ∃ record i, body.mapped.get? t.id = some (some record) ∧ e.mapIndex = some ((i : ℕ) : ℤ) ∧
      i < record.items.length ∧ key = instanceKey t.id i

/-- The entry has nothing to do at `now` for the process `proc`: a backoff that has not elapsed,
a gate that awaits its decision, a claim of this process, a sensor whose next poke is not due, or
a plain task whose upstreams are not all done. -/
def Resting (t : TaskSpec) (e : TaskEntry) : Prop :=
  match e.state with
  | .upForRetry => now < e.nextRetryAt.getD 0
  | .running => e.awaitingApproval = true ∨ e.proc = some proc ∨
      (e.proc = none ∧ t.type = .sensor ∧ e.pid = none ∧
        ∃ due, e.nextPokeAt = some due ∧ now < due)
  | .pending => t.expand = none ∧ depsVerdict spec body t = .wait
  | _ => False

/-- The entry rests where the terminaliser reads it, so that it holds the run open. -/
def Parked (key : String) (e : TaskEntry) : Prop :=
  ∃ t, e.id.bind spec.byId.get? = some t ∧ Consulted body t key e ∧
    Resting spec body now proc t e

variable {spec body now proc} {t : TaskSpec} {key : String} {e : TaskEntry}

/-- The test of a recorded index. -/
private lemma index_test (t : TaskSpec) (key : String) (record : MapRecord) (i : ℤ) :
    (0 ≤ i ∧ i < record.items.length ∧ key = taskDisplayKey t.id (some i.toNat)) ↔
      ∃ n : ℕ, i = n ∧ n < record.items.length ∧ key = instanceKey t.id n := by
  constructor
  · rintro ⟨hnonneg, hlt, hkey⟩
    exact ⟨i.toNat, by omega, by omega, hkey⟩
  · rintro ⟨n, rfl, hlt, hkey⟩
    exact ⟨by omega, by omega, hkey⟩

/-- A blocked slot is a consulted one; any other is left to the full pass. -/
private lemma qBlocked_eq (body : RunBody) (t : TaskSpec) (key : String) (e : TaskEntry) :
    (qBlocked body t key e = .blocked ∧ Consulted body t key e) ∨
      (qBlocked body t key e = .act ∧ ¬ Consulted body t key e) := by
  unfold qBlocked Consulted
  cases hrecord : body.mapped.get? t.id with
  | none =>
    cases t.expand with
    | none => by_cases hkey : key = t.id <;> simp [hkey]
    | some exp => simp
  | some r =>
    cases r with
    | none => cases t.expand <;> simp
    | some record =>
      cases hindex : e.mapIndex with
      | none => cases t.expand <;> simp
      | some i =>
        have htest := index_test t key record i
        by_cases hcond : ∃ n : ℕ, i = n ∧ n < record.items.length ∧ key = instanceKey t.id n
        · left
          refine ⟨?_, .inr ?_⟩
          · cases t.expand <;> simp only [if_pos (htest.mpr hcond)]
          · obtain ⟨n, hi, hlt, hkey⟩ := hcond
            exact ⟨record, n, rfl, by rw [hi], hlt, hkey⟩
        · right
          refine ⟨?_, ?_⟩
          · cases t.expand <;> simp only [if_neg fun h => hcond (htest.mp h)]
          · rintro (⟨-, hnone, -⟩ | ⟨record', n, hrec, hi, hlt, hkey⟩)
            · cases hnone
            · cases hrec
              exact hcond ⟨n, some.inj hi, hlt, hkey⟩

/-- A live entry of a task other than a fan-out's marker is handed to `_q_blocked` exactly when it
rests. -/
private lemma entryQuiescence_live (body : RunBody) (now : Time) (proc key : String)
    (hterm : e.state.terminal = false) (hexpanded : e.state ≠ .expanded)
    (hid : e.id.bind spec.byId.get? = some t) :
    (Resting spec body now proc t e ∧
      entryQuiescence spec body now proc key e = qBlocked body t key e) ∨
    (¬ Resting spec body now proc t e ∧ entryQuiescence spec body now proc key e = .act) := by
  unfold entryQuiescence Resting
  rw [hterm, hid]
  cases hstate : e.state with
  | upForRetry =>
    by_cases hdue : e.nextRetryAt.getD 0 ≤ now
    · exact .inr ⟨not_lt.mpr hdue, by simp [hdue]⟩
    · exact .inl ⟨not_le.mp hdue, by simp [hdue]⟩
  | running =>
    cases hawait : e.awaitingApproval with
    | true => simp
    | false =>
      cases howner : e.proc with
      | some owner => by_cases howner : owner = proc <;> simp [howner]
      | none =>
        by_cases hsensor : t.type ≠ .sensor ∨ e.pid.isSome = true
        · have hnot : ¬ (t.type = .sensor ∧ e.pid = none) := by
            rintro ⟨htype, hpid⟩
            simp [htype, hpid] at hsensor
          simp only [if_pos hsensor]
          right
          simp only [Bool.false_eq_true, reduceCtorEq, true_and, false_or, if_false,
            and_true]
          rintro ⟨htype, hpid, -⟩
          exact hnot ⟨htype, hpid⟩
        · obtain ⟨htype, hpid⟩ := not_or.mp hsensor
          simp only [ne_eq, not_not] at htype
          have hpid : e.pid = none := by simpa using hpid
          cases hpoke : e.nextPokeAt with
          | none => simp [htype, hpid]
          | some due => rcases le_or_gt due now with hdue | hdue <;> simp [htype, hpid, hdue]
  | pending =>
    by_cases hwait : t.expand = none ∧ depsVerdict spec body t = .wait
    · exact .inl ⟨hwait, by simp [hwait.1, hwait.2]⟩
    · refine .inr ⟨hwait, ?_⟩
      simp only [Bool.false_eq_true, if_false, Bool.and_eq_true, isNone_iff_eq_none,
        decide_eq_true_eq, if_neg hwait]
  | expanded => exact absurd hstate hexpanded
  | unrecognised raw => exact .inr ⟨id, rfl⟩
  | _ =>
    rw [hstate] at hterm
    cases hterm

/-- The scan classifies an entry by these terms: settled entries are inert, parked ones blocked,
and any other could act. -/
theorem entryQuiescence_eq (spec : DagSpec) (body : RunBody) (now : Time) (proc key : String)
    (e : TaskEntry) :
    (entryQuiescence spec body now proc key e = .inert ∧ Settled spec body e) ∨
    (entryQuiescence spec body now proc key e = .blocked ∧ ¬ Settled spec body e ∧
      Parked spec body now proc key e) ∨
    (entryQuiescence spec body now proc key e = .act ∧ ¬ Settled spec body e ∧
      ¬ Parked spec body now proc key e) := by
  cases hterm : e.state.terminal with
  | true => exact .inl ⟨by rw [entryQuiescence, if_pos hterm], .inl hterm⟩
  | false =>
  cases hid : e.id.bind spec.byId.get? with
  | none =>
    -- the task is gone from the spec
    refine .inr (.inr ⟨?_, by simp [Settled, hterm, hid], by simp [Parked, hid]⟩)
    rw [entryQuiescence, hterm, hid]
    rfl
  | some t =>
    have hsettled : Settled spec body e ↔ e.state = .expanded ∧
        (t.expand.isSome = true ∨ body.mapped.contains t.id = true) := by
      simp [Settled, hterm, hid]
    have hparked : Parked spec body now proc key e ↔
        Consulted body t key e ∧ Resting spec body now proc t e := by
      simp [Parked, hid]
    rw [hsettled, hparked]
    by_cases hexpanded : e.state = .expanded
    · have hrest : ¬ Resting spec body now proc t e := by
        rw [Resting, hexpanded]
        exact id
      rw [entryQuiescence, hid, hexpanded]
      by_cases hmap : t.expand.isSome = true ∨ body.mapped.contains t.id = true
      · refine .inl ⟨?_, rfl, hmap⟩
        rcases hmap with h | h
        · simp [isSome_iff_ne_none.mp h]
        · simp [h]
      · obtain ⟨hexpand, hmapped⟩ := not_or.mp hmap
        refine .inr (.inr ⟨?_, fun h => hmap h.2, fun h => hrest h.2⟩)
        have hexpand : t.expand = none := by simpa using hexpand
        simp [hexpand, hmapped]
    · -- a live entry is blocked where it rests and is consulted
      refine .inr ?_
      rcases entryQuiescence_live body now proc key hterm hexpanded hid with
        ⟨hrest, heq⟩ | ⟨hrest, heq⟩
      · rcases qBlocked_eq body t key e with
          ⟨hblocked, hcons⟩ | ⟨hact, hcons⟩
        · exact .inl ⟨heq.trans hblocked, fun h => hexpanded h.1, hcons, hrest⟩
        · exact .inr ⟨heq.trans hact, fun h => hexpanded h.1, fun h => hcons h.1⟩
      · exact .inr ⟨heq, fun h => hexpanded h.1, fun h => hrest h.2⟩

/-- What is parked is not settled. -/
theorem Parked.not_settled (h : Parked spec body now proc key e) : ¬ Settled spec body e := by
  obtain ⟨t, -, -, hrest⟩ := h
  unfold Resting at hrest
  unfold Settled
  cases hstate : e.state <;> simp_all [TaskState.terminal]

lemma entryQuiescence_eq_blocked :
    entryQuiescence spec body now proc key e = .blocked ↔ Parked spec body now proc key e := by
  rcases entryQuiescence_eq spec body now proc key e with ⟨h, hs⟩ | ⟨h, hs, hp⟩ | ⟨h, hs, hp⟩
  · have hp : ¬ Parked spec body now proc key e := fun hp => hp.not_settled hs
    simp [h, hp]
  · simp [h, hp]
  · simp [h, hp]

lemma entryQuiescence_eq_act :
    entryQuiescence spec body now proc key e = .act ↔
      ¬ Settled spec body e ∧ ¬ Parked spec body now proc key e := by
  rcases entryQuiescence_eq spec body now proc key e with ⟨h, hs⟩ | ⟨h, hs, hp⟩ | ⟨h, hs, hp⟩
  · simp [h, hs]
  · simp [h, hs, hp]
  · simp [h, hs, hp]

end Entry

/-! ## What a quiescent scan saw -/

/-- A scan succeeds exactly when no entry could act and one, or the flag, is blocked. -/
theorem quiescenceScan_iff (classify : String → TaskEntry → Quiescence)
    (entries : List (String × TaskEntry)) (blocked : Bool) :
    quiescenceScan classify entries blocked = true ↔
      (∀ p ∈ entries, classify p.1 p.2 ≠ .act) ∧
        (blocked = true ∨ ∃ p ∈ entries, classify p.1 p.2 = .blocked) := by
  induction entries generalizing blocked with
  | nil => simp [quiescenceScan]
  | cons p entries ih =>
    obtain ⟨key, entry⟩ := p
    cases h : classify key entry <;> simp [quiescenceScan, h, ih]

/-- Quiescence, unfolded: no usable list, nothing awaiting expansion, no entry that could act and
one that is blocked. -/
theorem isQuiescent_iff {spec : DagSpec} {body : RunBody} {now : Time} {proc : String}
    {expansions : Expansions} :
    isQuiescent spec body now proc expansions = true ↔
      (∀ id items, expansions.get? id ≠ some (some items)) ∧
      tasksAwaitingExpansion spec body = [] ∧
      (∀ key entry, body.tasks.get? key = some entry →
        entryQuiescence spec body now proc key entry ≠ .act) ∧
      ∃ key entry, body.tasks.get? key = some entry ∧
        entryQuiescence spec body now proc key entry = .blocked := by
  have hexp : expansions.values.any isSome = false ↔
      ∀ id items, expansions.get? id ≠ some (some items) := by
    simp only [List.any_eq_false, Dict.mem_values_iff]
    constructor
    · intro h id items hget
      exact h _ ⟨id, hget⟩ rfl
    · rintro h items ⟨id, hget⟩ hsome
      obtain ⟨l, rfl⟩ := isSome_iff_exists.mp hsome
      exact h id l hget
  rw [← hexp]
  unfold isQuiescent
  cases expansions.values.any isSome with
  | true => simp
  | false =>
    cases htasks : tasksAwaitingExpansion spec body with
    | cons t ts => simp
    | nil =>
      have hscan := quiescenceScan_iff (entryQuiescence spec body now proc)
        body.tasks.items false
      simp only [Prod.forall, Prod.exists, Dict.mem_items_iff] at hscan
      simp [hscan]

end Cronstable.Dag

import Cronstable.Dag.Invariant

/-!
# Claims, completions and their fences

The driver reports back what it launched: the pid of a subprocess, and later its completion. Both
can come late, after the entry was released, recovered or claimed again, so each is fenced by the
identity of the claim it belongs to. A plain task is claimed anew only with a higher attempt or
after its claim was released. A sensor keeps proc token and attempt from poke to poke, and only its
poke count tells the pokes apart: completions carry it, pid writes do not.

`Sys` is a run document together with the claims the passes handed out and the completions that
were applied. Along a run of `SysStep` every report belongs to a claim, in any order and any number
of times.

## Main results

* `EntryStep.Counted.step`: attempt plus poke count never decreases;
* `Fenced.step` and `SysInv.after`: what every transform keeps about claims and completions;
* `completion_at_most_once`: the fences over whole runs.
-/

namespace Cronstable.Dag

open List Option CompletionMark Event

open Trace (Run)

variable {spec : DagSpec} {body body' : RunBody}

/-! ## Reports of claims -/

/-- A launch intent with the proc token it was claimed under. -/
structure Claim where
  proc : String
  intent : LaunchIntent

/-- The claims a transform hands out. -/
def Op.claims (spec : DagSpec) (body : RunBody) : Op → List Claim
  | .plan now proc host expansions =>
    ((Op.plan now proc host expansions).launches spec body).map (Claim.mk proc)
  | .reconcilePlan now proc host alive =>
    ((Op.reconcilePlan now proc host alive).launches spec body).map (Claim.mk proc)
  | _ => []

/-- The pid write of a claim. -/
def PidWrite.Reports (w : PidWrite) (c : Claim) : Prop :=
  w.taskkey = c.intent.taskkey ∧ w.proc = c.proc ∧ w.attempt = some c.intent.attempt

/-- A completion of a claim: it carries the proc token, the attempt and, for a sensor, the poke
count of the launch. -/
def CompletionMark.Reports (spec : DagSpec) (m : CompletionMark) (c : Claim) : Prop :=
  m.taskkey = c.intent.taskkey ∧ m.expectedProc = some c.proc ∧
    m.expectedAttempt = some c.intent.attempt ∧
    m.expectedPoke = (if c.intent.isSensor then some c.intent.pokeNumber else none) ∧
    spec.byId.get? c.intent.taskId = some m.task

/-- The identity a completion carries. -/
def CompletionMark.identity (m : CompletionMark) :
    String × Option String × Option ℕ × Option ℕ :=
  (m.taskkey, m.expectedProc, m.expectedAttempt, m.expectedPoke)

/-- The entry runs under the identity of the claim. -/
def Current (body : RunBody) (c : Claim) : Prop :=
  ∃ e, body.tasks.get? c.intent.taskkey = some e ∧ e.state = .running ∧ e.proc = some c.proc ∧
    e.attempt = c.intent.attempt ∧ e.poke = c.intent.pokeNumber

/-! ## The system -/

/-- A run document, the claims handed out and the completions applied, oldest first. -/
structure Sys where
  body : RunBody
  claims : List Claim := []
  completed : List CompletionMark := []

/-- The system after a transform. -/
def Sys.after (spec : DagSpec) (s : Sys) (op : Op) : Sys :=
  { body := op.apply spec s.body
    claims := s.claims ++ op.claims spec s.body
    completed := s.completed ++ op.completions s.body }

/-- Pid writes and completions report claims that were handed out. -/
def Delivered (spec : DagSpec) (s : Sys) : Op → Prop
  | .pids entries _ => ∀ w ∈ entries, ∃ c ∈ s.claims, w.Reports c
  | .finish marks _ => ∀ m ∈ marks, ∃ c ∈ s.claims, m.Reports spec c
  | _ => True

/-- One transform, by any node. -/
def SysStep (spec : DagSpec) (s : Sys) (op : Op) (s' : Sys) : Prop :=
  Delivered spec s op ∧ s' = s.after spec op

/-! ## Counting attempts and pokes -/

/-- A completion with the fences of a claim of its task. -/
structure Honest (spec : DagSpec) (m : CompletionMark) : Prop where
  mem : m.task ∈ spec.tasks
  owns : Owns m.task.id m.taskkey
  attempt : m.expectedAttempt.isSome
  poke : m.expectedPoke.isSome = decide (m.task.type = .sensor)

/-- The counters of an entry of a task. -/
structure Counted (t : TaskSpec) (e : TaskEntry) : Prop where
  plain : t.type ≠ .sensor → e.poke = 0
  idle : e.state = .pending ∨ e.state = .upForRetry → e.poke = 0
  bound : e.attempt ≤ t.maxAttempts
  live : e.state.inert = false → e.attempt < t.maxAttempts

/-- A new entry has counted nothing. -/
private lemma newTaskEntry_counted (t u : TaskSpec) (now : Time) :
    Counted t (newTaskEntry u now) := by
  have hpoke : (newTaskEntry u now).poke = 0 := by
    unfold newTaskEntry
    split_ifs <;> rfl
  exact ⟨fun _ => hpoke, fun _ => hpoke, Nat.zero_le _, fun _ => t.maxAttempts_pos⟩

variable {m : CompletionMark}

section EntryStep

variable {t : TaskSpec} {key : String} {e e' : TaskEntry} {ev : Event}

/-- A completed sensor poke is counted. -/
private lemma completedEntry_sensor (now : Time) (m : CompletionMark) (e : TaskEntry)
    (htype : m.task.type = .sensor) :
    (completedEntry now m e).attempt = e.attempt ∧
      (completedEntry now m e).poke = e.poke + 1 ∧
      ((completedEntry now m e).state = .success ∨
        (completedEntry now m e).state = e.state) := by
  unfold completedEntry finishSensor
  split_ifs <;> simp [TaskEntry.poke]

/-- A completed plain task succeeded, waits for its next attempt, or spent the last one. -/
private lemma completedEntry_plain (now : Time) (m : CompletionMark) (e : TaskEntry)
    (htype : m.task.type ≠ .sensor) :
    (completedEntry now m e).poke = e.poke ∧
      ((completedEntry now m e).attempt = e.attempt ∧
          (completedEntry now m e).state = .success ∨
        (completedEntry now m e).attempt = e.attempt + 1 ∧
          ((completedEntry now m e).state = .upForRetry ∧ e.attempt + 1 < m.task.maxAttempts ∨
            (completedEntry now m e).state = .failed)) := by
  unfold completedEntry finishPlain
  rw [if_neg htype]
  split_ifs with hsucc hmore
  · exact ⟨rfl, .inl ⟨rfl, rfl⟩⟩
  · exact ⟨rfl, .inr ⟨rfl, .inl ⟨rfl, hmore⟩⟩⟩
  · exact ⟨rfl, .inr ⟨rfl, .inr rfl⟩⟩

/-- What the recovery does to the counters. -/
private lemma reconcileOne_counters (task : Option TaskSpec) (now : Time) (e : TaskEntry) :
    (reconcileOne task now e).poke = e.poke ∧
      ((reconcileOne task now e).attempt = e.attempt ∧
          (reconcileOne task now e).state = e.state ∨
        ¬ task.any (·.type == .sensor) = true ∧
          (reconcileOne task now e).attempt = e.attempt + 1 ∧
          ((reconcileOne task now e).state = .upForRetry ∧
              e.attempt + 1 < task.elim 1 TaskSpec.maxAttempts ∨
            (reconcileOne task now e).state = .failed)) := by
  unfold reconcileOne
  split_ifs with hsensor hmore
  · exact ⟨rfl, .inl ⟨rfl, rfl⟩⟩
  · exact ⟨rfl, .inr ⟨hsensor, rfl, .inl ⟨rfl, hmore⟩⟩⟩
  · exact ⟨rfl, .inr ⟨hsensor, rfl, .inr rfl⟩⟩

/-- The task of an honest completion is the one that owns the key it is for. -/
private lemma Honest.task_eq (hspec : ValidSpec spec) (h : Honest spec m) (ht : t ∈ spec.tasks)
    (hown : Owns t.id m.taskkey) : m.task = t :=
  hspec.eq_of_id h.mem ht
    (h.owns.id_eq (hspec.no_hash _ h.mem) (hspec.no_hash t ht) hown)

/-- A step keeps the counters of an entry, and never turns them back. -/
theorem Counted.step (hspec : ValidSpec spec) (ht : t ∈ spec.tasks) (hid : e.id = some t.id)
    (hown : Owns t.id key) (hhonest : ∀ m, ev = .finished m → Honest spec m)
    (h : Counted t e) (hstep : EntryStep spec body key e ev e') :
    Counted t e' ∧ e.attempt + e.poke ≤ e'.attempt + e'.poke := by
  have hlive := h.live hstep.live
  have hbyId : e.id.bind spec.byId.get? = some t := by
    rw [hid, bind_some, hspec.byId_self ht]
  cases hstep with
  | settle _ state _ _ _ _ _ _ hterm _ =>
    refine ⟨⟨h.plain, ?_, h.bound, ?_⟩, le_rfl⟩
    · rintro (hs | hs)
      · rw [show state = .pending from hs] at hterm
        cases hterm
      · rw [show state = .upForRetry from hs] at hterm
        cases hterm
    · intro hinert
      simp [terminaliseTask, TaskState.inert, hterm] at hinert
  | park =>
    refine ⟨⟨h.plain, ?_, h.bound, fun _ => hlive⟩, le_rfl⟩
    rintro (hs | hs) <;> cases hs
  | claim u _ now proc host _ _ _ _ hclaim =>
    -- the poke count starts again, from zero
    have hzero : e.poke = 0 := h.idle (hclaim.imp And.left id)
    have hnew : (claimedEntry u e now proc host).poke = 0 := by
      unfold claimedEntry
      split_ifs <;> rfl
    refine ⟨⟨fun _ => hnew, fun _ => hnew, h.bound, fun _ => hlive⟩, ?_⟩
    rw [hzero, hnew]
    exact le_rfl
  | poke _ _ _ _ _ _ _ _ _ hstate =>
    refine ⟨⟨h.plain, ?_, h.bound, fun _ => hlive⟩, le_rfl⟩
    rintro (hs | hs) <;> cases hstate.symm.trans hs
  | pid _ _ hw =>
    obtain ⟨hstate, -, -, rfl⟩ := writePid_eq_some.mp hw
    exact ⟨{ h with live := fun _ => hlive }, le_rfl⟩
  | release _ _ hw =>
    obtain ⟨hstate, -, -, -, rfl⟩ := releaseClaim_eq_some.mp hw
    unfold releasedEntry
    rw [hbyId]
    split
    next => exact ⟨{ h with live := fun _ => hlive }, le_rfl⟩
    next hplain =>
      have hzero : e.poke = 0 := h.plain (by simpa using hplain)
      exact ⟨⟨fun _ => hzero, fun _ => hzero, h.bound, fun _ => hlive⟩, le_rfl⟩
  | finish now m hkey hw =>
    obtain ⟨hstate, -, -, -, rfl⟩ := finishEntry_eq_some.mp hw
    obtain rfl := (hhonest m rfl).task_eq hspec ht (hkey ▸ hown)
    by_cases htype : m.task.type = .sensor
    · obtain ⟨hattempt, hpoke, hend⟩ := completedEntry_sensor now m e htype
      refine ⟨⟨fun hne => absurd htype hne, ?_, hattempt ▸ h.bound,
        fun _ => hattempt ▸ hlive⟩, ?_⟩
      · rcases hend with hs | hs
        · rw [hs]
          rintro (h | h) <;> cases h
        · rw [hs, hstate]
          rintro (h | h) <;> cases h
      · rw [hattempt]
        omega
    · have hzero := h.plain htype
      obtain ⟨hpoke, hend⟩ := completedEntry_plain now m e htype
      rw [hzero] at hpoke
      refine ⟨⟨fun _ => hpoke, fun _ => hpoke, ?_, ?_⟩, ?_⟩
      · rcases hend with ⟨ha, -⟩ | ⟨ha, -⟩ <;> rw [ha] <;> omega
      · rcases hend with ⟨ha, hs⟩ | ⟨ha, ⟨-, hmore⟩ | hs⟩
        · rw [hs]
          intro hinert
          cases hinert
        · rw [ha]
          exact fun _ => hmore
        · rw [hs]
          intro hinert
          cases hinert
      · rcases hend with ⟨ha, -⟩ | ⟨ha, -⟩ <;> omega
  | decided approved _ _ onReject =>
    refine ⟨⟨h.plain, ?_, h.bound, fun _ => hlive⟩, le_rfl⟩
    unfold decideEntry
    split_ifs <;> rintro (hs | hs) <;> cases hs
  | recover now _ _ _ hcrash =>
    rw [hbyId]
    obtain ⟨hpoke, hend⟩ := reconcileOne_counters (some t) now e
    rcases hend with ⟨ha, hs⟩ | ⟨hplain, ha, hend⟩
    · refine ⟨⟨fun hne => hpoke.trans (h.plain hne), fun hidle => hpoke.trans (h.idle ?_),
        ha ▸ h.bound, fun _ => ha ▸ hlive⟩, ?_⟩
      · rwa [hs] at hidle
      · rw [ha, hpoke]
    · have hzero : (reconcileOne (some t) now e).poke = 0 :=
        hpoke.trans (h.plain (by simpa using hplain))
      refine ⟨⟨fun _ => hzero, fun _ => hzero, ?_, ?_⟩, ?_⟩
      · rw [ha]
        omega
      · rcases hend with ⟨-, hmore⟩ | hs
        · rw [ha]
          exact fun _ => hmore
        · rw [hs]
          intro hinert
          cases hinert
      · rw [hpoke]
        omega

/-- The count a completion was fenced at. -/
def CompletionMark.clock (m : CompletionMark) : ℕ :=
  m.expectedAttempt.getD 0 + m.expectedPoke.getD 0

/-- An applied completion was at the count of the entry, and moved the entry past it. -/
private lemma clock_of_finish (hspec : ValidSpec spec) (ht : t ∈ spec.tasks)
    (hown : Owns t.id key) (hhonest : Honest spec m) (h : Counted t e)
    (hstep : EntryStep spec body key e (.finished m) e') :
    m.taskkey = key ∧ e.state = .running ∧ m.clock = e.attempt + e.poke ∧
      (e'.state.terminal = true ∨ m.clock < e'.attempt + e'.poke) := by
  cases hstep with
  | finish now _ hkey hw =>
    obtain ⟨hstate, -, hattempt, hpokeFence, rfl⟩ := finishEntry_eq_some.mp hw
    obtain rfl := hhonest.task_eq hspec ht (hkey ▸ hown)
    obtain ⟨a, ha⟩ := isSome_iff_exists.mp hhonest.attempt
    have hclock : m.clock = e.attempt + e.poke := by
      rw [clock, ha, getD_some, hattempt a ha]
      by_cases htype : m.task.type = .sensor
      · obtain ⟨n, hn⟩ : ∃ n, m.expectedPoke = some n :=
          isSome_iff_exists.mp (by rw [hhonest.poke]; simpa using htype)
        rw [hn, getD_some, hpokeFence n hn]
      · have hnone : m.expectedPoke = none := by
          simpa [htype] using hhonest.poke
        rw [hnone, getD_none, h.plain htype]
    refine ⟨hkey, hstate, hclock, ?_⟩
    by_cases htype : m.task.type = .sensor
    · obtain ⟨ha', hpoke, -⟩ := completedEntry_sensor now m e htype
      right
      omega
    · obtain ⟨hpoke, ⟨-, hs⟩ | ⟨ha', -⟩⟩ := completedEntry_plain now m e htype
      · left
        rw [hs]
        rfl
      · right
        omega

end EntryStep

/-! ## What is kept -/

/-- The completion is spent: the entry it was applied to is terminal or counted past it, and the
key is not that of a placeholder, so no fan-out is recorded over it. -/
def Spent (spec : DagSpec) (body : RunBody) (m : CompletionMark) : Prop :=
  (∃ t ∈ spec.tasks, Owns t.id m.taskkey ∧
    (t.expand = none ∨ body.mapped.contains t.id = true)) ∧
  ∃ e, body.tasks.get? m.taskkey = some e ∧
    (e.state.terminal = true ∨ m.clock < e.attempt + e.poke)

/-- The shape of the document, the counters of its entries, and the completions spent on it. -/
structure Fenced (spec : DagSpec) (body : RunBody) (completed : List CompletionMark) : Prop where
  wf : WF spec body
  counted : ∀ t ∈ spec.tasks, ∀ key e, Owns t.id key → body.tasks.get? key = some e → Counted t e
  spent : ∀ m ∈ completed, Spent spec body m
  nodup : (completed.map CompletionMark.identity).Nodup

namespace Fenced

variable {completed : List CompletionMark}

/-- A fresh run counted nothing. -/
theorem fresh (hspec : ValidSpec spec) (dag runKey runId : String) (logicalDate : Option String)
    (kind : String) (now : Time) :
    Fenced spec (newRunBody dag runKey runId logicalDate kind now spec) [] := by
  refine ⟨.fresh hspec dag runKey runId logicalDate kind now, ?_, by simp, nodup_nil⟩
  intro t ht key e hown hget
  obtain ⟨u, -, -, rfl⟩ := (WF.get?_newRunBody hspec).mp hget
  exact newTaskEntry_counted t u now

/-- A step keeps the counters, spends the completion it applies and keeps the others spent. -/
theorem step (hspec : ValidSpec spec) (h : Fenced spec body completed) {ev : Event}
    (hhonest : ∀ m, ev = .finished m → Honest spec m) (hstep : BodyStep spec body ev body') :
    Fenced spec body' (completed ++ ev.completions) := by
  -- what the step does to an entry of a task
  have hentry : ∀ t ∈ spec.tasks, ∀ key e, Owns t.id key → body.tasks.get? key = some e →
      ∃ e', body'.tasks.get? key = some e' ∧ Counted t e' ∧
        (e' = e ∨ e.state.inert = false ∧ e.attempt + e.poke ≤ e'.attempt + e'.poke) := by
    intro t ht key e hown hget
    have hcounted := h.counted t ht key e hown hget
    rcases hstep.get?_cases key with heq | ⟨e₀, e', he₀, he', hentry⟩ |
      ⟨-, -, -, -, -, -, -, -, -, hnone, -⟩
    · exact ⟨e, heq.trans hget, hcounted, .inl rfl⟩
    · rw [hget] at he₀
      cases he₀
      obtain ⟨hid, -⟩ := h.wf.slot hspec ht hown hget
      obtain ⟨hnew, hle⟩ := hcounted.step hspec ht hid hown hhonest hentry
      exact ⟨e', he', hnew, .inr ⟨hentry.live, hle⟩⟩
    · rw [hget] at hnone
      cases hnone
  have hkeep : ∀ m, Spent spec body m → Spent spec body' m := by
    rintro m ⟨⟨t, ht, hown, hworked⟩, e, hget, hpast⟩
    refine ⟨⟨t, ht, hown, by rwa [hstep.mapped_eq]⟩, ?_⟩
    obtain ⟨e', he', -, rfl | ⟨hlive, hle⟩⟩ := hentry t ht m.taskkey e hown hget
    · exact ⟨e', he', hpast⟩
    · refine ⟨e', he', .inr ?_⟩
      rcases hpast with hterm | hlt
      · simp [TaskState.inert, hterm] at hlive
      · omega
  have hcounted : ∀ t ∈ spec.tasks, ∀ key e', Owns t.id key →
      body'.tasks.get? key = some e' → Counted t e' := by
    intro t ht key e' hown hget'
    rcases hstep.get?_cases key with heq | ⟨e, -, he, -, -⟩ |
      ⟨u, record, i, item, now, hu, -, -, rfl, -, hnew⟩
    · exact h.counted t ht key e' hown (heq ▸ hget')
    · obtain ⟨e'', he'', hc, -⟩ := hentry t ht key e hown he
      rw [hget'] at he''
      cases he''
      exact hc
    · rw [hget'] at hnew
      cases hnew
      have hc := newTaskEntry_counted t u now
      exact ⟨hc.plain, fun _ => hc.idle (.inl rfl), hc.bound, fun hlive => by cases hlive⟩
  refine ⟨h.wf.step hspec hstep, hcounted, ?_, ?_⟩
  · intro m hm
    rcases mem_append.mp hm with hm | hm
    · exact hkeep m (h.spent m hm)
    · -- the completion just applied
      obtain rfl := mem_completions.mp hm
      have hm := hhonest m rfl
      cases hstep with
      | @entry key e e' _ hget hfinish =>
        obtain ⟨t, ht, -, hslot⟩ := h.wf.owner key e hget
        obtain ⟨rfl, hstate, -, hpast⟩ := clock_of_finish hspec ht hslot.owns hm
          (h.counted t ht _ e hslot.owns hget) hfinish
        refine ⟨⟨t, ht, hslot.owns, ?_⟩, e', by simp, hpast⟩
        cases hslot with
        | plain _ _ hexp => exact .inl hexp
        | waiting _ _ _ _ hs =>
          rcases hs with hs | ⟨hs, -⟩ <;> rw [hstate] at hs <;> cases hs
        | group _ _ _ hrec => exact .inr hrec
        | inst _ _ hrec => exact .inr (Dict.contains_iff.mpr ⟨_, hrec⟩)
  · cases hev : ev with
    | finished m =>
      subst hev
      rw [completions, map_append, map_singleton]
      refine nodup_append.mpr ⟨h.nodup, nodup_singleton _, ?_⟩
      rintro _ hold _ hnew rfl
      obtain ⟨m', hm', hsame⟩ := mem_map.mp hold
      rw [mem_singleton] at hnew
      -- the earlier completion at this identity moved the entry past the fence
      have hid : m'.identity = m.identity := hsame.trans hnew
      simp only [identity, Prod.mk.injEq] at hid
      obtain ⟨hkey, -, hattempt, hpoke⟩ := hid
      obtain ⟨-, e₁, hget₁, hpast⟩ := h.spent m' hm'
      cases hstep with
      | @entry key e e' _ hget hfinish =>
        obtain ⟨t, ht, -, hslot⟩ := h.wf.owner key e hget
        obtain ⟨rfl, hstate, hclock, -⟩ := clock_of_finish hspec ht hslot.owns (hhonest m rfl)
          (h.counted t ht _ e hslot.owns hget) hfinish
        rw [hkey, hget] at hget₁
        cases hget₁
        have hsameClock : m'.clock = m.clock := by
          rw [clock, clock, hattempt, hpoke]
        rcases hpast with hterm | hlt
        · rw [hstate] at hterm
          cases hterm
        · omega
    | launch | ended | quiet | external => simpa [completions] using h.nodup

/-- Supplied lists keep the counters and what is spent. -/
theorem expand (hspec : ValidSpec spec) (h : Fenced spec body completed) (expansions : Expansions)
    (now : Time) : Fenced spec (applyExpansions spec expansions now { body }).body completed := by
  have heffect : ∀ t ∈ spec.tasks, ExpandEffect spec now expansions body
      (applyExpansions spec expansions now { body }).body t := fun t ht =>
    applyExpansions_task hspec expansions now { body } ht
  refine ⟨h.wf.expand hspec expansions now, ?_, ?_, h.nodup⟩
  · intro t ht key e hown hget
    rcases (heffect t ht).entry hown hget with hold | hnew
    · exact h.counted t ht key e hown hold
    · cases hnew with
      | failed e₀ _ hget₀ | marked e₀ hget₀ =>
        have hc := h.counted t ht t.id e₀ (.inl rfl) hget₀
        refine ⟨hc.plain, ?_, hc.bound, fun hlive => by cases hlive⟩
        rintro (hs | hs) <;> cases hs
      | fresh => exact { newTaskEntry_counted t t now with }
  · intro m hm
    obtain ⟨⟨t, ht, hown, hworked⟩, e, hget, hpast⟩ := h.spent m hm
    have hsame := (heffect t ht).sameTask hworked
    refine ⟨⟨t, ht, hown, ?_⟩, e, (hsame.2 _ hown).trans hget, hpast⟩
    rwa [Dict.contains, hsame.1]

end Fenced

/-! ## Batches -/

section Batch

variable {α : Type} (key : α → String) (write : α → TaskEntry → Option TaskEntry)

/-- A batch applies elements of its own. -/
private lemma mem_of_applied (elements : List α) (tasks : Dict String TaskEntry) :
    ∀ a ∈ (applyBatch key write elements tasks).2, a ∈ elements := by
  refine List.foldlRecOn (motive := fun s : Dict String TaskEntry × List α =>
    ∀ a ∈ s.2, a ∈ elements) _ _ (by simp) ?_
  intro s hs a ha
  split
  · exact hs
  · exact forall_mem_append.mpr ⟨hs, forall_mem_singleton.mpr ha⟩

end Batch

/-- The entries a batch of completions leaves. -/
theorem finish_tasks (spec : DagSpec) (marks : List CompletionMark) (now : Time)
    (body : RunBody) :
    ((Op.finish marks now).apply spec body).tasks =
      (applyBatch taskkey (finishEntry now) marks body.tasks).1 := by
  unfold Op.apply Op.write markTasksFinished storeBatch
  simp only
  split
  next hempty =>
    exact (applyBatch_unchanged _ _ _ _ (isEmpty_iff.mp hempty)).symm
  next => rfl

/-! ## Claims -/

/-- A claim of an instance of a task. -/
def Claim.Ok (spec : DagSpec) (c : Claim) : Prop :=
  ∃ t ∈ spec.tasks, t.id = c.intent.taskId ∧ Owns t.id c.intent.taskkey ∧
    c.intent.isSensor = decide (t.type = .sensor) ∧
    (t.type ≠ .sensor → c.intent.pokeNumber = 0)

/-- Every claim handed out is of an instance of a task. -/
private lemma claims_ok (hspec : ValidSpec spec) (op : Op) (body : RunBody) :
    ∀ c ∈ op.claims spec body, c.Ok spec := by
  have hlaunch : ∀ proc, ∀ intent ∈ op.launches spec body, (Claim.mk proc intent).Ok spec := by
    intro proc intent hintent
    obtain ⟨start, events, hrun, hlaunches, -⟩ := op.apply_run hspec body
    have hlabels := hrun.labelled (P := fun _ => True)
      (Q := fun ev _ => ∀ intent, ev = launch intent → (Claim.mk proc intent).Ok spec)
      (fun _ _ _ _ _ => trivial)
      (by
        rintro b ev b' - hstep intent rfl
        cases hstep with
        | entry _ hentry =>
          cases hentry with
          | claim t inst _ _ _ ht hinst =>
            exact ⟨t, ht, rfl, (mem_instancesOf hinst).1, rfl, fun _ => rfl⟩
          | poke t inst _ _ _ ht hinst _ htype =>
            exact ⟨t, ht, rfl, (mem_instancesOf hinst).1, by simp [htype],
              fun hne => absurd htype hne⟩)
      (fun _ _ _ _ _ _ h => h) trivial
    rw [hlaunches] at hintent
    obtain ⟨ev, hev, hmem⟩ := mem_flatMap.mp hintent
    exact hlabels ev hev intent (mem_launches.mp hmem)
  intro c hc
  cases op with
  | plan | reconcilePlan =>
    obtain ⟨intent, hintent, rfl⟩ := mem_map.mp hc
    exact hlaunch _ intent hintent
  | _ => cases hc

variable {c : Claim}

/-- A completion of a claim has the fences of the claim. -/
private lemma honest_of_reports (hspec : ValidSpec spec) (hc : c.Ok spec) (h : m.Reports spec c) :
    Honest spec m := by
  obtain ⟨t, ht, hid, hown, hsensor, -⟩ := hc
  obtain ⟨hkey, -, hattempt, hpoke, htask⟩ := h
  obtain rfl : t = m.task := by
    rw [← hid, hspec.byId_self ht] at htask
    exact Option.some.inj htask
  refine ⟨ht, hkey ▸ hown, by rw [hattempt]; rfl, ?_⟩
  rw [hpoke, hsensor]
  by_cases htype : m.task.type = .sensor <;> simp [htype]

/-! ## Runs -/

/-- The invariant of a system. -/
structure SysInv (spec : DagSpec) (s : Sys) : Prop where
  fenced : Fenced spec s.body s.completed
  claims : ∀ c ∈ s.claims, c.Ok spec

/-- Every delivered transform keeps the invariant. -/
theorem SysInv.after (hspec : ValidSpec spec) {s : Sys} (h : SysInv spec s) {op : Op}
    (hdelivered : Delivered spec s op) : SysInv spec (s.after spec op) := by
  obtain ⟨start, events, hrun, -, hcompletions, hstart⟩ := op.apply_run hspec s.body
  have hbegin : Fenced spec start s.completed := by
    rcases hstart with rfl | ⟨now, -, -, expansions, -, -, rfl⟩
    · exact h.fenced
    · exact h.fenced.expand hspec expansions now
  have hhonest : ∀ m ∈ op.completions s.body, Honest spec m := by
    intro m hm
    cases op with
    | finish marks now =>
      obtain ⟨c, hc, hreports⟩ := hdelivered m (mem_of_applied _ _ _ _ m hm)
      exact honest_of_reports hspec (h.claims c hc) hreports
    | _ => cases hm
  have hend : Fenced spec (op.apply spec s.body)
      (s.completed ++ events.flatMap completions) := by
    refine hrun.history
      (P := fun b done => Fenced spec b (s.completed ++ done.flatMap completions))
      (by simpa using hbegin) ?_
    intro b done ev b' hmem hb hstep
    have hev : ∀ m, ev = .finished m → Honest spec m := by
      rintro m rfl
      refine hhonest m ?_
      rw [hcompletions]
      exact mem_flatMap.mpr ⟨_, hmem, mem_singleton_self m⟩
    simpa using hb.step hspec hev hstep
  refine ⟨?_, forall_mem_append.mpr ⟨h.claims, claims_ok hspec op s.body⟩⟩
  rw [Sys.after, hcompletions]
  exact hend

/-- No transform lowers the attempt of an entry. -/
private lemma attempt_le_apply (hspec : ValidSpec spec) (hwf : WF spec body) (op : Op)
    {key : String} {e : TaskEntry} (hget : body.tasks.get? key = some e) :
    ∃ e', (op.apply spec body).tasks.get? key = some e' ∧ e.attempt ≤ e'.attempt := by
  obtain ⟨start, events, hrun, -, -, hstart⟩ := op.apply_run hspec body
  have hbegin : ∃ e₁, start.tasks.get? key = some e₁ ∧ e.attempt ≤ e₁.attempt := by
    rcases hstart with rfl | ⟨now, -, -, expansions, -, -, rfl⟩
    · exact ⟨e, hget, le_rfl⟩
    · obtain ⟨t, ht, -, hslot⟩ := hwf.owner key e hget
      cases applyExpansions_task hspec expansions now { body } ht with
      | same hsame => exact ⟨e, (hsame.2 key hslot.owns).trans hget, le_rfl⟩
      | capped e₀ _ _ _ hget₀ _ _ hentry hinst =>
        rcases hslot.owns with rfl | ⟨i, rfl⟩
        · rw [hget] at hget₀
          cases hget₀
          exact ⟨_, hentry, le_rfl⟩
        · exact ⟨e, (hinst i).trans hget, le_rfl⟩
      | recorded l _ helig _ hentry hinst =>
        rcases hslot.owns with rfl | ⟨i, rfl⟩
        · rw [hget] at hentry
          exact ⟨_, hentry, le_rfl⟩
        · obtain ⟨-, -, hnone, -⟩ := helig
          rw [hwf.no_instance hspec ht hnone i] at hget
          cases hget
  obtain ⟨e₁, he₁, hle⟩ := hbegin
  refine hrun.invariant
    (P := fun b => ∃ e', b.tasks.get? key = some e' ∧ e.attempt ≤ e'.attempt) ?_ ⟨e₁, he₁, hle⟩
  rintro b ev b' ⟨e', he', hle'⟩ hstep
  rcases hstep.get?_cases key with heq | ⟨e₂, e₃, he₂, he₃, hentry⟩ |
    ⟨-, -, -, -, -, -, -, -, -, hnone, -⟩
  · exact ⟨e', heq.trans he', hle'⟩
  · rw [he'] at he₂
    cases he₂
    exact ⟨e₃, he₃, hle'.trans hentry.frame.2.1⟩
  · rw [he'] at hnone
    cases hnone

/-- A completion that passes its fence is of the current claim. -/
private lemma current_of_finish {completed : List CompletionMark} (h : Fenced spec body completed)
    (hc : c.Ok spec) (hreports : m.Reports spec c) {now : Time} {e e' : TaskEntry}
    (hget : body.tasks.get? m.taskkey = some e) (hfinish : finishEntry now m e = some e') :
    Current body c := by
  obtain ⟨t, ht, -, hown, hsensor, hzero⟩ := hc
  obtain ⟨hkey, hproc, hattempt, hpoke, -⟩ := hreports
  obtain ⟨hstate, hprocFence, hattemptFence, hpokeFence, -⟩ := finishEntry_eq_some.mp hfinish
  rw [hkey] at hget
  refine ⟨e, hget, hstate, hprocFence _ hproc, hattemptFence _ hattempt, ?_⟩
  by_cases htype : t.type = .sensor
  · exact hpokeFence _ (by simp [hpoke, hsensor, htype])
  · rw [(h.counted t ht _ e hown hget).plain htype, hzero htype]

/-- Exactly when the pid write of a claim is dropped. -/
private lemma setTaskPids_eq_none {w : PidWrite} (h : w.Reports c) (now : Time) :
    (setTaskPids [w] now body).1 = none ↔
      ¬ ∃ e, body.tasks.get? c.intent.taskkey = some e ∧ e.state = .running ∧
        e.proc = some c.proc ∧ e.attempt = c.intent.attempt := by
  obtain ⟨hkey, hproc, hattempt⟩ := h
  cases hwrite : (body.tasks.get? w.taskkey).bind (writePid now w) with
  | none =>
    have hnone : (setTaskPids [w] now body).1 = none := by
      simp [setTaskPids, storeBatch, applyBatch, hwrite]
    simp only [hnone, true_iff]
    rintro ⟨e, hget, hstate, howner, hcount⟩
    rw [← hkey] at hget
    rw [hget, bind_some] at hwrite
    have hpass : writePid now w e = some { e with pid := w.pid, updatedAt := some now } :=
      writePid_eq_some.mpr ⟨hstate, hproc ▸ howner, fun a ha => by
        rw [hattempt] at ha
        exact hcount.trans (Option.some.inj ha), rfl⟩
    rw [hwrite] at hpass
    cases hpass
  | some e' =>
    obtain ⟨e, hget, hpass⟩ := bind_eq_some_iff.mp hwrite
    obtain ⟨hstate, howner, hcount, -⟩ := writePid_eq_some.mp hpass
    have hsome : (setTaskPids [w] now body).1 ≠ none := by
      simp [setTaskPids, storeBatch, applyBatch, hwrite]
    simp only [hsome, false_iff, not_not]
    exact ⟨e, hkey ▸ hget, hstate, hproc ▸ howner, hcount _ hattempt⟩

/-- The fences over whole runs. In every run of transforms by any nodes, in which pid writes and
completions report claims that were handed out, each identity is applied at most once; no attempt
exceeds the bound of its task, and none ever decreases; a completion whose claim is not current at
its turn might as well not be in its batch; and the pid write of a claim that is not current leaves
the document alone exactly when the entry does not run under the same proc token and attempt at
another poke. -/
theorem completion_at_most_once (hvalid : validateGraph spec = .ok ())
    (dag runKey runId : String) (logicalDate : Option String) (kind : String) (start : Time)
    {ops : List Op} {s : Sys}
    (hrun : Run (SysStep spec)
      { body := newRunBody dag runKey runId logicalDate kind start spec } ops s) :
    (s.completed.map CompletionMark.identity).Nodup ∧
    (∀ t ∈ spec.tasks, ∀ key e, Owns t.id key → s.body.tasks.get? key = some e →
      e.attempt ≤ t.maxAttempts) ∧
    (∀ op : Op, ∀ key e, s.body.tasks.get? key = some e →
      ∃ e', (op.apply spec s.body).tasks.get? key = some e' ∧ e.attempt ≤ e'.attempt) ∧
    (∀ c ∈ s.claims, ∀ pre m post now, (∀ m' ∈ pre, ∃ c' ∈ s.claims, m'.Reports spec c') →
      m.Reports spec c → ¬ Current ((Op.finish pre now).apply spec s.body) c →
      markTasksFinished (pre ++ m :: post) now s.body =
        markTasksFinished (pre ++ post) now s.body) ∧
    ∀ c ∈ s.claims, ∀ w now, w.Reports c →
      ((¬ Current s.body c → (setTaskPids [w] now s.body).1 = none) ↔
        ∀ e, s.body.tasks.get? c.intent.taskkey = some e → e.state = .running →
          e.proc = some c.proc → e.attempt = c.intent.attempt →
          e.poke = c.intent.pokeNumber) := by
  have hspec := validSpec_of_validateGraph hvalid
  have hinv : SysInv spec s := by
    refine hrun.invariant (P := SysInv spec) ?_
      ⟨.fresh hspec dag runKey runId logicalDate kind start, by simp⟩
    rintro s op s' hs ⟨hdelivered, rfl⟩
    exact hs.after hspec hdelivered
  refine ⟨hinv.fenced.nodup, ?_, ?_, ?_, ?_⟩
  · intro t ht key e hown hget
    exact (hinv.fenced.counted t ht key e hown hget).bound
  · intro op key e hget
    exact attempt_le_apply hspec hinv.fenced.wf op hget
  · intro c hc pre m post now hpre hreports hstale
    have hdelivered : Delivered spec s (.finish pre now) := hpre
    have hpreInv := (hinv.after hspec hdelivered).fenced
    have hdrop : ((applyBatch taskkey (finishEntry now) pre s.body.tasks).1.get?
        m.taskkey).bind (finishEntry now m) = none := by
      by_contra hpass
      obtain ⟨e', he'⟩ := ne_none_iff_exists'.mp hpass
      obtain ⟨e, hget, hfinish⟩ := bind_eq_some_iff.mp he'
      rw [← finish_tasks spec] at hget
      exact hstale (current_of_finish hpreInv (hinv.claims c hc) hreports hget hfinish)
    unfold markTasksFinished applyBatch at *
    rw [foldl_append, foldl_append, foldl_cons, hdrop]
  · intro c hc w now hreports
    rw [setTaskPids_eq_none hreports]
    constructor
    · intro hkeep e hget hstate hproc hattempt
      by_contra hpoke
      refine hkeep ?_ ⟨e, hget, hstate, hproc, hattempt⟩
      rintro ⟨e', hget', -, -, -, hpoke'⟩
      rw [hget] at hget'
      cases hget'
      exact hpoke hpoke'
    · rintro hpoke hstale ⟨e, hget, hstate, hproc, hattempt⟩
      exact hstale ⟨e, hget, hstate, hproc, hattempt, hpoke e hget hstate hproc hattempt⟩

/-! ## A late pid write -/

/-- One sensor. -/
def sensorSpec : DagSpec := { name := "watch", tasks := [{ id := "s", type := .sensor }] }

/-- The completion of the first poke, without success. -/
def firstPoke : CompletionMark :=
  { taskkey := "s", success := false, task := { id := "s", type := .sensor }
    expectedProc := some "p", expectedAttempt := some 0, expectedPoke := some 0 }

/-- The transforms of a node that pokes twice. -/
def pokeTwice : List Op :=
  [.plan 1 "p" "h" .empty, .finish [firstPoke] 2, .plan 100 "p" "h" .empty]

/-- The system after them: the second poke is in flight. -/
def secondPoke : Sys :=
  pokeTwice.foldl (Sys.after sensorSpec)
    { body := newRunBody "watch" "k" "r" none "cron" 0 sensorSpec }

/-- The pid write of the first poke. -/
def firstPid : PidWrite := { taskkey := "s", proc := "p", pid := some 11, attempt := some 0 }

/-- What a report is fenced by, and the task of the claim. -/
private def Claim.fields (c : Claim) : String × String × String × ℕ × Bool × ℕ :=
  (c.proc, c.intent.taskId, c.intent.taskkey, c.intent.attempt, c.intent.isSensor,
    c.intent.pokeNumber)

/-- The first claim handed out is that of the first poke. -/
private lemma pokeTwice_first (s : Sys) (rest : List (String × String × String × ℕ × Bool × ℕ))
    (h : s.claims.map Claim.fields = ("p", "s", "s", 0, true, 0) :: rest) :
    ∃ c ∈ s.claims, firstPoke.Reports sensorSpec c ∧ firstPid.Reports c ∧
      c.intent.taskkey = "s" ∧ c.intent.pokeNumber = 0 := by
  obtain ⟨c, hc, hfields⟩ := mem_map.mp (h ▸ mem_cons_self)
  simp only [Claim.fields, Prod.mk.injEq] at hfields
  obtain ⟨hproc, hid, hkey, hattempt, hsensor, hpoke⟩ := hfields
  refine ⟨c, hc, ⟨hkey.symm, by rw [hproc]; rfl, by rw [hattempt]; rfl, ?_, by rw [hid]; rfl⟩,
    ⟨hkey.symm, hproc.symm, by rw [hattempt]; rfl⟩, hkey, hpoke⟩
  rw [hsensor, hpoke]
  rfl

private lemma secondPoke_run :
    Run (SysStep sensorSpec) { body := newRunBody "watch" "k" "r" none "cron" 0 sensorSpec }
      pokeTwice secondPoke := by
  have hfirst : SysStep sensorSpec
      { body := newRunBody "watch" "k" "r" none "cron" 0 sensorSpec } (.plan 1 "p" "h" .empty) _ :=
    ⟨trivial, rfl⟩
  have hdelivered : Delivered sensorSpec (Sys.after sensorSpec
      { body := newRunBody "watch" "k" "r" none "cron" 0 sensorSpec } (.plan 1 "p" "h" .empty))
      (.finish [firstPoke] 2) := by
    intro m hm
    rw [mem_singleton.mp hm]
    obtain ⟨c, hc, hreports, -⟩ := pokeTwice_first (Sys.after sensorSpec
      { body := newRunBody "watch" "k" "r" none "cron" 0 sensorSpec } (.plan 1 "p" "h" .empty))
      [] (by decide +kernel)
    exact ⟨c, hc, hreports⟩
  exact ((Run.single hfirst).snoc ⟨hdelivered, rfl⟩).snoc ⟨trivial, rfl⟩

/-- The state, poke count and pid of the sensor while its second poke is in flight. -/
private lemma secondPoke_entry :
    (secondPoke.body.tasks.get? "s").map (fun e => (e.state, e.proc, e.attempt, e.poke, e.pid)) =
      some (.running, some "p", 0, 1, none) := by
  decide +kernel

/-- The pid write of the first poke, which is not current any more, is stamped on the second. -/
theorem secondPoke_late_pid :
    validateGraph sensorSpec = .ok () ∧
      Run (SysStep sensorSpec) { body := newRunBody "watch" "k" "r" none "cron" 0 sensorSpec }
        pokeTwice secondPoke ∧
      (∃ c ∈ secondPoke.claims, firstPid.Reports c ∧ ¬ Current secondPoke.body c) ∧
      (secondPoke.body.tasks.get? "s").map (·.pid) = some none ∧
      (((Op.pids [firstPid] 101).apply sensorSpec secondPoke.body).tasks.get? "s").map (·.pid) =
        some (some 11) := by
  refine ⟨by decide +kernel, secondPoke_run, ?_, by decide +kernel, by decide +kernel⟩
  obtain ⟨c, hc, -, hreports, hkey, hpoke⟩ := pokeTwice_first secondPoke
    [("p", "s", "s", 0, true, 1)] (by decide +kernel)
  refine ⟨c, hc, hreports, ?_⟩
  rintro ⟨e, hget, -, -, -, hcount⟩
  have hentry := secondPoke_entry
  rw [← hkey, hget] at hentry
  simp only [map_some, Option.some.injEq, Prod.mk.injEq] at hentry
  rw [hpoke, hentry.2.2.2.1] at hcount
  cases hcount

/-- On the same run the first poke is completed once and its repeated completion is dropped. -/
theorem completion_at_most_once_pokes :
    (secondPoke.completed.map CompletionMark.identity).Nodup ∧
      markTasksFinished [firstPoke] 102 secondPoke.body = (none, []) := by
  have h := completion_at_most_once (by decide +kernel) "watch" "k" "r" none "cron" 0
    secondPoke_run
  refine ⟨h.1, ?_⟩
  obtain ⟨c, hc, hreports, -, hkey, hpoke⟩ := pokeTwice_first secondPoke
    [("p", "s", "s", 0, true, 1)] (by decide +kernel)
  refine h.2.2.2.1 c hc [] firstPoke [] 102 (by simp) hreports ?_
  rintro ⟨e, hget, -, -, -, hcount⟩
  have hsame : ((Op.finish [] 102).apply sensorSpec secondPoke.body).tasks =
      secondPoke.body.tasks := rfl
  have hentry := secondPoke_entry
  rw [hsame, hkey] at hget
  rw [hget] at hentry
  simp only [map_some, Option.some.injEq, Prod.mk.injEq] at hentry
  rw [hpoke, hentry.2.2.2.1] at hcount
  cases hcount

end Cronstable.Dag

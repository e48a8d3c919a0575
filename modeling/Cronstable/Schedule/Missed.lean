import Cronstable.Dag.CatchUp
import Cronstable.Lib.FloatSeconds
import Mathlib.Data.ENat.Lattice

/-!
# The occurrences a job is owed

When a job with `onMissed` comes back after its node was down, or after its schedule was skipped,
`_missed_occurrences` counts what it is owed. It walks the schedule from a reference watermark to
now, in steps of `_compute_next_fire`, and jumps over the window of a pause: the walk is seeded
again a microsecond before the end of the window, which it crosses at most once.

`_compute_next_fire` asks for the delay to the next occurrence in float seconds and adds it to its
seed. A delay of more than `2 ^ 33` seconds may come back a microsecond off. When it comes back
short, the walk stops right before the occurrence and then finds it again: `missed_counted_twice`.
`missed_count_exact` says that nothing is skipped or counted twice where the delays come back as
they are (`DelaysKept`).

Instants are integers: that the `datetime` of the host ends with the years 1 and 9999 is not
modelled.
-/

namespace Cronstable.Schedule

open Calendar CronExpr Dag.CatchUp FloatSeconds Option Schedule

/-- `MAX_CATCHUP_OCCURRENCES`. -/
def maxCatchupOccurrences : ℕ := 100

/-- A timestamp of the store, with what `_parse_iso_utc` reads from it. -/
structure Stamp where
  /-- As it is stored. -/
  text : String
  /-- As it is read. -/
  instant : Option ℤ

/-- `ResumeCatchup`. -/
structure ResumeCatchup where
  /-- Where the skipped slots begin. -/
  after : ℤ
  /-- Where they end. -/
  before : ℤ

/-- What the store and the node answer about a job. -/
structure Answers where
  /-- `durable_last_run_at`. -/
  lastRunAt : Option Stamp
  /-- `_pending_catchup_watermark`. -/
  pending : Option Stamp
  /-- `_pause_excusal_window`: its start, if known, and its end. -/
  window : Option (Option ℤ × ℤ)
  /-- `durable_last_completed_at`, as `_parse_iso_utc` reads it. -/
  lastCompletedAt : Option ℤ
  /-- `_sla_last_start`. -/
  lastStart : Option ℤ

/-- `_in_pause_window`. -/
abbrev InPauseWindow (at_ : ℤ) (window : Option ℤ × ℤ) : Prop :=
  at_ < window.2 ∧ ∀ since ∈ window.1, since ≤ at_

section Missed

variable (sched : Schedule) (ans : Answers) (resume : Option ResumeCatchup) (now : ℤ)

/-- `_resume_satisfied`. -/
def resumeSatisfied : Bool :=
  match resume, ans.lastStart with
  | some window, some started => sched.onMissed == .runOnce && decide (window.after < started)
  | _, _ => false

/-- The condition of the loop of `_missed_occurrences`. -/
abbrev Due (nxt : ℤ) : Prop := nxt ≤ now ∧ ∀ window ∈ resume, nxt < window.before

/-- `_compute_next_fire`: the delay to the next occurrence is told in float seconds. -/
def nextFireSeconds (after : ℤ) : Option (Option ℤ) :=
  (sched.nextFire after).map (Option.map fun nxt =>
    after + ofSeconds (totalSeconds (nxt - after).toNat))

/-- An occurrence is counted. The loop goes on unless it was the last to be counted. -/
def countOne (left : ℕ) (loop : Option ℤ → Option ℕ) (nxt : ℤ) : Option ℕ :=
  if left = 0 then some 1
  else do
    let following ← nextFireSeconds sched nxt
    let rest ← loop following
    some (rest + 1)

/-- The loop of `_missed_occurrences`, with the number of occurrences that it may still count. -/
def countMissed : ℕ → Option (Option ℤ × ℤ) → Option ℤ → Option ℕ
  | left + 1, window, some nxt =>
    if Due resume now nxt then
      match window.filter (decide <| InPauseWindow nxt ·) with
      | none => countOne sched left (countMissed left window) nxt
      | some (_, stop) => do
        -- the window is crossed, and the condition is asked again
        let resumed ← nextFireSeconds sched (stop - 1)
        match resumed with
        | some nxt =>
          if Due resume now nxt then countOne sched left (countMissed left none) nxt else some 0
        | none => some 0
    else some 0
  | _, _, _ => some 0

/-- How many occurrences are counted at most: under `run-once` they coalesce. -/
def limit : ℕ := if sched.onMissed = .runOnce then 1 else maxCatchupOccurrences

variable (isoformat : ℤ → String)

/-- The watermark, hoisted back to that of an older open checkpoint. -/
def hoisted : Option ℤ × Option String :=
  let start := match resume with
    | some window => (some window.after, some (isoformat window.after))
    | none => (ans.lastRunAt.bind Stamp.instant, ans.lastRunAt.map Stamp.text)
  match ans.pending with
  | some { text, instant := some pending } =>
    if start.1.all (decide <| pending < ·) then (some pending, some text) else start
  | _ => start

/-- With a pause window the watermark falls back to the last run that was no skip. -/
def lowered (after : ℤ) (watermark : Option String) : ℤ × Option String :=
  match ans.window, resume, ans.lastCompletedAt with
  | some _, none, some real =>
    if real < after then (real, some (isoformat real)) else (after, watermark)
  | _, _, _ => (after, watermark)

/-- `_missed_occurrences`: the number, the reference watermark, and whether a checkpoint is open.
The outer `none` is a search that never returns. -/
def missedOccurrences : Option (ℕ × Option String × Bool) :=
  let pinned := ans.pending.isSome
  let (start, watermark) := hoisted ans resume isoformat
  if resumeSatisfied sched ans resume then some (0, watermark, pinned)
  else
    match start with
    | none => some (0, none, pinned)
    | some start => do
      let (after, watermark) := lowered ans resume isoformat start watermark
      let first ← nextFireSeconds sched (sched.cutoff now after)
      let count ← countMissed sched resume now (limit sched) ans.window first
      some (count, watermark, pinned)

end Missed

/-! ## What is owed -/

section Owed

variable (sched : Schedule) (ans : Answers) (resume : Option ResumeCatchup) (now : ℤ)

/-- The reference watermark: the start of the resume window, or else the last run, lowered to an
older open checkpoint, and without a resume window to the last completed run when there is a pause
window. -/
def reference : Option ℤ :=
  let start := Option.merge min
    ((resume.map ResumeCatchup.after).or (ans.lastRunAt.bind Stamp.instant))
    (ans.pending.bind Stamp.instant)
  if resume.isNone && ans.window.isSome then
    start.map fun watermark => ans.lastCompletedAt.elim watermark (min watermark)
  else start

/-- The occurrences a job is owed after a reference watermark. -/
def owed (watermark : ℤ) : Set ℤ :=
  {u | u ∈ sched.occurrences ∧ watermark < u ∧ (∀ d ∈ sched.deadline, now - d < u) ∧ u ≤ now ∧
    (∀ window ∈ resume, u < window.before) ∧ ∀ window ∈ ans.window, ¬ InPauseWindow u window}

/-- The delay from a seed of the walk to the next occurrence comes back from float seconds. -/
def DelayKept (seed : ℤ) : Prop :=
  ∀ nxt, IsLeast {u | u ∈ sched.occurrences ∧ seed < u} nxt →
    ofSeconds (totalSeconds (nxt - seed).toNat) = (nxt - seed).toNat

/-- What the walk needs of the delays when it starts at `a`. -/
structure DelaysKept (window : Option (Option ℤ × ℤ)) (a : ℤ) : Prop where
  start : DelayKept sched a
  /-- Where it crosses the pause window. -/
  stop : ∀ w ∈ window, (∃ u ∈ sched.occurrences, a < u ∧ Due resume now u ∧ InPauseWindow u w) →
    DelayKept sched (w.2 - 1)
  /-- From one occurrence to the next. -/
  step : ∀ u ∈ sched.occurrences, a < u → Due resume now u → DelayKept sched u

end Owed

/-! ## Delays in float seconds -/

variable {sched : Schedule} {ans : Answers} {resume : Option ResumeCatchup} {now a : ℤ}

/-- Delays of less than `2 ^ 33` seconds, which are 272 years, come back. -/
lemma DelayKept.of_near (h : ∀ u ∈ sched.occurrences, u - a < 2 ^ 33 * second) :
    DelayKept sched a := by
  intro nxt hnxt
  refine ofSeconds_totalSeconds ?_
  have := h nxt hnxt.1.1
  simp only [units] at this
  omega

/-- Delays of whole seconds come back. -/
lemma DelayKept.of_whole (h : ∀ u ∈ sched.occurrences, second ∣ u - a) : DelayKept sched a := by
  intro nxt hnxt
  refine ofSeconds_totalSeconds_whole ?_
  have hwhole := h nxt hnxt.1.1
  have hlt : a < nxt := hnxt.1.2
  simp only [units] at hwhole
  omega

/-- A walk that goes on from an occurrence, with or without the window, needs no more. -/
lemma DelaysKept.next {window window' : Option (Option ℤ × ℤ)} {nxt : ℤ}
    (h : DelaysKept sched resume now window a) (hoccurs : nxt ∈ sched.occurrences) (hlt : a < nxt)
    (hdue : Due resume now nxt) (hwindow : ∀ w ∈ window', w ∈ window) :
    DelaysKept sched resume now window' nxt where
  start := h.step nxt hoccurs hlt hdue
  stop w hw := fun ⟨u, hu, hltu, hdueu, hin⟩ =>
    h.stop w (hwindow w hw) ⟨u, hu, hlt.trans hltu, hdueu, hin⟩
  step u hu hltu := h.step u hu (hlt.trans hltu)

/-- Where the delay comes back, the next fire is the next occurrence. -/
lemma first_nextFireSeconds (hz : sched.tz.toZone.WholeJumps) (hkept : DelayKept sched a) :
    ∃ r, nextFireSeconds sched a = some r ∧ First {u | u ∈ sched.occurrences ∧ a < u} r := by
  obtain ⟨r, hr, hfirst⟩ := first_nextFire hz a
  refine ⟨r, ?_, hfirst⟩
  cases r with
  | none => simp [nextFireSeconds, hr]
  | some nxt =>
    have hlt : a < nxt := hfirst.1.2
    simp only [nextFireSeconds, hr, map_some, hkept nxt hfirst, Option.some.injEq]
    omega

/-! ## The walk counts what is owed -/

/-- Behind an occurrence that is not due, none is. -/
private lemma counted_eq_zero {r : Option ℤ} (hr : First {u | u ∈ sched.occurrences ∧ a < u} r)
    (h : ∀ nxt ∈ r, ¬ Due resume now nxt) {p : ℤ → Prop} (n : ℕ∞) : ((0 : ℕ) : ℕ∞) =
      min n {u | u ∈ sched.occurrences ∧ a < u ∧ Due resume now u ∧ p u}.encard := by
  rw [Set.encard_eq_zero.mpr, min_zero, Nat.cast_zero]
  refine Set.eq_empty_iff_forall_notMem.mpr ?_
  rintro u ⟨hu, hau, hdue, -⟩
  cases r with
  | none => exact First.none_iff.mp hr u ⟨hu, hau⟩
  | some nxt =>
    have hle := hr.2 ⟨hu, hau⟩
    exact h nxt rfl ⟨hle.trans hdue.1, fun w hw => hle.trans_lt (hdue.2 w hw)⟩

/-- One occurrence is counted on top of what the loop counts behind it. -/
private lemma countOne_spec (hz : sched.tz.toZone.WholeJumps) {left : ℕ} {nxt : ℤ}
    (hkept : DelayKept sched nxt) {loop : Option ℤ → Option ℕ} {q : ℤ → Prop}
    (hloop : ∀ {r}, First {u | u ∈ sched.occurrences ∧ nxt < u} r → ∃ c, loop r = some c ∧
      (c : ℕ∞) = min (left : ℕ∞) {u | u ∈ sched.occurrences ∧ nxt < u ∧ q u}.encard)
    (hnxt : IsLeast {u | u ∈ sched.occurrences ∧ a < u} nxt) (hq : q nxt) :
    ∃ c, countOne sched left loop nxt = some c ∧
      (c : ℕ∞) = min ((left + 1 : ℕ) : ℕ∞) {u | u ∈ sched.occurrences ∧ a < u ∧ q u}.encard := by
  rw [First.after_eq_insert hnxt hq, Set.encard_insert_of_notMem fun h => lt_irrefl _ h.2.1]
  unfold countOne
  split_ifs with hzero
  · exact ⟨1, rfl, by simp [hzero]⟩
  · obtain ⟨following, hfollowing, hfirst⟩ := first_nextFireSeconds hz hkept
    obtain ⟨c, hc, hcount⟩ := hloop hfirst
    refine ⟨c + 1, by simp [hfollowing, hc], ?_⟩
    rw [Nat.cast_succ, Nat.cast_succ, hcount, min_add_add_right]

/-- What is left of the schedule behind a pause window that covers the next occurrence is what is
outside of it. -/
private lemma after_window {nxt stop : ℤ} {since : Option ℤ} {p : ℤ → Prop}
    (hnxt : IsLeast {u | u ∈ sched.occurrences ∧ a < u} nxt)
    (hin : InPauseWindow nxt (since, stop)) :
    {u | u ∈ sched.occurrences ∧ a < u ∧ p u ∧ ∀ w ∈ some (since, stop), ¬ InPauseWindow u w} =
      {u | u ∈ sched.occurrences ∧ stop - 1 < u ∧ p u ∧
        ∀ w ∈ (none : Option (Option ℤ × ℤ)), ¬ InPauseWindow u w} := by
  obtain ⟨hstop, hsince⟩ := hin
  ext u
  constructor
  · rintro ⟨hu, hau, hp, hout⟩
    refine ⟨hu, ?_, hp, by simp⟩
    by_contra hle
    have hle' := hnxt.2 ⟨hu, hau⟩
    exact hout _ rfl ⟨by omega, fun s hs => (hsince s hs).trans hle'⟩
  · rintro ⟨hu, hlt, hp, -⟩
    have hau := hnxt.1.2
    refine ⟨hu, by omega, hp, ?_⟩
    rintro _ ⟨⟩
    exact fun h => absurd h.1 (by omega)

/-- The loop counts the occurrences behind its start that are due and outside the window. -/
theorem countMissed_spec (hz : sched.tz.toZone.WholeJumps) (resume : Option ResumeCatchup)
    (now : ℤ) (left : ℕ) {window : Option (Option ℤ × ℤ)}
    (hkept : DelaysKept sched resume now window a) {r : Option ℤ}
    (hr : First {u | u ∈ sched.occurrences ∧ a < u} r) :
    ∃ c, countMissed sched resume now left window r = some c ∧
      (c : ℕ∞) = min (left : ℕ∞) {u | u ∈ sched.occurrences ∧ a < u ∧ Due resume now u ∧
        ∀ w ∈ window, ¬ InPauseWindow u w}.encard := by
  induction left generalizing window a r with
  | zero => exact ⟨0, by simp [countMissed], by simp⟩
  | succ left ih =>
    cases r with
    | none => exact ⟨0, by simp [countMissed], counted_eq_zero hr (by simp) _⟩
    | some nxt =>
      rw [countMissed]
      split_ifs with hdue
      · split
        next hfilter =>
          -- outside the window, the occurrence is counted
          have hnext := hkept.next hr.1.1 hr.1.2 hdue fun _ hw => hw
          refine countOne_spec hz hnext.start (ih hnext) hr ⟨hdue, fun w hw => ?_⟩
          simpa using filter_eq_none_iff.mp hfilter w hw
        next since stop hfilter =>
          -- inside it, the walk goes on behind its end, where there is no window left
          obtain ⟨rfl, hin⟩ := filter_eq_some_iff.mp hfilter
          have hin : InPauseWindow nxt (since, stop) := of_decide_eq_true hin
          have hstop : DelayKept sched (stop - 1) :=
            hkept.stop _ rfl ⟨nxt, hr.1.1, hr.1.2, hdue, hin⟩
          obtain ⟨resumed, hresumed, hfirst⟩ := first_nextFireSeconds hz hstop
          rw [after_window hr hin]
          simp only [hresumed, bind_eq_bind, bind_some]
          split
          next nxt' =>
            split_ifs with hdue'
            · have hlt : a < nxt' := by
                obtain ⟨-, hlt⟩ := hr.1
                obtain ⟨-, hlt'⟩ := hfirst.1
                have := hin.1
                omega
              have hnext : DelaysKept sched resume now none nxt' :=
                hkept.next hfirst.1.1 hlt hdue' nofun
              exact countOne_spec hz hnext.start (ih hnext) hfirst ⟨hdue', by simp⟩
            · exact ⟨0, rfl, counted_eq_zero hfirst (by simpa using hdue') _⟩
          next => exact ⟨0, rfl, counted_eq_zero hfirst (by simp) _⟩
      · exact ⟨0, rfl, counted_eq_zero hr (by simpa using hdue) _⟩

/-- Behind the cutoff is what is behind the watermark and within the deadline. -/
lemma cutoff_lt_iff {u : ℤ} :
    sched.cutoff now a < u ↔ a < u ∧ ∀ d ∈ sched.deadline, now - d < u := by
  unfold cutoff
  cases sched.deadline with
  | none => simp
  | some d =>
    simp only [mem_def, Option.some.injEq, forall_eq']
    split_ifs <;> omega

/-- What the code starts from is the reference watermark. -/
theorem reference_eq (ans : Answers) (resume : Option ResumeCatchup) (isoformat : ℤ → String)
    (watermark : Option String) :
    reference ans resume = (hoisted ans resume isoformat).1.map fun start =>
      (lowered ans resume isoformat start watermark).1 := by
  have hmin : ∀ x y : ℤ, (if y < x then y else x) = min x y := fun x y => by
    split_ifs <;> omega
  have hhoisted : (hoisted ans resume isoformat).1 = Option.merge min
      ((resume.map ResumeCatchup.after).or (ans.lastRunAt.bind Stamp.instant))
      (ans.pending.bind Stamp.instant) := by
    have hstart : ∀ (last : Option ℤ) (pending : ℤ), (if last.all (decide <| pending < ·) then
        some pending else last) = Option.merge min last (some pending) := by
      rintro (_ | last) pending
      · rfl
      · simp [← hmin, apply_ite some]
    unfold hoisted
    rcases ans.pending with _ | ⟨text, _ | pending⟩
    · cases resume <;> simp
    · cases resume <;> simp
    · cases resume <;> exact (apply_ite Prod.fst ..).trans (hstart _ _)
  rw [reference, hhoisted]
  unfold lowered
  cases ans.window <;> cases resume <;> cases ans.lastCompletedAt <;>
    simp [apply_ite Prod.fst, hmin]

/-- The catch-up count is exact, for every schedule, every answer of the store and every resume
window that no run has satisfied, where the delays of the walk come back from float seconds. Without
a reference watermark nothing is owed. -/
theorem missed_count_exact (sched : Schedule) (hz : sched.tz.toZone.WholeJumps) (ans : Answers)
    (resume : Option ResumeCatchup) (now : ℤ) (isoformat : ℤ → String)
    (hresume : resumeSatisfied sched ans resume = false)
    (hkept : ∀ watermark ∈ reference ans resume,
      DelaysKept sched resume now ans.window (sched.cutoff now watermark)) :
    ∃ r, missedOccurrences sched ans resume now isoformat = some r ∧
      match reference ans resume with
      | none => r.1 = 0
      | some watermark =>
        (r.1 : ℕ∞) = min (if sched.onMissed = .runOnce then 1 else maxCatchupOccurrences : ℕ∞)
          (owed sched ans resume now watermark).encard := by
  have hreference := reference_eq ans resume isoformat
  unfold missedOccurrences
  generalize hoisted ans resume isoformat = h at hreference
  obtain ⟨start, watermark⟩ := h
  rw [hreference watermark] at hkept ⊢
  cases start with
  | none => exact ⟨(0, none, ans.pending.isSome), by simp [hresume], rfl⟩
  | some start =>
    simp only [hresume, Bool.false_eq_true, if_false, map_some]
    replace hkept : DelaysKept sched resume now ans.window
        (sched.cutoff now (lowered ans resume isoformat start watermark).1) := hkept _ rfl
    generalize lowered ans resume isoformat start watermark = l at hkept ⊢
    obtain ⟨first, hfirst, hleast⟩ := first_nextFireSeconds hz hkept.start
    obtain ⟨count, hcount, hexact⟩ :=
      countMissed_spec hz resume now (limit sched) hkept hleast
    refine ⟨(count, l.2, ans.pending.isSome), by simp [hfirst, hcount], ?_⟩
    have hset : owed sched ans resume now l.1 =
        {u | u ∈ sched.occurrences ∧ sched.cutoff now l.1 < u ∧ Due resume now u ∧
          ∀ w ∈ ans.window, ¬ InPauseWindow u w} := by
      ext u
      simp only [owed, cutoff_lt_iff, Due, Set.mem_ofPred_eq]
      tauto
    rw [hset]
    simpa [limit, apply_ite (Nat.cast : ℕ → ℕ∞)] using hexact

/-- A job of every minute ran last at minute 10, and was paused from minute 13 to minute 15. -/
private def pausedJob : Answers :=
  { lastRunAt := some ⟨"10", some (minuteOf 10)⟩, pending := none
    window := some (some (minuteOf 13), minuteOf 15), lastCompletedAt := none, lastStart := none }

/-- Its delays come back: those between the occurrences are whole seconds. -/
private lemma pausedJob_delaysKept :
    DelaysKept firstHourDag none (minuteOf 20) pausedJob.window (minuteOf 10) := by
  have hwhole : ∀ k, DelayKept firstHourDag (minuteOf k) := fun k => by
    refine .of_whole fun u hu => ?_
    obtain ⟨i, -, rfl⟩ := firstHourDag_occurrences hu
    simp only [minuteOf, units]
    omega
  refine ⟨hwhole 10, ?_, fun u hu _ _ => ?_⟩
  · rintro _ ⟨⟩ -
    refine .of_near fun u hu => ?_
    obtain ⟨i, hi, rfl⟩ := firstHourDag_occurrences hu
    simp only [minuteOf, units]
    omega
  · obtain ⟨i, -, rfl⟩ := firstHourDag_occurrences hu
    exact hwhole i

/-- At minute 20 it is owed the occurrences outside of the pause. -/
theorem missed_count_exact_paused :
    resumeSatisfied firstHourDag pausedJob none = false ∧
      ∃ r, missedOccurrences firstHourDag pausedJob none (minuteOf 20) toString = some r ∧
        (r.1 : ℕ∞) =
          min 100 (owed firstHourDag pausedJob none (minuteOf 20) (minuteOf 10)).encard :=
  ⟨rfl, missed_count_exact firstHourDag firstHourDag_wholeJumps pausedJob none (minuteOf 20)
    toString rfl (by
      rintro _ ⟨⟩
      exact pausedJob_delaysKept)⟩

/-- The job ran last in 1700, a microsecond after the year began. -/
private def ancientJob : Answers :=
  { lastRunAt := some ⟨"1700-01-01T00:00:00.000001+00:00", some (datetime 1700 1 1 0 0 0 + 1)⟩
    pending := none, window := none, lastCompletedAt := none, lastStart := none }

/-- The next fire of the first hour of 2024, told in float seconds. -/
private lemma nextFireSeconds_firstHour {a : ℤ} {k : ℕ}
    (hoccurs : minuteOf k ∈ firstHourDag.occurrences) (hlt : a < minuteOf k)
    (hprev : ∀ i < k, minuteOf i ≤ a) : nextFireSeconds firstHourDag a =
      some (some (a + ofSeconds (totalSeconds (minuteOf k - a).toNat))) := by
  obtain ⟨r, hr, hfirst⟩ := first_nextFire firstHourDag_wholeJumps a
  have hleast : First {u | u ∈ firstHourDag.occurrences ∧ a < u} (some (minuteOf k)) := by
    refine ⟨⟨hoccurs, hlt⟩, ?_⟩
    rintro u ⟨hu, hau⟩
    obtain ⟨i, -, rfl⟩ := firstHourDag_occurrences hu
    by_contra hik
    refine absurd (hprev i ?_) (not_le.mpr hau)
    simp only [minuteOf, units] at hik
    omega
  rw [nextFireSeconds, hr, hfirst.unique hleast]
  rfl

/-- When 2024 begins it is owed one occurrence. The walk first stops a microsecond before it, and
counts two. -/
theorem missed_counted_twice :
    resumeSatisfied firstHourDag ancientJob none = false ∧
      missedOccurrences firstHourDag ancientJob none (minuteOf 0) toString =
        some (2, some "1700-01-01T00:00:00.000001+00:00", false) ∧
      reference ancientJob none = some (datetime 1700 1 1 0 0 0 + 1) ∧
      (owed firstHourDag ancientJob none (minuteOf 0)
        (datetime 1700 1 1 0 0 0 + 1)).encard = 1 := by
  have hoccurs : ∀ k ∈ [0, 1], minuteOf k ∈ firstHourDag.occurrences := by
    have hmatch : ∀ k ∈ [0, 1], firstHour.Matches (minuteOf k) ∧
        firstHourDag.tz.toZone.resolve (minuteOf k) = minuteOf k := by decide +kernel
    exact fun k hk => ⟨firstHour, rfl, minuteOf k, hmatch k hk⟩
  refine ⟨rfl, ?_, rfl, Set.encard_eq_one.mpr ⟨minuteOf 0, ?_⟩⟩
  · have hshort : nextFireSeconds firstHourDag (datetime 1700 1 1 0 0 0 + 1) =
        some (some (minuteOf 0 - 1)) := by
      rw [nextFireSeconds_firstHour (hoccurs 0 (by simp)) (by decide +kernel) (by simp)]
      decide +kernel
    have hagain : nextFireSeconds firstHourDag (minuteOf 0 - 1) = some (some (minuteOf 0)) := by
      rw [nextFireSeconds_firstHour (hoccurs 0 (by simp)) (by decide +kernel) (by simp)]
      decide +kernel
    have hlast : nextFireSeconds firstHourDag (minuteOf 0) = some (some (minuteOf 1)) := by
      rw [nextFireSeconds_firstHour (hoccurs 1 (by simp)) (by decide +kernel) (by simp)]
      decide +kernel
    have hearly : Due none (minuteOf 0) (minuteOf 0 - 1) := by decide +kernel
    have hdue : Due none (minuteOf 0) (minuteOf 0) := by decide +kernel
    have hlate : ¬ Due none (minuteOf 0) (minuteOf 1) := by decide +kernel
    have hcount : ∀ left nxt, Due none (minuteOf 0) nxt →
        countMissed firstHourDag none (minuteOf 0) (left + 1) none (some nxt) =
          countOne firstHourDag left (countMissed firstHourDag none (minuteOf 0) left none) nxt :=
      fun left nxt h => by rw [countMissed, if_pos h, filter_none]
    have hstop : countMissed firstHourDag none (minuteOf 0) (97 + 1) none (some (minuteOf 1)) =
        some 0 := by rw [countMissed, if_neg hlate]
    have hloop : countMissed firstHourDag none (minuteOf 0) (97 + 1 + 1 + 1) none
        (some (minuteOf 0 - 1)) = some 2 := by
      simp [hcount _ _ hearly, hcount _ _ hdue, hstop, countOne, hagain, hlast]
    calc missedOccurrences firstHourDag ancientJob none (minuteOf 0) toString
        = (nextFireSeconds firstHourDag (datetime 1700 1 1 0 0 0 + 1)).bind fun first =>
            (countMissed firstHourDag none (minuteOf 0) (97 + 1 + 1 + 1) none first).bind
              fun count => some (count, some "1700-01-01T00:00:00.000001+00:00", false) := rfl
      _ = some (2, some "1700-01-01T00:00:00.000001+00:00", false) := by
          rw [hshort, bind_some, hloop, bind_some]
  · refine Set.eq_singleton_iff_unique_mem.mpr ⟨?_, ?_⟩
    · exact ⟨hoccurs 0 (by simp), by decide +kernel, nofun, le_rfl, nofun, nofun⟩
    · rintro u ⟨hu, -, -, hle, -⟩
      obtain ⟨k, -, rfl⟩ := firstHourDag_occurrences hu
      obtain rfl : k = 0 := by
        simp only [minuteOf, units] at hle
        omega
      rfl

end Cronstable.Schedule

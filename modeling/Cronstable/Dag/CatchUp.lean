import Cronstable.CronExpr.Occurrences
import Mathlib.Data.List.ReduceOption
import Mathlib.Data.Set.Card

/-!
# Firing a scheduled DAG

`_fire_forward` creates the due runs of a DAG, one document per occurrence of its schedule. When
the next fire has fallen behind by `DAG_CATCHUP_LIMIT` or more, after a stall, a suspend or a clock
jump, `_fire_past_gap` fires the current slot if it matches, resumes after now, and leaves the gap
to the catch-up policy. `_catch_up` derives from the stored documents how far the DAG got, and
replays the occurrences after that.

The current slot is created before the documents are read. So when it matches, its own document is
the newest, the catch-up starts behind the gap, and what the gap owes is lost (`gap_lost`). A pass
recovers what is owed exactly when the catch-up starts before it (`gap_recovered_iff`).

Instants are integers. That `_compute_next_fire` tells its delay in float seconds is left out here:
a delay of whole seconds or of less than 272 years comes back as it was (`Lib.FloatSeconds`). So is
the end of the `datetime` type: a `startingDeadlineSeconds` that reaches back before the year 1 is
accepted by the configuration and raises `OverflowError` in the catch-up.

## Main results

* `mem_missed`: the walk of the catch-up finds the first occurrences after its start;
* `gap_recovered_iff`: when one pass recovers a gap.
-/

namespace Cronstable.Dag.CatchUp

open Calendar CronExpr List

/-- `DAG_MAX_CATCHUP`. -/
def dagMaxCatchup : ℕ := 100

/-- `DAG_CATCHUP_LIMIT`. -/
def dagCatchupLimit : ℤ := 10 * second

/-- `DAG_CATCHUP_STREAM_KEEP`. -/
def dagCatchupStreamKeep : ℕ := 8

inductive OnMissed
  | skip
  | runOnce
  | runAll
  deriving DecidableEq, Repr

/-- `Cron._compute_next_fire`: the first occurrence after an instant, in the frame of the job. The
outer `none` is a search that never returns. -/
def computeNextFire (tab : CronTab) (tz : TzInfo) (after : ℤ) : Option (Option ℤ) :=
  match tz with
  | .timezone offset _ =>
    let civil := after + offset
    some ((tab.nextCivil civil).map fun target => after + (target - civil))
  | .zone z => (tab.nextInstant z (z.astimezone after) after).map (Option.map fun instant =>
    after + (instant - after))

/-- What the configuration says about firing a DAG. -/
structure Schedule where
  /-- The schedule, unless it is a text that has no occurrences (`@reboot`). -/
  tab : Option CronTab
  tz : TzInfo
  /-- The schedule names seconds. -/
  hasSeconds : Bool := false
  onMissed : OnMissed := .skip
  startingDeadlineSeconds : Option ℕ := none
  /-- `_catchup_offset`, from the name of the DAG and `catchupJitterSeconds`. -/
  catchupOffset : ℤ := 0

namespace Schedule

variable (sched : Schedule)

/-- The instants at which the DAG is to run. -/
def occurrences : Set ℤ := {u | ∃ tab, sched.tab = some tab ∧ u ∈ tab.fires sched.tz.toZone}

/-- `_next_fire`. -/
def nextFire (after : ℤ) : Option (Option ℤ) :=
  match sched.tab with
  | none => some none
  | some tab => computeNextFire tab sched.tz after

/-- `schedule_slot`: now in the frame of the schedule, cut to its resolution. -/
def slot (now : ℤ) : Aware :=
  let shown := sched.tz.toZone.astimezone now
  { shown with
    civil := shown.civil - shown.civil % (if sched.hasSeconds then second else minute) }

/-- The current slot, if it matches the schedule. -/
def firedNow (now : ℤ) : Option ℤ :=
  match sched.tab with
  | none => none
  | some tab =>
    if tab.test (sched.slot now).civil then some (sched.tz.toZone.instant (sched.slot now))
    else none

/-- The deadline, if one is set. -/
def deadline : Option ℤ :=
  match sched.startingDeadlineSeconds with
  | none | some 0 => none
  | some n => some (n * second)

/-- The catch-up looks no further back than the deadline. -/
def cutoff (now after : ℤ) : ℤ :=
  match sched.deadline with
  | none => after
  | some d => if after < now - d then now - d else after

/-- The loop of `_catch_up`, with the number of runs it may still collect. -/
def missed (now : ℤ) : ℕ → Option ℤ → Option (List ℤ)
  | 0, _ => some []
  | _ + 1, none => some []
  | n + 1, some nxt =>
    if now < nxt then some []
    else do
      let following ← sched.nextFire nxt
      let rest ← missed now n following
      some (nxt :: rest)

/-- What the policy replays. -/
def targets (missed : List ℤ) : List ℤ :=
  if sched.onMissed = .runOnce then missed.getLast?.toList else missed

end Schedule

/-! ## The store -/

inductive CheckpointKind
  | opened
  | closed
  deriving DecidableEq, Repr

/-- A record of the checkpoint stream. Of a watermark that is a text, the instant `_parse_iso` reads
from it. -/
structure Checkpoint where
  kind : CheckpointKind
  watermark : Option (Option ℤ)

/-- What is stored about a DAG. -/
structure Store where
  /-- The logical instants whose run document exists. -/
  runs : List ℤ := []
  /-- The logical dates of the other documents, which are manual runs and recoveries, as
  `_parse_iso` reads them. -/
  others : List (Option ℤ) := []
  /-- Newest first. -/
  checkpoints : List Checkpoint := []

namespace Store

variable (st : Store)

/-- `_create_run`: the key of a run derives from its logical instant, and a key that has a document
keeps it. -/
def createRun (u : ℤ) : Store := if u ∈ st.runs then st else { st with runs := st.runs ++ [u] }

/-- `_durable_watermark`. -/
def durableWatermark : Option ℤ :=
  (st.runs.map some ++ st.others).foldl
    (fun latest date =>
      match date with
      | none => latest
      | some w => if latest.all (decide <| · < w) then some w else latest)
    none

/-- `_pending_catchup_watermark`. -/
def pendingCatchupWatermark : Option (Option ℤ) :=
  match st.checkpoints with
  | { kind := .opened, watermark } :: _ => watermark
  | _ => none

/-- `_checkpoint_catchup`. -/
def checkpointCatchup (kind : CheckpointKind) (watermark : ℤ) : Store :=
  { st with
    checkpoints :=
      ({ kind, watermark := some (some watermark) } :: st.checkpoints).take dagCatchupStreamKeep }

/-- How far the DAG got: the newest logical date, or the watermark of an open cycle if that is
older. -/
def reference : Option ℤ :=
  match st.pendingCatchupWatermark with
  | some (some pending) =>
    if st.durableWatermark.all (decide <| pending < ·) then some pending else st.durableWatermark
  | _ => st.durableWatermark

/-- Close the open cycle, if there is one. -/
def closeCatchup (watermark : ℤ) : Store :=
  if st.pendingCatchupWatermark.isSome then st.checkpointCatchup .closed watermark else st

end Store

/-! ## The pass -/

/-- A replay that sleeps out its offset. -/
structure Replay where
  targets : List ℤ
  watermark : ℤ

/-- What the node that fires a DAG works on. -/
structure Firing where
  store : Store := {}
  /-- `_next_logical`. -/
  nextLogical : Option ℤ := none
  /-- The deferred replays. -/
  replays : List Replay := []

namespace Firing

variable (d : Firing) (sched : Schedule) (now : ℤ)

/-- `_create_run`. -/
def create (u : ℤ) : Firing := { d with store := d.store.createRun u }

/-- `_catch_up`. -/
def catchUp : Option Firing :=
  match d.store.reference with
  | none => some d
  | some watermark => do
    let first ← sched.nextFire (sched.cutoff now watermark)
    let missed ← sched.missed now dagMaxCatchup first
    if missed.isEmpty then some { d with store := d.store.closeCatchup watermark }
    else if sched.catchupOffset ≤ 0 then
      some { d with
        store := ((sched.targets missed).foldl Store.createRun d.store).closeCatchup watermark }
    else
      some { d with
        store := d.store.checkpointCatchup .opened watermark
        replays := d.replays ++ [{ targets := sched.targets missed, watermark }] }

/-- `_fire_past_gap`. -/
def firePastGap : Option Firing := do
  let created := match sched.firedNow now with
    | none => d
    | some slot => d.create slot
  let following ← sched.nextFire now
  let resumed := { created with nextLogical := following }
  if sched.onMissed = .skip then some resumed else resumed.catchUp sched now

/-- The replay loop of `_fire_forward`, with the number of runs it may still fire. -/
def fireDue : ℕ → Firing → Option Firing
  | 0, d => some d
  | n + 1, d =>
    match d.nextLogical with
    | none => some d
    | some nxt =>
      if now < nxt then some d
      else do
        let following ← sched.nextFire nxt
        match following with
        | none => some { d.create nxt with nextLogical := none }
        | some _ => fireDue n { d.create nxt with nextLogical := following }

/-- `_fire_forward`. -/
def fireForward : Option Firing :=
  match d.nextLogical with
  | some stale =>
    if dagCatchupLimit ≤ now - stale then d.firePastGap sched now
    else d.fireDue sched now dagMaxCatchup
  | none => d.fireDue sched now dagMaxCatchup

end Firing

/-! ## The search and the walk -/

/-- The next fire is the first occurrence after the instant. -/
theorem first_computeNextFire (tab : CronTab) {tz : TzInfo} (hz : tz.toZone.WholeJumps)
    (after : ℤ) : ∃ r, computeNextFire tab tz after = some r ∧
      First {u | u ∈ tab.fires tz.toZone ∧ after < u} r := by
  cases tz with
  | timezone offset bound =>
    refine ⟨_, rfl, ?_⟩
    have hfirst := tab.first_resumeCivil (h := bound) (after + offset)
    simp only [Option.map_map, add_sub_cancel_right] at hfirst
    refine Eq.mp (congrArg (First _) ?_) hfirst
    refine congrArg (Option.map · _) (funext fun target => ?_)
    show (Zone.fixed offset bound).instant ⟨target, false⟩ = after + (target - (after + offset))
    rw [Zone.instant_fixed]
    show target - offset = after + (target - (after + offset))
    omega
  | zone z =>
    have hwhole : z.WholeJumps := hz
    obtain ⟨r, hr, hfirst⟩ := tab.first_nextInstant hwhole (z.astimezone after)
    rw [Zone.instant_astimezone] at hr hfirst
    refine ⟨r, ?_, hfirst⟩
    simp [computeNextFire, hr]

namespace Schedule

variable {sched : Schedule}

lemma first_nextFire (hz : sched.tz.toZone.WholeJumps) (after : ℤ) :
    ∃ r, sched.nextFire after = some r ∧ First {u | u ∈ sched.occurrences ∧ after < u} r := by
  unfold nextFire
  cases htab : sched.tab with
  | none =>
    refine ⟨none, rfl, First.none_iff.mpr ?_⟩
    rintro u ⟨⟨tab, hsome, -⟩, -⟩
    rw [htab] at hsome
    cases hsome
  | some tab =>
    obtain ⟨r, hr, hfirst⟩ := first_computeNextFire tab hz after
    refine ⟨r, hr, hfirst.congr fun u => ?_⟩
    simp [occurrences, htab]

/-- The occurrences after `a` and up to `u`. -/
def between (sched : Schedule) (a u : ℤ) : Set ℤ := {v | v ∈ sched.occurrences ∧ a < v ∧ v ≤ u}

/-- The first occurrence comes on top of those after it. -/
private lemma between_first {a nxt u : ℤ}
    (h : IsLeast {v | v ∈ sched.occurrences ∧ a < v} nxt) (hle : nxt ≤ u) :
    sched.between a u = insert nxt (sched.between nxt u) :=
  First.after_eq_insert h hle

/-- The walk of the catch-up returns, with the first `n` occurrences after its start up to now, in
their order. -/
theorem mem_missed (hz : sched.tz.toZone.WholeJumps) (now : ℤ) (n : ℕ) {a : ℤ} {r : Option ℤ}
    (hr : First {u | u ∈ sched.occurrences ∧ a < u} r) :
    ∃ l, sched.missed now n r = some l ∧ l.Pairwise (· < ·) ∧ ∀ u, u ∈ l ↔
      u ∈ sched.occurrences ∧ a < u ∧ u ≤ now ∧ (sched.between a u).encard ≤ n := by
  induction n generalizing a r with
  | zero =>
    refine ⟨[], rfl, .nil, fun u => iff_of_false not_mem_nil ?_⟩
    rintro ⟨hu, hau, -, hcard⟩
    -- the occurrence itself is counted
    have hmem : u ∈ sched.between a u := ⟨hu, hau, le_rfl⟩
    rw [Nat.cast_zero, nonpos_iff_eq_zero, Set.encard_eq_zero] at hcard
    rw [hcard] at hmem
    exact hmem.elim
  | succ n ih =>
    cases r with
    | none =>
      refine ⟨[], rfl, .nil, fun u => iff_of_false not_mem_nil ?_⟩
      rintro ⟨hu, hau, -⟩
      exact absurd ⟨hu, hau⟩ (First.none_iff.mp hr u)
    | some nxt =>
      unfold missed
      split_ifs with hlate
      · refine ⟨[], rfl, .nil, fun u => iff_of_false not_mem_nil ?_⟩
        rintro ⟨hu, hau, hun, -⟩
        have := hr.2 ⟨hu, hau⟩
        omega
      · obtain ⟨following, hfollowing, hfirst⟩ := first_nextFire hz nxt
        obtain ⟨rest, hrest, hsorted, hmem⟩ := ih hfirst
        refine ⟨nxt :: rest, by simp [hfollowing, hrest],
          .cons (fun v hv => ((hmem v).mp hv).2.1) hsorted, fun u => ?_⟩
        have hnot : nxt ∉ sched.between nxt u := fun h => lt_irrefl _ h.2.1
        rw [mem_cons, hmem]
        constructor
        · rintro (rfl | ⟨hu, hlt, hun, hcard⟩)
          · refine ⟨hr.1.1, hr.1.2, not_lt.mp hlate, ?_⟩
            have hempty : sched.between u u = ∅ :=
              Set.eq_empty_iff_forall_notMem.mpr fun v hv => absurd hv.2.1 (not_lt.mpr hv.2.2)
            rw [between_first hr le_rfl, hempty]
            simp
          · refine ⟨hu, hr.1.2.trans hlt, hun, ?_⟩
            rw [between_first hr hlt.le, Set.encard_insert_of_notMem hnot]
            exact add_le_add_left hcard 1
        · rintro ⟨hu, hau, hun, hcard⟩
          rcases (hr.2 ⟨hu, hau⟩).eq_or_lt with heq | hlt
          · exact .inl heq.symm
          · refine .inr ⟨hu, hlt, hun, ?_⟩
            rw [between_first hr hlt.le, Set.encard_insert_of_notMem hnot,
              Nat.cast_succ] at hcard
            exact (ENat.add_le_add_iff_right ENat.one_ne_top).mp hcard

end Schedule

/-! ## How far the catch-up goes back -/

namespace Store

variable {st : Store}

/-- The logical dates of the documents. -/
def dates (st : Store) : List ℤ := st.runs ++ st.others.reduceOption

@[simp]
lemma mem_runs_createRun {u v : ℤ} : v ∈ (st.createRun u).runs ↔ v ∈ st.runs ∨ v = u := by
  unfold createRun
  split_ifs with h
  · constructor
    · exact .inl
    · rintro (hv | rfl)
      · exact hv
      · exact h
  · simp

/-- Runs are created and never removed. -/
theorem mem_runs_foldl_createRun (l : List ℤ) {v : ℤ} :
    v ∈ (l.foldl createRun st).runs ↔ v ∈ st.runs ∨ v ∈ l := by
  induction l generalizing st with
  | nil => simp
  | cons u l ih => rw [foldl_cons, ih, mem_runs_createRun, mem_cons, or_assoc]

@[simp]
lemma runs_closeCatchup (watermark : ℤ) : (st.closeCatchup watermark).runs = st.runs := by
  unfold closeCatchup
  split_ifs <;> rfl

/-- The loop of `_durable_watermark` keeps the greatest date. -/
theorem durableWatermark_eq (st : Store) : st.durableWatermark = st.dates.max? := by
  have hfold : ∀ (l : List (Option ℤ)) (m : Option ℤ),
      l.foldl (fun latest date =>
        match date with
        | none => latest
        | some w => if latest.all (decide <| · < w) then some w else latest) m =
      (m.toList ++ l.reduceOption).max? := by
    intro l
    induction l with
    | nil => intro m; cases m <;> rfl
    | cons date l ih =>
      intro m
      rw [foldl_cons, ih]
      cases date with
      | none => rfl
      | some w =>
        cases m with
        | none => rfl
        | some v =>
          have hstep : (if (some v).all (decide <| · < w) then some w else some v) =
              some (max v w) := by
            simp only [Option.all_some, decide_eq_true_eq]
            split_ifs with hlt
            · rw [max_eq_right hlt.le]
            · rw [max_eq_left (not_lt.mp hlt)]
          simp only [hstep]
          rw [Option.toList_some, Option.toList_some,
            reduceOption_cons_of_some, singleton_append, singleton_append,
            max?_cons', max?_cons', foldl_cons]
  rw [durableWatermark, hfold, Option.toList_none, reduceOption_append, dates]
  simp [reduceOption]

/-- Where the catch-up of a pass starts: after the newest logical date, with the current slot
counted if it matches, or after the watermark of an open cycle if that is older, and not before
the deadline. -/
def lookBack (st : Store) (sched : Schedule) (now : ℤ) : Option ℤ :=
  let newest := (st.dates ++ (sched.firedNow now).toList).max?
  (st.pendingCatchupWatermark.join.toList ++ newest.toList).min?.map (sched.cutoff now)

/-- The store once the current slot has been fired. -/
def fireSlot (st : Store) (sched : Schedule) (now : ℤ) : Store :=
  match sched.firedNow now with
  | none => st
  | some slot => st.createRun slot

/-- The greatest value of a list depends on its values only. -/
private lemma max?_congr {l l' : List ℤ} (h : ∀ v, v ∈ l ↔ v ∈ l') : l.max? = l'.max? := by
  cases hl : l.max? with
  | none =>
    rw [max?_eq_none_iff] at hl
    symm
    rw [max?_eq_none_iff, eq_nil_iff_forall_not_mem]
    intro v hv
    rw [← h, hl] at hv
    exact not_mem_nil hv
  | some m =>
    obtain ⟨hm, hle⟩ := max?_eq_some_iff.mp hl
    exact (max?_eq_some_iff.mpr ⟨(h m).mp hm, fun v hv => hle v ((h v).mpr hv)⟩).symm

private lemma mem_dates_fireSlot {sched : Schedule} {now v : ℤ} :
    v ∈ (st.fireSlot sched now).dates ↔ v ∈ st.dates ++ (sched.firedNow now).toList := by
  unfold fireSlot
  cases sched.firedNow now with
  | none => simp
  | some slot =>
    have hothers : (st.createRun slot).others = st.others := by
      unfold createRun
      split_ifs <;> rfl
    simp only [dates, mem_append, mem_runs_createRun, hothers, Option.toList_some,
      mem_singleton]
    tauto

/-- The reference of the catch-up, once the current slot has been fired. -/
theorem reference_fireSlot (st : Store) (sched : Schedule) (now : ℤ) :
    (st.fireSlot sched now).reference.map (sched.cutoff now) = st.lookBack sched now := by
  have hpending : (st.fireSlot sched now).pendingCatchupWatermark = st.pendingCatchupWatermark := by
    unfold fireSlot createRun
    split
    · rfl
    · split_ifs <;> rfl
  have hnewest : (st.fireSlot sched now).durableWatermark =
      (st.dates ++ (sched.firedNow now).toList).max? := by
    rw [durableWatermark_eq]
    exact max?_congr fun v => mem_dates_fireSlot
  unfold reference
  rw [hpending, hnewest]
  congr 1
  match st.pendingCatchupWatermark, (st.dates ++ (sched.firedNow now).toList).max? with
  | none, none | none, some _ | some none, none | some none, some _ | some (some _), none => rfl
  | some (some p), some w =>
    simp only [Option.all_some, decide_eq_true_eq, Option.join_some, Option.toList_some,
      singleton_append, min?_cons', foldl_cons, foldl_nil]
    split_ifs with hlt
    · rw [min_eq_left hlt.le]
    · rw [min_eq_right (not_lt.mp hlt)]

end Store

/-! ## One pass over a gap -/

/-- An occurrence of the gap between the stale next fire and now that is within the deadline. -/
structure InGap (sched : Schedule) (stale now u : ℤ) : Prop where
  occurs : u ∈ sched.occurrences
  since : stale ≤ u
  past : u ≤ now
  recent : ∀ d, sched.deadline = some d → now - u ≤ d

/-- The runs that a catch-up without an offset leaves: its walk collects the first occurrences after
its start, and the policy picks from them. -/
theorem mem_runs_catchUp {d : Firing} {sched : Schedule} (hz : sched.tz.toZone.WholeJumps)
    (hoffset : sched.catchupOffset ≤ 0) (now : ℤ) :
    ∃ d' missed, d.catchUp sched now = some d' ∧ missed.Pairwise (· < ·) ∧
      (∀ u, u ∈ missed ↔ ∃ a, d.store.reference.map (sched.cutoff now) = some a ∧
        u ∈ sched.between a now ∧ (sched.between a u).encard ≤ dagMaxCatchup) ∧
      ∀ u, u ∈ d'.store.runs ↔ u ∈ d.store.runs ∨ u ∈ sched.targets missed := by
  unfold Firing.catchUp
  cases d.store.reference with
  | none => exact ⟨d, [], rfl, .nil, by simp, by simp [Schedule.targets]⟩
  | some watermark =>
    obtain ⟨first, hfirst, hleast⟩ := Schedule.first_nextFire hz (sched.cutoff now watermark)
    obtain ⟨missed, hmissed, hsorted, hmem⟩ := Schedule.mem_missed hz now dagMaxCatchup hleast
    simp only [hfirst, hmissed, hoffset, Option.bind_eq_bind, Option.bind_some, if_true,
      Option.map_some, Option.some.injEq, exists_eq_left']
    refine ⟨_, missed, (apply_ite some ..).symm, hsorted, fun u => (hmem u).trans ?_, fun u => ?_⟩
    · simp only [Schedule.between, Set.mem_ofPred_eq, and_assoc]
    · split_ifs with hempty
      · simp [isEmpty_iff.mp hempty, Schedule.targets]
      · rw [Store.runs_closeCatchup, Store.mem_runs_foldl_createRun]

/-- The runs that a pass over a gap leaves: those that were there, the current slot if it matches,
and what the catch-up finds after its start. -/
theorem mem_runs_fireForward {d : Firing} {sched : Schedule} (hz : sched.tz.toZone.WholeJumps)
    (hpolicy : sched.onMissed = .runAll) (hoffset : sched.catchupOffset ≤ 0) {stale now : ℤ}
    (hstale : d.nextLogical = some stale) (hgap : dagCatchupLimit ≤ now - stale) :
    ∃ d', d.fireForward sched now = some d' ∧ ∀ u, u ∈ d'.store.runs ↔
      u ∈ d.store.runs ∨ sched.firedNow now = some u ∨ u ∈ sched.occurrences ∧ u ≤ now ∧
        ∃ a, d.store.lookBack sched now = some a ∧ a < u ∧
          (sched.between a u).encard ≤ dagMaxCatchup := by
  obtain ⟨following, hfollowing, -⟩ := Schedule.first_nextFire hz now
  obtain ⟨d', missed, hd', -, hmissed, hruns⟩ := mem_runs_catchUp (d := {
    d with store := d.store.fireSlot sched now, nextLogical := following }) hz hoffset now
  refine ⟨d', ?_, fun u => ?_⟩
  · have hslot : (match sched.firedNow now with
        | none => d
        | some slot => d.create slot) = { d with store := d.store.fireSlot sched now } := by
      unfold Store.fireSlot
      cases sched.firedNow now <;> rfl
    unfold Firing.fireForward Firing.firePastGap
    simp only [hstale, hgap, if_true, hfollowing, hslot, hpolicy, Option.bind_eq_bind,
      Option.bind_some, reduceCtorEq, if_false]
    exact hd'
  · have hcreated : u ∈ (d.store.fireSlot sched now).runs ↔
        u ∈ d.store.runs ∨ sched.firedNow now = some u := by
      unfold Store.fireSlot
      cases sched.firedNow now with
      | none => simp
      | some slot => rw [Store.mem_runs_createRun, Option.some.injEq, eq_comm (a := u)]
    have htargets : sched.targets missed = missed := by simp [Schedule.targets, hpolicy]
    rw [hruns, hcreated, htargets, hmissed, Store.reference_fireSlot, or_assoc]
    refine or_congr_right (or_congr_right ⟨?_, ?_⟩)
    · rintro ⟨a, ha, ⟨hu, hlt, hle⟩, hcard⟩
      exact ⟨hu, hle, a, ha, hlt, hcard⟩
    · rintro ⟨hu, hle, a, ha, hlt, hcard⟩
      exact ⟨a, ha, ⟨hu, hlt, hle⟩, hcard⟩

/-- When a pass over a gap recovers it. The DAG replays every missed run, without an offset. The
pass returns; and it leaves a run for every occurrence of the gap that is within the deadline
exactly when each of them that has no run yet and is not the current slot comes after the start
of the catch-up, by at most `DAG_MAX_CATCHUP` occurrences. -/
theorem gap_recovered_iff {d : Firing} {sched : Schedule} (hz : sched.tz.toZone.WholeJumps)
    (hpolicy : sched.onMissed = .runAll) (hoffset : sched.catchupOffset ≤ 0) {stale now : ℤ}
    (hstale : d.nextLogical = some stale) (hgap : dagCatchupLimit ≤ now - stale) :
    ∃ d', d.fireForward sched now = some d' ∧
      ((∀ u, InGap sched stale now u → u ∈ d'.store.runs) ↔
        ∀ u, InGap sched stale now u → u ∉ d.store.runs → sched.firedNow now ≠ some u →
          ∃ a, d.store.lookBack sched now = some a ∧ a < u ∧
            (sched.between a u).encard ≤ dagMaxCatchup) := by
  obtain ⟨d', hpass, hmem⟩ := mem_runs_fireForward hz hpolicy hoffset hstale hgap
  refine ⟨d', hpass, ?_⟩
  constructor
  · intro hall u hu hnew hslot
    rcases (hmem u).mp (hall u hu) with hold | hfired | ⟨-, -, hfound⟩
    · exact absurd hold hnew
    · exact absurd hfired hslot
    · exact hfound
  · intro hcond u hu
    refine (hmem u).mpr ?_
    by_cases hnew : u ∈ d.store.runs
    · exact .inl hnew
    · by_cases hslot : sched.firedNow now = some u
      · exact .inr (.inl hslot)
      · exact .inr (.inr ⟨hu.occurs, hu.past, hcond u hu hnew hslot⟩)

/-! ## An hour of minutes -/

/-- Every minute of the first hour of 2024. -/
def firstHour : CronTab :=
  { newYear with
    seconds := newYear.minutes
    minutes := ⟨(List.range 60).map Int.ofNat, by decide +kernel, by decide +kernel⟩
    years := some ⟨[2024], by decide, by decide⟩
    seconds_ne := newYear.minutes_ne
    minutes_ne := by decide +kernel }

/-- It in UTC, every missed run replayed. -/
def firstHourDag : Schedule :=
  { tab := some firstHour, tz := .timezone 0 (by decide), onMissed := .runAll }

/-- The minute `k` of 2024. -/
def minuteOf (k : ℕ) : ℤ := datetime 2024 1 1 0 0 0 + k * minute

private lemma minuteOf_lt_iff {i k : ℕ} : minuteOf i < minuteOf k ↔ i < k := by
  simp only [minuteOf, units.2.1]
  omega

lemma firstHourDag_wholeJumps : firstHourDag.tz.toZone.WholeJumps :=
  Zone.wholeJumps_fixed

/-- There are sixty occurrences. -/
lemma firstHourDag_occurrences {u : ℤ} (h : u ∈ firstHourDag.occurrences) :
    ∃ k < 60, u = minuteOf k := by
  obtain ⟨tab, htab, c, ⟨hwhole, -, htest⟩, rfl⟩ := h
  cases htab
  have hplain : firstHour.daysPlain = true := by decide +kernel
  simp only [CronTab.test, CronTab.dayTest, hplain, if_true, Bool.and_eq_true,
    contains_iff_mem] at htest
  obtain ⟨⟨⟨⟨⟨hminute, hhour⟩, hsecond⟩, hmonth⟩, hyear⟩, hday, -⟩ := htest
  obtain ⟨k, hk, hminute⟩ := mem_map.mp hminute
  refine ⟨k, mem_range.mp hk, ?_⟩
  have hfields := datetime_fields hwhole
  have hyear : getYear c = 2024 := by simpa [firstHour] using hyear
  rw [← hminute, mem_singleton.mp hhour, mem_singleton.mp hsecond,
    mem_singleton.mp hmonth, mem_singleton.mp hday, hyear] at hfields
  rw [show firstHourDag.tz.toZone.resolve c = c - 0 from Zone.resolve_fixed c, ← hfields]
  simp [minuteOf, datetime]

lemma firstHourDag_between (a u : ℤ) : (firstHourDag.between a u).encard ≤ dagMaxCatchup := by
  have hsub : firstHourDag.between a u ⊆ ↑((Finset.range 60).image minuteOf) := by
    rintro v ⟨hv, -⟩
    obtain ⟨k, hk, rfl⟩ := firstHourDag_occurrences hv
    exact Finset.mem_coe.mpr (Finset.mem_image_of_mem _ (Finset.mem_range.mpr hk))
  calc (firstHourDag.between a u).encard
      ≤ (((Finset.range 60).image minuteOf : Finset ℤ) : Set ℤ).encard := Set.encard_le_encard hsub
    _ = ((Finset.range 60).image minuteOf).card := Set.encard_coe_eq_coe_finsetCard _
    _ ≤ dagMaxCatchup := by exact_mod_cast Finset.card_image_le.trans (by decide)

/-- The DAG was last fired at the minute before `k`. -/
def firedUpTo (k : ℕ) : Firing :=
  { store := { runs := (List.range k).map minuteOf }, nextLogical := some (minuteOf k) }

private lemma minuteOf_inGap {i k j : ℕ} (hik : i ≤ k) (hkj : k ≤ j)
    (hoccurs : minuteOf k ∈ firstHourDag.occurrences) :
    InGap firstHourDag (minuteOf i) (minuteOf j) (minuteOf k) := by
  refine ⟨hoccurs, not_lt.mp ?_, not_lt.mp ?_, fun d hd => nomatch hd⟩
  · rwa [minuteOf_lt_iff, not_lt]
  · rwa [minuteOf_lt_iff, not_lt]

/-- The DAG stalls from minute 58 to minute 61, which does not match, and gets all of its runs. -/
theorem gap_recovered_iff_firstHour :
    ∃ d', (firedUpTo 58).fireForward firstHourDag (minuteOf 61) = some d' ∧
      (∃ u, InGap firstHourDag (minuteOf 58) (minuteOf 61) u) ∧
      ∀ u, InGap firstHourDag (minuteOf 58) (minuteOf 61) u → u ∈ d'.store.runs := by
  have hstale : (firedUpTo 58).nextLogical = some (minuteOf 58) := rfl
  have hgap : dagCatchupLimit ≤ minuteOf 61 - minuteOf 58 := by decide +kernel
  obtain ⟨d', hpass, hiff⟩ := gap_recovered_iff firstHourDag_wholeJumps rfl le_rfl hstale hgap
  have hoccurs : minuteOf 58 ∈ firstHourDag.occurrences :=
    ⟨firstHour, rfl, minuteOf 58, by decide +kernel, by decide +kernel⟩
  refine ⟨d', hpass, ⟨_, minuteOf_inGap le_rfl (by decide) hoccurs⟩, hiff.mpr fun u hu _ _ => ?_⟩
  exact ⟨minuteOf 57, by decide +kernel, (minuteOf_lt_iff.mpr (by decide)).trans_le hu.since,
    firstHourDag_between _ _⟩

/-- The DAG stalls from minute 2 to minute 5. All earlier occurrences have their runs, and there are
no more than a catch-up may replay; but minute 5 matches, and the run of minute 3 is never made. -/
theorem gap_lost :
    (∀ u ∈ firstHourDag.occurrences, u < minuteOf 2 → u ∈ (firedUpTo 2).store.runs) ∧
    {u | u ∈ firstHourDag.occurrences ∧ minuteOf 2 ≤ u ∧ u ≤ minuteOf 5}.encard ≤ dagMaxCatchup ∧
    dagCatchupLimit ≤ minuteOf 5 - minuteOf 2 ∧
    InGap firstHourDag (minuteOf 2) (minuteOf 5) (minuteOf 3) ∧
    ∃ d', (firedUpTo 2).fireForward firstHourDag (minuteOf 5) = some d' ∧
      minuteOf 3 ∉ d'.store.runs := by
  have hstale : (firedUpTo 2).nextLogical = some (minuteOf 2) := rfl
  have hgap : dagCatchupLimit ≤ minuteOf 5 - minuteOf 2 := by decide +kernel
  have hoccurs : minuteOf 3 ∈ firstHourDag.occurrences :=
    ⟨firstHour, rfl, minuteOf 3, by decide +kernel, by decide +kernel⟩
  refine ⟨?_, ?_, hgap, minuteOf_inGap (by decide) (by decide) hoccurs, ?_⟩
  · intro u hu hlt
    obtain ⟨k, -, rfl⟩ := firstHourDag_occurrences hu
    exact mem_map_of_mem (mem_range.mpr (minuteOf_lt_iff.mp hlt))
  · refine (Set.encard_le_encard ?_).trans (firstHourDag_between (minuteOf 1) (minuteOf 5))
    rintro u ⟨hu, hlo, hhi⟩
    exact ⟨hu, (minuteOf_lt_iff.mpr (by decide)).trans_le hlo, hhi⟩
  · obtain ⟨d', hpass, hmem⟩ :=
      mem_runs_fireForward firstHourDag_wholeJumps rfl le_rfl hstale hgap
    refine ⟨d', hpass, fun hrun => ?_⟩
    have hslot : firstHourDag.firedNow (minuteOf 5) = some (minuteOf 5) := by decide +kernel
    have hlook : (firedUpTo 2).store.lookBack firstHourDag (minuteOf 5) = some (minuteOf 5) := by
      decide +kernel
    rcases (hmem _).mp hrun with hold | hfired | ⟨-, -, a, ha, hlt, -⟩
    · revert hold
      decide +kernel
    · rw [hslot] at hfired
      revert hfired
      decide +kernel
    · -- the catch-up starts at the slot that was just fired
      obtain rfl := Option.mem_unique hlook ha
      revert hlt
      decide +kernel

end Cronstable.Dag.CatchUp

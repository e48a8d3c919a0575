import Cronstable.Dag.CatchUp

/-!
# One run for all that was missed

Under `run-once` a catch-up is to replay the latest occurrence that was missed. `_catch_up` takes it
from the end of the list its walk collected, and the walk stops after `DAG_MAX_CATCHUP`
occurrences. Behind a longer gap the run is therefore made for an occurrence in the middle of it
(`runOnce_truncated`).

## Main results

* `mem_runs_runOnce`: the runs a catch-up leaves under `run-once`;
* `runOnce_iff`: when the run it makes is the latest that was missed.
-/

namespace Cronstable.Dag.CatchUp

open Calendar CronExpr Schedule Finset Store

/-- The occurrence that a walk from `a` ends with. -/
def Schedule.IsTarget (sched : Schedule) (now a u : ℤ) : Prop :=
  IsGreatest {v | v ∈ sched.between a now ∧ (sched.between a v).encard ≤ dagMaxCatchup} u

/-- What a catch-up is to do under `run-once`: it makes at most one run, the latest occurrence after
the watermark `w` that is within the deadline gets its run, and when there is none no run is
made. -/
structure RunOnce (sched : Schedule) (now w : ℤ) (st st' : Store) : Prop where
  single : ∃ u, ∀ v ∈ st'.runs, v ∈ st.runs ∨ v = u
  latest : ∀ u, IsGreatest (sched.between (sched.cutoff now w) now) u → u ∈ st'.runs
  idle : sched.between (sched.cutoff now w) now = ∅ → ∀ v ∈ st'.runs, v ∈ st.runs

variable (d : Firing) (sched : Schedule) (now : ℤ)

/-- The runs that a catch-up without an offset leaves under `run-once`. -/
theorem mem_runs_runOnce (hz : sched.tz.toZone.WholeJumps) (hpolicy : sched.onMissed = .runOnce)
    (hoffset : sched.catchupOffset ≤ 0) :
    ∃ d', d.catchUp sched now = some d' ∧ ∀ u, u ∈ d'.store.runs ↔ u ∈ d.store.runs ∨
      ∃ a, d.store.reference.map (sched.cutoff now) = some a ∧ sched.IsTarget now a u := by
  obtain ⟨d', missed, hcatch, hsorted, hmem, hruns⟩ := mem_runs_catchUp hz hoffset now
  refine ⟨d', hcatch, fun u => (hruns u).trans (or_congr_right ?_)⟩
  by_cases hne : missed = []
  · subst hne
    refine iff_of_false (by simp [targets]) ?_
    rintro ⟨a, ha, htarget, -⟩
    exact List.not_mem_nil ((hmem u).mpr ⟨a, ha, htarget⟩)
  · have htargets : sched.targets missed = [missed.getLast hne] := by
      simp [targets, hpolicy, List.getLast?_eq_some_getLast hne]
    obtain ⟨hlast, hmax⟩ := isGreatest_getLast hsorted.sortedLT hne
    obtain ⟨a, ha, htarget⟩ := (hmem _).mp hlast
    have hgreatest : sched.IsTarget now a (missed.getLast hne) :=
      ⟨htarget, fun v hv => hmax ((hmem v).mpr ⟨a, ha, hv⟩)⟩
    rw [htargets, List.mem_singleton]
    constructor
    · rintro rfl
      exact ⟨a, ha, hgreatest⟩
    · rintro ⟨a', ha', hu⟩
      cases ha.symm.trans ha'
      exact hu.unique hgreatest

/-! ## When the latest one is replayed -/

section Reference

variable {sched now} {w : ℤ}

/-- An open cycle can only move the start of the walk back. -/
theorem Store.exists_reference {st : Store} (hw : st.durableWatermark = some w) :
    ∃ ref ≤ w, st.reference = some ref := by
  unfold reference
  rw [hw]
  split
  next pending _ =>
    simp only [Option.all_some, decide_eq_true_eq]
    split_ifs with hlt
    · exact ⟨pending, hlt.le, rfl⟩
    · exact ⟨w, le_rfl, rfl⟩
  next => exact ⟨w, le_rfl, rfl⟩

lemma Schedule.le_cutoff (sched : Schedule) (now w : ℤ) : w ≤ sched.cutoff now w := by
  unfold cutoff
  split
  · exact le_rfl
  · split_ifs <;> omega

/-- From wherever one starts, the occurrences up to now end with the latest one behind the
watermark. -/
private lemma between_latest {a u : ℤ} (ha : a ≤ sched.cutoff now w)
    (hu : IsGreatest (sched.between (sched.cutoff now w) now) u) :
    sched.between a now = sched.between a u ∧ u ∈ sched.between a now := by
  obtain ⟨⟨hocc, hlt, hle⟩, hmax⟩ := hu
  refine ⟨Set.ext fun v => ⟨fun hv => ⟨hv.1, hv.2.1, ?_⟩, fun hv => ⟨hv.1, hv.2.1, ?_⟩⟩,
    hocc, ha.trans_lt hlt, hle⟩
  · by_contra hlater
    exact hlater (hmax ⟨hv.1, hlt.trans (not_le.mp hlater), hv.2.2⟩)
  · exact hv.2.2.trans hle

/-- When a catch-up under `run-once` without an offset replays the latest missed occurrence. It
returns. From the start `a` of its walk there are at most `DAG_MAX_CATCHUP` occurrences, if any
comes after the watermark `w` of the documents; and if none does, what an open cycle makes it
replay has its run already. -/
theorem runOnce_iff (d : Firing) (sched : Schedule) (now : ℤ) (hz : sched.tz.toZone.WholeJumps)
    (hpolicy : sched.onMissed = .runOnce) (hoffset : sched.catchupOffset ≤ 0)
    (hw : d.store.durableWatermark = some w) :
    ∃ d' a, d.catchUp sched now = some d' ∧
      d.store.reference.map (sched.cutoff now) = some a ∧
      (RunOnce sched now w d.store d'.store ↔
        ((sched.between (sched.cutoff now w) now).Nonempty →
          (sched.between a now).encard ≤ dagMaxCatchup) ∧
        (sched.between (sched.cutoff now w) now = ∅ →
          ∀ u, sched.IsTarget now a u → u ∈ d.store.runs)) := by
  obtain ⟨d', hcatch, hmem⟩ := mem_runs_runOnce d sched now hz hpolicy hoffset
  obtain ⟨ref, hle, href⟩ := exists_reference hw
  have ha : sched.cutoff now ref ≤ sched.cutoff now w := by
    unfold cutoff
    split
    · exact hle
    · split_ifs <;> omega
  refine ⟨d', sched.cutoff now ref, hcatch, by rw [href]; rfl, ?_⟩
  simp only [href, Option.map_some, Option.some.injEq, exists_eq_left'] at hmem
  generalize sched.cutoff now ref = a at *
  constructor
  · intro h
    refine ⟨fun hsome => ?_, fun hnone u hu => h.idle hnone u ((hmem u).mpr (.inr hu))⟩
    obtain ⟨u, hu, hmax⟩ := Int.exists_greatest_of_bdd
      ⟨now, fun v (hv : v ∈ sched.between (sched.cutoff now w) now) => hv.2.2⟩ hsome
    have hgreatest : IsGreatest (sched.between (sched.cutoff now w) now) u := ⟨hu, hmax⟩
    rcases (hmem u).mp (h.latest u hgreatest) with hold | htarget
    · -- the runs end at the watermark
      rw [durableWatermark_eq] at hw
      have := (List.max?_eq_some_iff.mp hw).2 u (List.mem_append_left _ hold)
      have := sched.le_cutoff now w
      have := hu.2.1
      omega
    · rw [(between_latest ha hgreatest).1]
      exact htarget.1.2
  · rintro ⟨hfew, hidle⟩
    refine ⟨?_, fun u hu => ?_, fun hnone v hv => ?_⟩
    · by_cases htarget : ∃ u, sched.IsTarget now a u
      · obtain ⟨u, hu⟩ := htarget
        exact ⟨u, fun v hv => ((hmem v).mp hv).imp_right fun hv => hv.unique hu⟩
      · exact ⟨0, fun v hv => .inl (((hmem v).mp hv).resolve_right fun hv => htarget ⟨v, hv⟩)⟩
    · obtain ⟨heq, hin⟩ := between_latest ha hu
      refine (hmem u).mpr (.inr ⟨⟨hin, heq ▸ hfew ⟨u, hu.1⟩⟩, fun v hv => ?_⟩)
      exact (heq ▸ hv.1 : v ∈ sched.between a u).2.2
    · exact ((hmem v).mp hv).elim id (hidle hnone v)

end Reference

/-! ## Two minutes of seconds -/

/-- The DAG of the first hour, with one run for all that was missed. -/
def firstHourOnce : Schedule := { firstHourDag with onMissed := .runOnce }

/-- After minute 57 the run of minute 59 is made at minute 61. -/
theorem runOnce_iff_firstHour :
    ∃ d', (firedUpTo 58).catchUp firstHourOnce (minuteOf 61) = some d' ∧
      RunOnce firstHourOnce (minuteOf 61) (minuteOf 57) (firedUpTo 58).store d'.store := by
  obtain ⟨d', a, hcatch, ha, hiff⟩ := runOnce_iff (firedUpTo 58) firstHourOnce (minuteOf 61)
    (w := minuteOf 57) firstHourDag_wholeJumps rfl le_rfl (by decide +kernel)
  refine ⟨d', hcatch, hiff.mpr ⟨fun _ => firstHourDag_between a _, fun hnone u hu => ?_⟩⟩
  have hoccurs : minuteOf 58 ∈ firstHourOnce.occurrences :=
    ⟨firstHour, rfl, minuteOf 58, by decide +kernel, by decide +kernel⟩
  have hin : minuteOf 58 ∈ firstHourOnce.between (firstHourOnce.cutoff (minuteOf 61) (minuteOf 57))
      (minuteOf 61) := ⟨hoccurs, by decide +kernel, by decide +kernel⟩
  rw [hnone] at hin
  exact hin.elim

/-- Every second of the first two minutes of 2024, with one run for all that was missed. -/
def secondsOnce : Schedule :=
  { firstHourOnce with
    tab := some { firstHour with
      seconds := firstHour.minutes
      minutes := newYear.seconds
      seconds_ne := firstHour.minutes_ne
      minutes_ne := newYear.seconds_ne }
    hasSeconds := true }

/-- The second `k` of 2024. -/
def secondOf (k : ℕ) : ℤ := datetime 2024 1 1 0 0 0 + k * second

/-- Nothing ran since the last second of 2023. When the DAG catches up at 00:01:59, the latest
occurrence it missed, the run it makes is another one. -/
theorem runOnce_truncated :
    let d : Firing := { store := { others := [some (secondOf 0 - second)] } }
    d.store.durableWatermark = some (secondOf 0 - second) ∧
      ∃ d', d.catchUp secondsOnce (secondOf 119) = some d' ∧
        ¬ RunOnce secondsOnce (secondOf 119) (secondOf 0 - second) d.store d'.store := by
  intro d
  obtain ⟨d', hcatch, hmem⟩ := mem_runs_runOnce d secondsOnce (secondOf 119)
    Zone.wholeJumps_fixed rfl le_rfl
  refine ⟨by decide +kernel, d', hcatch, fun honce => ?_⟩
  have hmatches : ∀ k ∈ range 120, secondOf k ∈ secondsOnce.between (secondOf 0 - second)
      (secondOf 119) := by
    intro k hk
    have hk := mem_range.mp hk
    have hall : ∀ k ∈ List.range 120, ∀ tab ∈ secondsOnce.tab, tab.Matches (secondOf k) := by
      decide +kernel
    refine ⟨⟨_, rfl, secondOf k, hall k (List.mem_range.mpr hk) _ rfl, ?_⟩, ?_, ?_⟩
    · exact (Zone.resolve_fixed _).trans (sub_zero _)
    all_goals
      simp only [secondOf, units]
      omega
  -- the latest one is the 120th
  have hlatest : secondOf 119 ∈ d'.store.runs := by
    refine honce.latest _ ⟨?_, fun v hv => hv.2.2⟩
    exact ⟨(hmatches 119 (by decide)).1, by decide +kernel, le_rfl⟩
  rcases (hmem _).mp hlatest with hold | ⟨a, ha, htarget⟩
  · cases hold
  · have hstart : d.store.reference.map (secondsOnce.cutoff (secondOf 119)) =
        some (secondOf 0 - second) := by decide +kernel
    obtain rfl := Option.mem_unique hstart ha
    have hcard : (120 : ℕ∞) ≤
        (secondsOnce.between (secondOf 0 - second) (secondOf 119)).encard := by
      have hinj : Set.InjOn secondOf (range 120) := fun i _ j _ h => by
        simp only [secondOf, units] at h
        omega
      calc (120 : ℕ∞) = ((range 120).image secondOf).card := by
            rw [card_image_of_injOn hinj]
            rfl
        _ = (((range 120).image secondOf : Finset ℤ) : Set ℤ).encard :=
            (Set.encard_coe_eq_coe_finsetCard _).symm
        _ ≤ _ := Set.encard_le_encard fun v hv => by
            obtain ⟨k, hk, rfl⟩ := mem_image.mp (mem_coe.mp hv)
            exact hmatches k hk
    have := hcard.trans htarget.1.2
    revert this
    decide

end Cronstable.Dag.CatchUp

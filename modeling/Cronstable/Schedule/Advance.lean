import Cronstable.Dag.CatchUp
import Cronstable.Lib.Trace
import Mathlib.Data.Int.Interval

/-!
# Advancing a job

When the fire of a job has come, `_advance` answers what is launched and the next fire. It walks the
schedule up to now, so a slow pass drops nothing: over a run of passes the job is launched for each
of its occurrences once (`launched_exactly_once`).
-/

namespace Cronstable.Schedule

open List Calendar CronExpr Dag.CatchUp

/-- `CATCHUP_LIMIT`. -/
def catchupLimit : ℤ := 10 * second

/-- `_advance`: the slots that are launched, and the next fire. The outer `none` is a search that
never returns. The window that a late advance queues for `onMissed` is not modelled. -/
def advance (sched : Schedule) (slot now : ℤ) : Option (List ℤ × Option ℤ) :=
  if catchupLimit ≤ now - slot then do
    let nxt ← sched.nextFire now
    some ((sched.firedNow now).toList, nxt)
  else do
    let nxt ← sched.nextFire slot
    -- the loop collects as that of `_catch_up` does; slots are microseconds, which bounds them
    let rest ← sched.missed now (now - slot).toNat nxt
    -- and ends with the next fire of the last slot
    let nxt ← sched.nextFire ((slot :: rest).getLast (cons_ne_nil slot rest))
    some (slot :: rest, nxt)

/-- The fires are the occurrences after `start` up to now, and `nxt` is the first one after it. -/
def Covers (sched : Schedule) (start now : ℤ) (fires : List ℤ) (nxt : Option ℤ) : Prop :=
  First {u | u ∈ sched.occurrences ∧ now < u} nxt ∧ fires.Pairwise (· < ·) ∧
    ∀ u, u ∈ fires ↔ u ∈ sched.occurrences ∧ start < u ∧ u ≤ now

variable {sched : Schedule}

/-- An advance on time covers the time since the last one. -/
private lemma advance_covers (hz : sched.tz.toZone.WholeJumps) {start now slot : ℤ}
    (hslot : IsLeast {u | u ∈ sched.occurrences ∧ start < u} slot) (hle : slot ≤ now)
    (htime : now - slot < catchupLimit) :
    ∃ fires nxt, advance sched slot now = some (fires, nxt) ∧
      Covers sched start now fires nxt := by
  obtain ⟨nxt, hnxt, hfirst⟩ := Schedule.first_nextFire hz slot
  obtain ⟨rest, hrest, hsorted, hmem⟩ := Schedule.mem_missed hz now (now - slot).toNat hfirst
  have hfires : ∀ u, u ∈ slot :: rest ↔ u ∈ sched.occurrences ∧ start < u ∧ u ≤ now := by
    intro u
    have hcard : u ≤ now → (sched.between slot u).encard ≤ (now - slot).toNat := fun hun => by
      rw [← Int.card_Ioc, ← Set.encard_coe_eq_coe_finsetCard, Finset.coe_Ioc]
      exact Set.encard_le_encard fun v hv => ⟨hv.2.1, hv.2.2.trans hun⟩
    have hinsert := Set.ext_iff.mp (First.after_eq_insert (q := (· ≤ now)) hslot hle) u
    rw [mem_cons, hmem]
    exact (or_congr_right (and_congr_right' (and_congr_right'
      (and_iff_left_of_imp hcard)))).trans hinsert.symm
  have hsorted : (slot :: rest).Pairwise (· < ·) := .cons (fun u hu => ((hmem u).mp hu).2.1) hsorted
  have hlast := isGreatest_getLast hsorted.sortedLT (cons_ne_nil slot rest)
  obtain ⟨nxt', hnxt', hfirst'⟩ := Schedule.first_nextFire hz ((slot :: rest).getLast (by simp))
  refine ⟨slot :: rest, nxt', ?_, hfirst'.congr fun u => and_congr_right fun hu => ?_, hsorted,
    hfires⟩
  · rw [advance, if_neg (not_le.mpr htime)]
    simp [hnxt, hrest, hnxt']
  · -- what is not after now was collected
    have hnow := ((hfires _).mp hlast.1).2
    refine ⟨fun hlt => not_le.mp fun hun => ?_, hnow.2.trans_lt⟩
    exact not_le.mpr hlt (hlast.2 ((hfires u).mpr ⟨hu, hnow.1.trans hlt, hun⟩))

/-- A pass, given by its instant and what it launches, advances a fire on time. -/
def Advanced (sched : Schedule) (nxt : Option ℤ) (pass : ℤ × List ℤ) (nxt' : Option ℤ) : Prop :=
  ∃ fire ∈ nxt, fire ≤ pass.1 ∧ pass.1 - fire < catchupLimit ∧
    advance sched fire pass.1 = some (pass.2, nxt')

/-- A job that is seeded and then advanced by passes, none of which is late by `CATCHUP_LIMIT`, is
launched for every occurrence up to the last pass, each once and in order, and for nothing else. Its
next fire is the first occurrence after that, and the next pass returns. -/
theorem launched_exactly_once (hz : sched.tz.toZone.WholeJumps) {start : ℤ} {seed nxt : Option ℤ}
    (hseed : sched.nextFire start = some seed) {passes : List (ℤ × List ℤ)}
    (hrun : Trace.Run (Advanced sched) seed passes nxt) :
    Covers sched start ((passes.map Prod.fst).getLastD start) (passes.flatMap Prod.snd) nxt ∧
      ∀ fire ∈ nxt, ∀ now ≥ fire, now - fire < catchupLimit →
        ∃ fires nxt', Advanced sched nxt (now, fires) nxt' := by
  obtain ⟨_, hseed', hfirst⟩ := Schedule.first_nextFire hz start
  cases hseed.symm.trans hseed'
  obtain ⟨-, hcovers⟩ := hrun.history (P := fun nxt done =>
    start ≤ (done.map Prod.fst).getLastD start ∧
      Covers sched start ((done.map Prod.fst).getLastD start) (done.flatMap Prod.snd) nxt)
    ⟨le_rfl, hfirst, .nil, by simp⟩ (by
      rintro _ done ⟨now, fires⟩ nxt' - ⟨hstart, hfirst, hsorted, hmem⟩
        ⟨fire, rfl, hle, htime, hadvance⟩
      rw [map_append, map_singleton, getLastD_concat, flatMap_append, flatMap_singleton]
      generalize (done.map Prod.fst).getLastD start = before at *
      obtain ⟨_, _, hadvance', hnext, hsorted', hmem'⟩ := advance_covers hz hfirst hle htime
      cases hadvance.symm.trans hadvance'
      have : before < fire := hfirst.1.2
      refine ⟨by omega, hnext, pairwise_append.mpr ⟨hsorted, hsorted', fun u hu v hv => ?_⟩,
        fun u => ?_⟩
      · exact ((hmem u).mp hu).2.2.trans_lt ((hmem' v).mp hv).2.1
      · rw [mem_append, hmem, hmem', ← and_or_left, and_congr_right_iff]
        omega)
  refine ⟨hcovers, ?_⟩
  rintro fire rfl now hle htime
  obtain ⟨fires, nxt', hadvance, -⟩ := advance_covers hz hcovers.1 hle htime
  exact ⟨fires, nxt', fire, rfl, hle, htime, hadvance⟩

/-- A schedule of one hour, advanced once. -/
theorem launched_exactly_once_firstHour :
    ∃ seed fire fires nxt, firstHourDag.nextFire (minuteOf 57) = some seed ∧
      Trace.Run (Advanced firstHourDag) seed [(fire, fires)] nxt ∧
      Covers firstHourDag (minuteOf 57) fire fires nxt := by
  have hz := firstHourDag_wholeJumps
  obtain ⟨seed, hseed, hfirst⟩ := Schedule.first_nextFire hz (minuteOf 57)
  cases seed with
  | none =>
    have hoccurs : minuteOf 58 ∈ firstHourDag.occurrences :=
      ⟨firstHour, rfl, minuteOf 58, by decide +kernel, by decide +kernel⟩
    exact absurd ⟨hoccurs, by decide +kernel⟩ (First.none_iff.mp hfirst (minuteOf 58))
  | some fire =>
    obtain ⟨fires, nxt, hpass⟩ := (launched_exactly_once hz hseed (.nil _)).2 fire rfl fire le_rfl
      (by rw [sub_self]; decide +kernel)
    exact ⟨_, fire, fires, nxt, hseed, .single hpass,
      by simpa using (launched_exactly_once hz hseed (.single hpass)).1⟩

end Cronstable.Schedule

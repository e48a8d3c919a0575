import Cronstable.CronExpr.Aware
import Cronstable.Lib.Generator

/-!
# Occurrence iteration

`CronTab.occurrences` is a generator. A naive start and a fixed `datetime.timezone` walk the civil
labels. In any other zone the generator resolves the labels directly as long as their order is that
of the instants, and goes through `nextInstant` around a spring-forward (`AwareWalk.careful`).

## Main results

* `first_resume`: each resumption of the aware walk yields the next scheduled instant;
* `nextInstant_occurrences`: the aware search and the iteration both agree with the set of
  scheduled instants.
-/

namespace Cronstable.CronExpr

open Calendar Zone

/-- The zone of an aware date-time as the engine tells them apart: a fixed `datetime.timezone`, or
any other `tzinfo`. -/
inductive TzInfo
  | timezone (offset : ℤ) (bound : -day < offset ∧ offset < day)
  | zone (z : Zone)

/-- The offsets of a zone. -/
def TzInfo.toZone : TzInfo → Zone
  | timezone offset bound => .fixed offset bound
  | zone z => z

/-- The suspended state of the aware walk. -/
structure AwareWalk where
  civil : ℤ
  last : Aware
  lastUtc : ℤ
  /-- Shifted matches can be pending. -/
  careful : Bool

namespace CronTab

variable (tab : CronTab)

section Generator

variable (z : Zone)

/-- The walk over civil labels; the labels are yielded with fold 0. -/
def resumeCivil (civil : ℤ) : Option (Option (Aware × ℤ)) :=
  some ((tab.nextCivil civil).map fun target => (⟨target, false⟩, target))

/-- The aware walk up to its next yield. -/
def resume (w : AwareWalk) : Option (Option (Aware × AwareWalk)) :=
  if _hcareful : w.careful then
    match tab.nextInstant z w.last w.lastUtc with
    | none => none
    | some none => some none
    | some (some instant) =>
      let last := z.astimezone instant
      let civil := last.civil
      some (some (last, ⟨civil, last, instant, decide (gapRewoundSeed z last instant ≠ civil)⟩))
  else
    match _hnext : tab.nextCivil w.civil with
    | none => some none
    | some target =>
      let resolvedUtc := z.resolve target
      let resolved := z.astimezone resolvedUtc
      let resolvedCivil := resolved.civil
      if resolvedUtc ≤ w.lastUtc then
        -- passed already, for example in a repeated hour
        resume { w with civil := max target resolvedCivil }
      else if resolvedCivil ≠ target then
        resume { w with careful := true }
      else
        some (some (resolved, ⟨resolvedCivil, resolved, resolvedUtc, w.careful⟩))
termination_by ((pastHorizon - w.civil).toNat, if w.careful then 0 else 1)
decreasing_by
  · have := tab.nextCivil_bounds _hnext
    apply Prod.Lex.left
    omega
  · apply Prod.Lex.right
    simp [_hcareful]

/-- The state in which the aware walk starts. -/
def startWalk (start : Aware) : AwareWalk :=
  let civil := start.civil
  let lastUtc := z.instant start
  ⟨civil, start, lastUtc, decide (gapRewoundSeed z start lastUtc ≠ civil)⟩

end Generator

/-- `occurrences`: what the generator yields from a start until it returns. -/
def occurrences (tz : Option TzInfo) (start : Aware) : List Aware → Prop :=
  match tz with
  | none | some (.timezone _ _) => Yields tab.resumeCivil start.civil
  | some (.zone z) => Yields (tab.resume z) (startWalk z start)

/-! ## The aware walk -/

variable {z : Zone}

/-- What a suspended aware walk has behind it. -/
structure Walked (z : Zone) (w : AwareWalk) : Prop where
  instant : z.instant w.last = w.lastUtc
  settled : w.careful = false → Settled z tab.Matches w.civil w.lastUtc

/-- A walk that stands at an aware date-time and has looked for pending matches there. -/
theorem walked_at {last : Aware} {n : ℤ} (h : z.instant last = n) :
    tab.Walked z ⟨last.civil, last, n, decide (gapRewoundSeed z last n ≠ last.civil)⟩ := by
  refine ⟨h, fun hcareful => ?_⟩
  have hseed : gapRewoundSeed z last n = last.civil := by simpa using hcareful
  subst h
  have := Settled.of_seed (z := z) last tab.Matches
  rwa [hseed] at this

/-- Each resumption yields the next scheduled instant. -/
theorem first_resume (hz : z.WholeJumps) (w : AwareWalk) (h : tab.Walked z w) :
    ∃ r, tab.resume z w = some r ∧
      First {u | u ∈ tab.fires z ∧ w.lastUtc < u} (r.map fun p => z.instant p.1) ∧
      ∀ p ∈ r, tab.Walked z p.2 ∧ p.2.lastUtc = z.instant p.1 := by
  fun_induction tab.resume z w with
  | case1 w hcareful hnever =>
    obtain ⟨r, hr, -⟩ := tab.first_nextInstant hz w.last
    rw [h.instant, hnever] at hr
    cases hr
  | case2 w hcareful hnone =>
    obtain ⟨r, hr, hfirst⟩ := tab.first_nextInstant hz w.last
    rw [h.instant, hnone] at hr
    cases hr
    rw [h.instant] at hfirst
    exact ⟨none, rfl, hfirst, nofun⟩
  | case3 w hcareful instant hsome last civil =>
    obtain ⟨r, hr, hfirst⟩ := tab.first_nextInstant hz w.last
    rw [h.instant, hsome] at hr
    cases hr
    rw [h.instant] at hfirst
    have hinstant : z.instant last = instant := z.instant_astimezone instant
    refine ⟨_, rfl, ?_, ?_⟩
    · show First _ (some (z.instant last))
      rw [hinstant]
      exact hfirst
    · rintro _ ⟨⟩
      exact ⟨tab.walked_at hinstant, hinstant.symm⟩
  | case4 w hcareful hnone =>
    have hfirst := tab.first_nextCivil w.civil
    rw [hnone] at hfirst
    have hsettled := h.settled (by simpa using hcareful)
    refine ⟨none, rfl, First.none_iff.mpr ?_, nofun⟩
    rintro _ ⟨⟨c, hc, rfl⟩, hlt⟩
    refine First.none_iff.mp hfirst c ⟨hc, ?_⟩
    by_contra hle
    have := hsettled.past c hc (not_lt.mp hle)
    omega
  | case5 w hcareful target hnext resolvedUtc resolved resolvedCivil hpast ih =>
    have hfirst := tab.first_nextCivil w.civil
    rw [hnext] at hfirst
    exact ih ⟨h.instant, fun hc => (h.settled hc).skip hfirst hpast⟩
  | case6 w hcareful target hnext resolvedUtc resolved resolvedCivil hlater hskipped ih =>
    exact ih ⟨h.instant, fun hc => by cases hc⟩
  | case7 w hcareful target hnext resolvedUtc resolved resolvedCivil hlater hshown =>
    have hfirst := tab.first_nextCivil w.civil
    rw [hnext] at hfirst
    have hsettled := h.settled (by simpa using hcareful)
    have hlater : w.lastUtc < z.resolve target := not_le.mp hlater
    have hshown : z.label (z.resolve target) = target := not_not.mp hshown
    have hinstant : z.instant resolved = z.resolve target := z.instant_astimezone _
    refine ⟨_, rfl, ?_, ?_⟩
    · show IsLeast _ (z.instant resolved)
      rw [hinstant]
      refine ⟨⟨⟨target, hfirst.1.1, rfl⟩, hlater⟩, ?_⟩
      rintro _ ⟨⟨c, hc, rfl⟩, hlt⟩
      refine resolve_mono hshown (hfirst.2 ⟨hc, ?_⟩)
      by_contra hle
      have := hsettled.past c hc (not_lt.mp hle)
      omega
    · rintro _ ⟨⟩
      refine ⟨⟨hinstant, fun _ => ?_⟩, hinstant.symm⟩
      have hcivil : resolvedCivil = target := hshown
      rw [hcivil]
      exact hsettled.fire hfirst hlater hshown

/-- Scheduled instants end a day after the horizon. -/
theorem fires_le (z : Zone) : ∀ u ∈ tab.fires z, u ≤ pastHorizon + day := by
  rintro _ ⟨c, hc, rfl⟩
  have := Matches.lt_pastHorizon tab hc
  have := z.resolve_lt c
  omega

/-- The civil walk in a fixed zone yields the next scheduled instant. -/
theorem first_resumeCivil {offset : ℤ} {h : -day < offset ∧ offset < day} (civil : ℤ) :
    First {u | u ∈ tab.fires (.fixed offset h) ∧ civil - offset < u}
      (((tab.nextCivil civil).map fun target => ((⟨target, false⟩ : Aware), target)).map fun p =>
        (fixed offset h).instant p.1) := by
  have hmono : StrictMonoOn (fun c => c - offset) {c | tab.Matches c ∧ civil < c} :=
    fun a _ b _ hab => by
      show a - offset < b - offset
      omega
  rw [Option.map_map]
  have hfirst := (tab.first_nextCivil civil).map hmono
  refine Eq.mp (congrArg (First _) ?_) (hfirst.congr fun u => ?_)
  · exact congrArg (Option.map · _) (funext fun c => (instant_fixed ⟨c, false⟩).symm)
  · constructor
    · rintro ⟨c, ⟨hc, hlt⟩, rfl⟩
      exact ⟨⟨c, hc, resolve_fixed c⟩, by show civil - offset < c - offset; omega⟩
    · rintro ⟨⟨c, hc, rfl⟩, hlt⟩
      rw [resolve_fixed] at hlt ⊢
      exact ⟨c, ⟨hc, by omega⟩, rfl⟩

/-- The aware search and the iteration agree with the scheduled instants, in every zone whose jumps
are whole seconds: `nextInstant` returns the least one after `now`, and `occurrences` yields exactly
those after `now`, in strictly increasing order, and returns. -/
theorem nextInstant_occurrences (tz : TzInfo) (hz : tz.toZone.WholeJumps) (now : Aware) :
    (∃ r, tab.nextInstant tz.toZone now (tz.toZone.instant now) = some r ∧
      First {u | u ∈ tab.fires tz.toZone ∧ tz.toZone.instant now < u} r) ∧
    ∃ l, tab.occurrences (some tz) now l ∧ (l.map tz.toZone.instant).SortedLT ∧
      ∀ u, u ∈ l.map tz.toZone.instant ↔
        u ∈ tab.fires tz.toZone ∧ tz.toZone.instant now < u := by
  refine ⟨tab.first_nextInstant hz now, ?_⟩
  cases tz with
  | timezone offset bound =>
    have hnow : (TzInfo.timezone offset bound).toZone.instant now = now.civil - offset :=
      instant_fixed now
    rw [hnow]
    -- the walk stands at the instant of its label
    refine exists_yields_of_first _ (fun civil => civil - offset) (fun _ => True)
      (tab.fires_le _) (fun civil _ => ⟨_, rfl, tab.first_resumeCivil civil, ?_⟩) _ trivial
    intro p hp
    obtain ⟨target, -, rfl⟩ := Option.mem_map.mp hp
    exact ⟨trivial, (instant_fixed ⟨target, false⟩).symm⟩
  | zone z =>
    exact exists_yields_of_first _ AwareWalk.lastUtc (tab.Walked z) (tab.fires_le z)
      (tab.first_resume hz) _ (tab.walked_at rfl)

end CronTab

/-! ## A clock that springs forward at the start of 2024 -/

/-- The zone whose clock goes from offset 0 to `offset` at the start of 2024. -/
def newYearZone (offset : ℤ) (h : 0 ≤ offset ∧ offset < day) : Zone where
  off u := if u < datetime 2024 1 1 0 0 0 then 0 else offset
  bound u := by
    have := units
    split <;> omega
  spaced t t' ht ht' hlt := by
    split_ifs at ht ht' <;> omega
  jump t := by
    have := units
    split_ifs <;> omega

lemma wholeJumps_newYearZone {offset : ℤ} (h : 0 ≤ offset ∧ offset < day)
    (hwhole : second ∣ offset) : (newYearZone offset h).WholeJumps := by
  intro t _
  obtain ⟨k, rfl⟩ := hwhole
  simp only [newYearZone, units]
  split_ifs <;> omega

/-- The first two seconds of every year. -/
def newYear : CronTab where
  seconds := ⟨[0, 1], by decide, by decide⟩
  minutes := ⟨[0], by decide, by decide⟩
  hours := ⟨[0], by decide, by decide⟩
  dom := ⟨[1], by decide, by decide⟩
  domLastOffsets := ⟨[], by decide, by decide⟩
  domNearest := ⟨[], by decide, by decide⟩
  domLastWeekday := false
  months := ⟨[1], by decide, by decide⟩
  dow := ⟨[0, 1, 2, 3, 4, 5, 6], by decide, by decide⟩
  dowLast := ⟨[], by decide, by decide⟩
  dowNth := []
  years := none
  seconds_ne := by decide
  minutes_ne := by decide
  hours_ne := by decide
  months_ne := by decide

/-- With a jump of an hour the search and the iteration from the end of 2023. -/
theorem nextInstant_occurrences_newYear :
    let z := newYearZone hour (by decide)
    (∃ r, newYear.nextInstant z ⟨datetime 2023 12 31 23 59 59, false⟩
        (z.instant ⟨datetime 2023 12 31 23 59 59, false⟩) = some r ∧
      First {u | u ∈ newYear.fires z ∧ z.instant ⟨datetime 2023 12 31 23 59 59, false⟩ < u} r) ∧
    ∃ l, newYear.occurrences (some (.zone z)) ⟨datetime 2023 12 31 23 59 59, false⟩ l ∧
      (l.map z.instant).SortedLT ∧
      ∀ u, u ∈ l.map z.instant ↔
        u ∈ newYear.fires z ∧ z.instant ⟨datetime 2023 12 31 23 59 59, false⟩ < u :=
  newYear.nextInstant_occurrences (.zone (newYearZone hour (by decide)))
    (wholeJumps_newYearZone (by decide) (by decide)) ⟨datetime 2023 12 31 23 59 59, false⟩

/-- A match one second on is the next one. -/
private lemma nextCivil_succ {tab : CronTab} {c : ℤ} (hc : second ∣ c)
    (h : tab.Matches (c + second)) : tab.nextCivil c = some (c + second) := by
  refine (tab.first_nextCivil c).unique ⟨⟨h, ?_⟩, ?_⟩
  · have := units
    omega
  · rintro x ⟨⟨⟨k, rfl⟩, -⟩, hlt⟩
    obtain ⟨e, rfl⟩ := hc
    simp only [units] at hlt ⊢
    omega

/-- With a jump of two and a half seconds the search from the last second of 2023 never returns,
though an instant is scheduled: the binary search stays between the seconds 1 and 2.5 of the new
year. -/
theorem nextInstant_newYear_stutter :
    let z := newYearZone 2500000 (by decide)
    let now : Aware := ⟨datetime 2023 12 31 23 59 59, false⟩
    newYear.nextInstant z now (z.instant now) = none ∧
      ∃ u ∈ newYear.fires z, z.instant now < u := by
  have hnow : (newYearZone 2500000 (by decide)).instant ⟨datetime 2023 12 31 23 59 59, false⟩ =
      datetime 2023 12 31 23 59 59 := by decide +kernel
  refine ⟨?_, _, ⟨datetime 2024 1 1 0 0 0, by decide +kernel, rfl⟩, by decide +kernel⟩
  rw [hnow]
  have hseed : gapRewoundSeed (newYearZone 2500000 (by decide))
      ⟨datetime 2023 12 31 23 59 59, false⟩ (datetime 2023 12 31 23 59 59) =
      datetime 2023 12 31 23 59 59 := by decide +kernel
  have hfirst : newYear.nextCivil (datetime 2023 12 31 23 59 59) =
      some (datetime 2024 1 1 0 0 0) :=
    nextCivil_succ (by decide +kernel) (by decide +kernel)
  have hsecond : newYear.nextCivil (datetime 2024 1 1 0 0 0) = some (datetime 2024 1 1 0 0 1) :=
    nextCivil_succ (by decide +kernel) (by decide +kernel)
  have hpending : newYear.nextPending (newYearZone 2500000 (by decide))
      (datetime 2023 12 31 23 59 59) (datetime 2023 12 31 23 59 59) =
      some (datetime 2024 1 1 0 0 0) := by
    rw [CronTab.nextPending]
    split
    next hnone =>
      rw [hfirst] at hnone
      cases hnone
    next target hsome =>
      rw [hfirst] at hsome
      cases hsome
      exact if_pos (by decide +kernel)
  -- both ends of the binary search stay from its second iteration on
  have hedge : gapEdge (newYearZone 2500000 (by decide)) (datetime 2024 1 1 0 0 0 / second)
      (datetime 2024 1 1 0 0 0 + 2500000) = none := by
    rw [gapEdge, dif_pos (by decide +kernel), if_neg (by decide +kernel),
      if_neg (by decide +kernel), gapEdge, dif_pos (by decide +kernel), if_neg (by decide +kernel),
      if_pos (by decide +kernel)]
  have hcivil : (newYearZone 2500000 (by decide)).label
      ((newYearZone 2500000 (by decide)).resolve (datetime 2024 1 1 0 0 0)) =
      datetime 2024 1 1 0 0 0 + 2500000 := by decide +kernel
  have hmax : max (datetime 2024 1 1 0 0 0)
      ((newYearZone 2500000 (by decide)).label (datetime 2023 12 31 23 59 59)) =
      datetime 2024 1 1 0 0 0 := by decide +kernel
  simp only [CronTab.nextInstant, hseed, hpending, hmax, hsecond, hcivil, hedge]
  rw [if_neg (by decide +kernel), if_neg (by decide +kernel)]
  rfl

end Cronstable.CronExpr

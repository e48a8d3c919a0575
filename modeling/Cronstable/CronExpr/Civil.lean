import Cronstable.CronExpr.Tab

/-!
# The civil search is exact

`CronTab.nextCivil` answers the first match strictly after a naive date-time, within the horizon.
Each level of the walk is a first-element search of its own (`First`): the time of day digit by
digit, the days of a month, and the months and years. Where the walk stands is a position in the
lexicographic order of the fields, which is the order of the date-times.

## Main results

* `fits_iff`: a match is an admitted year and month, a day of it and a time of day;
* `first_nextCivil`: the answer is the least match after the date-time, or nothing when there is
  none.
-/

namespace Cronstable.CronExpr

open Calendar First Option

/-! ## Times of day -/

/-- An hour, a minute and a second, in the order of the clock. -/
abbrev Tod := ℤ ×ₗ ℤ ×ₗ ℤ

/-- The time of day of a date-time. -/
def todOf (c : ℤ) : Tod := (getHour c, getMinute c, getSecond c)

/-- A time of day on a date. -/
def atTime (y : ℤ) (m : ℕ) (d : ℤ) (t : Tod) : ℤ := datetime y m d t.1 t.2.1 t.2.2

/-- The time of day is not before that of the floor, if there is one. -/
def AtOrAfter (tod : Option ℤ) (t : Tod) : Prop := ∀ floor ∈ tod, getHour floor < t.1 ∨
  getHour floor = t.1 ∧ (getMinute floor < t.2.1 ∨
    getMinute floor = t.2.1 ∧ getSecond floor ≤ t.2.2)

variable {y d x : ℤ} {m : ℕ} {tod : Option ℤ}

namespace CronTab

variable (tab : CronTab)

/-- The matching times of an hour. -/
private def hourTimes : Set (ℤ ×ₗ ℤ) :=
  {t | t.1 ∈ tab.minutes.values ∧ t.2 ∈ {s | s ∈ tab.seconds.values}}

/-- The matching times of day. -/
def times : Set Tod := {t | t.1 ∈ tab.hours.values ∧ t.2 ∈ tab.hourTimes}

lemma isTime_of_mem_times {t : Tod} (h : t ∈ tab.times) : IsTime t.1 t.2.1 t.2.2 :=
  ⟨tab.hours.bounds _ h.1, tab.minutes.bounds _ h.2.1, tab.seconds.bounds _ h.2.2⟩

private lemma isLeast_hourTimes : IsLeast tab.hourTimes tab.firstHms.2 := by
  have hmin := isLeast_head tab.minutes.sorted tab.minutes_ne
  have hsec := isLeast_head tab.seconds.sorted tab.seconds_ne
  exact ⟨⟨hmin.1, hsec.1⟩, fun t ht => Prod.Lex.toLex_mono ⟨hmin.2 ht.1, hsec.2 ht.2⟩⟩

/-- From midnight every column's first value is taken. -/
theorem isLeast_times : IsLeast tab.times tab.firstHms := by
  have hhour := isLeast_head tab.hours.sorted tab.hours_ne
  have hlow := tab.isLeast_hourTimes
  exact ⟨⟨hhour.1, hlow.1⟩, fun t ht => Prod.Lex.toLex_mono ⟨hhour.2 ht.1, hlow.2 ht.2⟩⟩

/-- The branches of `_first_time` are two levels of a search digit by digit. -/
private lemma firstTime_some (floor : ℤ) : tab.firstTime (some floor) =
    lexFirst tab.hours.values (getHour floor)
      (lexFirst tab.minutes.values (getMinute floor)
        tab.seconds.values[bisectLeft tab.seconds.values (getSecond floor)]? tab.firstHms.2.2)
      tab.firstHms.2 := by
  simp only [firstTime, lexFirst]
  cases tab.hours.values[bisectLeft tab.hours.values (getHour floor)]? with
  | none => rfl
  | some h =>
    simp only
    split
    next => rfl
    next =>
      congr 1
      cases tab.minutes.values[bisectLeft tab.minutes.values (getMinute floor)]? with
      | none => rfl
      | some m =>
        simp only
        split
        next => rfl
        next =>
          cases tab.seconds.values[bisectLeft tab.seconds.values (getSecond floor)]? with
          | none =>
            cases tab.minutes.values[bisectLeft tab.minutes.values (getMinute floor) + 1]? <;> rfl
          | some s => rfl

/-- The search for a time of day. -/
theorem first_firstTime (tod : Option ℤ) :
    First {t | t ∈ tab.times ∧ AtOrAfter tod t} (tab.firstTime tod) := by
  cases tod with
  | none => exact ⟨⟨tab.isLeast_times.1, nofun⟩, fun t ht => tab.isLeast_times.2 ht.1⟩
  | some floor =>
    rw [firstTime_some]
    have hmin := first_lexFirst tab.minutes.sorted (getMinute floor)
      (first_bisectLeft tab.seconds.sorted (getSecond floor))
      (isLeast_head tab.seconds.sorted tab.seconds_ne)
    refine (first_lexFirst tab.hours.sorted (getHour floor) hmin tab.isLeast_hourTimes).congr
      fun t => and_congr_right fun _ => ?_
    simp [AtOrAfter]

/-! ## Matches -/

/-- A whole second that passes `test`. -/
def Fits (c : ℤ) : Prop := second ∣ c ∧ tab.test c = true

/-- A date-time the engine can answer: a whole second within the horizon that passes `test`. -/
def Matches (c : ℤ) : Prop := second ∣ c ∧ getYear c ≤ yearHorizon ∧ tab.test c = true

instance (c : ℤ) : Decidable (tab.Matches c) := inferInstanceAs (Decidable (_ ∧ _ ∧ _))

lemma matches_iff (c : ℤ) : tab.Matches c ↔ tab.Fits c ∧ getYear c ≤ yearHorizon := by
  unfold Matches Fits
  tauto

/-- The year column admits a year. -/
def YearOk (y : ℤ) : Prop := ∀ years ∈ tab.years, y ∈ years.values

/-- The days of a month that pass the day test. -/
def days (y : ℤ) (m : ℕ) : Set ℤ := {d | IsDate y m d ∧ tab.dayTest y m d = true}

/-- A match is an admitted year and month, a day that passes the day test and a matching time of
day. -/
theorem fits_iff (c : ℤ) : tab.Fits c ↔ second ∣ c ∧ tab.YearOk (getYear c) ∧
    getMonth c ∈ tab.months.values ∧ getDay c ∈ tab.days (getYear c) (getMonth c) ∧
      todOf c ∈ tab.times := by
  have hdate := isDate_fields c
  simp only [Fits, test, Bool.and_eq_true, List.contains_iff_mem, all_eq_true]
  constructor
  · rintro ⟨hwhole, ⟨⟨⟨⟨hmin, hhour⟩, hsec⟩, hmonth⟩, hyears⟩, hday⟩
    exact ⟨hwhole, hyears, hmonth, ⟨hdate, hday⟩, hhour, hmin, hsec⟩
  · rintro ⟨hwhole, hyears, hmonth, ⟨-, hday⟩, hhour, hmin, hsec⟩
    exact ⟨hwhole, ⟨⟨⟨⟨hmin, hhour⟩, hsec⟩, hmonth⟩, hyears⟩, hday⟩

/-- The matches of an admitted month. -/
theorem mem_month {q : ℤ → Tod → Prop} (hy : tab.YearOk y) (hm : m ∈ tab.months.values) (x : ℤ) :
    (∃ d ∈ tab.days y m, ∃ t ∈ tab.times, x = atTime y m d t ∧ q d t) ↔
      tab.Fits x ∧ getYear x = y ∧ getMonth x = m ∧ q (getDay x) (todOf x) := by
  constructor
  · rintro ⟨d, hd, t, ht, rfl, hq⟩
    obtain ⟨h1, h2, h3, h4, h5, h6⟩ := fields_datetime hd.1 (tab.isTime_of_mem_times ht)
    have htod : todOf (atTime y m d t) = t := Prod.ext h4 (Prod.ext h5 h6)
    have hdate : getYear (atTime y m d t) = y ∧ getMonth (atTime y m d t) = m ∧
        getDay (atTime y m d t) = d := ⟨h1, h2, h3⟩
    rw [fits_iff, htod, hdate.1, hdate.2.1, hdate.2.2]
    exact ⟨⟨second_dvd_datetime .., hy, hm, hd, ht⟩, rfl, rfl, hq⟩
  · rintro ⟨hfits, rfl, rfl, hq⟩
    obtain ⟨hwhole, -, -, hd, ht⟩ := (tab.fits_iff x).mp hfits
    exact ⟨_, hd, _, ht, (datetime_fields hwhole).symm, hq⟩

/-- Times on the days of a month follow each other. -/
theorem atTime_lt {d' : ℤ} {t t' : Tod} (ht : t ∈ tab.times) (ht' : t' ∈ tab.times)
    (h : d < d' ∨ d = d' ∧ t < t') : atTime y m d t < atTime y m d' t' := by
  have hlex : t < t' ↔ t.1 < t'.1 ∨ t.1 = t'.1 ∧
      (t.2.1 < t'.2.1 ∨ t.2.1 = t'.2.1 ∧ t.2.2 < t'.2.2) :=
    Prod.Lex.lt_iff.trans (or_congr_right (and_congr_right fun _ => Prod.Lex.lt_iff))
  obtain ⟨hh, hmi, hs⟩ := tab.isTime_of_mem_times ht
  obtain ⟨hh', hmi', hs'⟩ := tab.isTime_of_mem_times ht'
  rw [hlex] at h
  simp only [atTime, datetime, ordinal, units]
  omega

/-! ## The days of a month -/

/-- The matches in the rest of a month. -/
abbrev restOfMonth (y : ℤ) (m : ℕ) (d : ℤ) (tod : Option ℤ) : Set ℤ :=
  {x | tab.Fits x ∧ getYear x = y ∧ getMonth x = m ∧
    (d < getDay x ∨ d = getDay x ∧ AtOrAfter tod (todOf x))}

/-- The search through an admitted month: the times of the day it stands at, then the next day from
midnight. -/
theorem first_month (tod : Option ℤ) {next : Option ℤ} (same : Option ℤ)
    (hy : tab.YearOk y) (hm : m ∈ tab.months.values)
    (hnext : First {d' | d' ∈ tab.days y m ∧ d < d'} next)
    (hin : d ∈ tab.days y m → same = tab.atFirstTime y m d tod)
    (hout : d ∉ tab.days y m → same = none) :
    First (tab.restOfMonth y m d tod) (same.or (next.map (atTime y m · tab.firstHms))) :=
  (lex (atTime y m) next same (fun _ _ _ ht _ _ _ ht' => tab.atTime_lt ht ht')
    (tab.first_firstTime tod) tab.isLeast_times hnext hin hout).congr (tab.mem_month hy hm)

/-- The weekday carried along by the day loop. -/
theorem cronWeekday_succ (y : ℤ) (m : ℕ) (d : ℤ) : cronWeekday y m (d + 1) =
    if cronWeekday y m d < 6 then cronWeekday y m d + 1 else 0 := by
  unfold cronWeekday weekday ordinal
  split <;> omega

/-- One turn of the day loop. -/
private lemma dayLoop_eq (matchesDay : ℤ → ℤ → Bool) (y : ℤ) (m : ℕ) (e d dow : ℤ)
    (tod : Option ℤ) : tab.dayLoop matchesDay y m e d dow tod =
      if d ≤ e then
        (if matchesDay d dow then tab.atFirstTime y m d tod else none).or
          (tab.dayLoop matchesDay y m e (d + 1) (if dow < 6 then dow + 1 else 0) none)
      else none := by
  rw [dayLoop]
  split
  · generalize (if matchesDay d dow then tab.atFirstTime y m d tod else none) = r
    cases r <;> rfl
  · rfl

/-- From midnight the day loop looks for the next day that passes the day test. -/
private lemma dayLoop_midnight {matchesDay : ℤ → ℤ → Bool} (hm : 1 ≤ m ∧ m ≤ 12)
    (htest : ∀ d, matchesDay d (cronWeekday y m d) = tab.dayTest y m d) (hd : 0 ≤ d) :
    ∃ next, First {d' | d' ∈ tab.days y m ∧ d < d'} next ∧
      tab.dayLoop matchesDay y m (daysInMonth y m) (d + 1) (cronWeekday y m (d + 1)) none =
        next.map (atTime y m · tab.firstHms) := by
  -- on the days left in the month
  induction hleft : (daysInMonth y m - d).toNat generalizing d with
  | zero =>
    refine ⟨none, none_iff.mpr ?_, by rw [dayLoop_eq, if_neg (by omega)]; rfl⟩
    rintro d' ⟨⟨hdate, -⟩, hlt⟩
    have := hdate.day
    omega
  | succ n ih =>
    rw [dayLoop_eq, if_pos (by omega), htest, ← cronWeekday_succ]
    cases hday : tab.dayTest y m (d + 1) with
    | true =>
      refine ⟨some (d + 1), ⟨⟨⟨⟨hm, by omega, by omega⟩, hday⟩, by omega⟩, fun d' hd' => ?_⟩, rfl⟩
      exact hd'.2
    | false =>
      obtain ⟨next, hfirst, heq⟩ := ih (d := d + 1) (by omega) (by omega)
      refine ⟨next, hfirst.congr fun d' => and_congr_right fun hd' => ?_, heq⟩
      have hne : d' ≠ d + 1 := by
        rintro rfl
        rw [hd'.2] at hday
        cases hday
      omega

/-- The day loop finds the first match of the rest of the month, for every way of testing a day
that agrees with the day test of `test`. -/
theorem first_dayLoop {matchesDay : ℤ → ℤ → Bool} (hy : tab.YearOk y) (hm : m ∈ tab.months.values)
    (hdate : IsDate y m d) (htest : ∀ d, matchesDay d (cronWeekday y m d) = tab.dayTest y m d) :
    First (tab.restOfMonth y m d tod)
      (tab.dayLoop matchesDay y m (daysInMonth y m) d (cronWeekday y m d) tod) := by
  obtain ⟨next, hfirst, heq⟩ := tab.dayLoop_midnight hdate.month htest (d := d)
    (by have := hdate.day; omega)
  rw [dayLoop_eq, if_pos hdate.day.2, htest, ← cronWeekday_succ, heq]
  refine tab.first_month tod _ hy hm hfirst (fun hd => ?_) fun hd => ?_
  · rw [if_pos hd.2]
  · rw [if_neg fun h => hd ⟨hdate, h⟩]

/-- The day scan of a tab whose day columns are plain sets. -/
theorem first_nextPlainDay (hplain : tab.daysPlain = true) (hy : tab.YearOk y)
    (hm : m ∈ tab.months.values) (hdate : IsDate y m d) :
    First (tab.restOfMonth y m d tod)
      (tab.nextPlainDay y m d (daysInMonth y m) tod) := by
  unfold nextPlainDay
  split
  next hfree =>
    have hdays : ∀ d', d' ∈ tab.days y m ↔ d' ∈ tab.dom.values ∧ d' ≤ daysInMonth y m := by
      intro d'
      have htest : tab.dayTest y m d' = tab.dom.values.contains d' := by
        simp [dayTest, hplain, hfree]
      simp only [days, htest, List.contains_iff_mem, Set.mem_ofPred_eq]
      constructor
      · exact fun h => ⟨h.2, h.1.day.2⟩
      · exact fun h => ⟨⟨hdate.month, (tab.dom.bounds d' h.1).1, h.2⟩, h.1⟩
    -- a listed day behind the end of the month ends the scan
    have hlisted : ∀ {next}, First {d' | d' ∈ tab.dom.values ∧ d < d'} next →
        First {d' | d' ∈ tab.days y m ∧ d < d'}
          (next.filter fun d' => decide (d' ≤ daysInMonth y m)) := fun hnext =>
      (hnext.filter_le (daysInMonth y m)).congr fun d' => by
        simp only [Set.mem_ofPred_eq, hdays]
        tauto
    have hfilter : ∀ d', (if daysInMonth y m < d' then none
        else some (atTime y m d' tab.firstHms)) =
          (Option.filter (fun d' => decide (d' ≤ daysInMonth y m)) (some d')).map
            (atTime y m · tab.firstHms) := by
      intro d'
      by_cases h : daysInMonth y m < d'
      · simp [h]
      · simp [h, not_lt.mp h]
    simp only
    rcases bisectLeft_cases tab.dom.sorted d with ⟨hd, hat, hnext⟩ | ⟨hd, hnext⟩
    · -- the seed day is listed: its own times, then the next listed day
      rw [hat]
      simp only [if_neg (not_lt.mpr hdate.day.2), if_true]
      have hfirst := tab.first_month tod (tab.atFirstTime y m d tod) hy hm (hlisted hnext)
        (fun _ => rfl) fun h => absurd ((hdays d).mpr ⟨hd, hdate.day.2⟩) h
      refine Eq.mp (congrArg (First _) ?_) hfirst
      cases tab.atFirstTime y m d tod with
      | some found => rfl
      | none =>
        cases tab.dom.values[bisectLeft tab.dom.values d + 1]? with
        | none => rfl
        | some d' => exact (hfilter d').symm
    · have hfirst := tab.first_month tod none hy hm (hlisted hnext)
        (fun h => absurd ((hdays d).mp h).1 hd) fun _ => rfl
      refine Eq.mp (congrArg (First _) ?_) hfirst
      cases hv : tab.dom.values[bisectLeft tab.dom.values d]? with
      | none => rfl
      | some d' =>
        rw [hv] at hnext
        simp only [if_neg hnext.1.2.ne']
        exact (hfilter d').symm
  next hfree =>
    refine tab.first_dayLoop hy hm hdate fun d => ?_
    simp [dayTest, hplain, hfree]

/-- The day scan of one month. -/
theorem first_nextDay (tod : Option ℤ) (hy : tab.YearOk y) (hm : m ∈ tab.months.values)
    (hdate : IsDate y m d) :
    First (tab.restOfMonth y m d tod) (tab.nextDay y m d tod) := by
  unfold nextDay
  rw [monthEnd_eq y hdate.month]
  split
  next hplain => exact tab.first_nextPlainDay hplain hy hm hdate
  next hplain =>
    refine tab.first_dayLoop hy hm hdate fun d => ?_
    simp [dayTest, dayMatches, hplain, monthEnd_eq y hdate.month]

/-! ## Months and years -/

/-- The fields are at or after where the walk stands. -/
def Ahead (y : ℤ) (m : ℕ) (d : ℤ) (tod : Option ℤ) (x : ℤ) : Prop :=
  y < getYear x ∨ y = getYear x ∧ (m < getMonth x ∨ m = getMonth x ∧
    (d < getDay x ∨ d = getDay x ∧ AtOrAfter tod (todOf x)))

/-- What is ahead is in the rest of the month or in a later one. -/
theorem Ahead.month_or_later (h : Ahead y m d tod x) :
    (getYear x = y ∧ getMonth x = m ∧ (d < getDay x ∨ d = getDay x ∧ AtOrAfter tod (todOf x))) ∨
      y < getYear x ∨ y = getYear x ∧ m < getMonth x := by
  rcases h with hy | ⟨rfl, hm | ⟨rfl, hd⟩⟩
  · exact .inr (.inl hy)
  · exact .inr (.inr ⟨rfl, hm⟩)
  · exact .inl ⟨rfl, rfl, hd⟩

/-- The first day of a month is a date. -/
theorem isDate_first (y : ℤ) (h : 1 ≤ m ∧ m ≤ 12) : IsDate y m 1 :=
  ⟨h, le_rfl, by have := daysInMonth_pos y m; omega⟩

/-- A walk may go on at the start of a later month, when no match lies in between. -/
private lemma first_jump {y₁ : ℤ} {m₁ : ℕ} {r : Option ℤ}
    (hlater : y < y₁ ∨ y = y₁ ∧ m < m₁)
    (hskip : ∀ x, tab.Matches x → Ahead y m d tod x →
      y₁ < getYear x ∨ y₁ = getYear x ∧ m₁ ≤ getMonth x)
    (h : First {x | tab.Matches x ∧ Ahead y₁ m₁ 1 none x} r) :
    First {x | tab.Matches x ∧ Ahead y m d tod x} r := by
  refine h.congr fun x => and_congr_right fun hx => ?_
  have hdate := isDate_fields x
  have hday := hdate.day.1
  have hnone : AtOrAfter none (todOf x) := nofun
  constructor
  · unfold Ahead
    omega
  · intro hahead
    have := hskip x hx hahead
    unfold Ahead
    rcases hday.eq_or_lt with heq | hlt
    · simp only [← heq, hnone, and_true, or_true]
      omega
    · omega

/-- The years column skips a year. -/
private lemma years_skip {r : Option ℤ} (h : (tab.years.bind fun years =>
    if years.values.contains y then none else some (nextIn years.values y)) = some r) :
    ∃ years ∈ tab.years, y ∉ years.values ∧ nextIn years.values y = r := by
  obtain ⟨years, hyears, hnext⟩ := bind_eq_some_iff.mp h
  split at hnext
  next => cases hnext
  next hnot => exact ⟨years, hyears, by simpa using hnot, some.inj hnext⟩

private lemma years_admit (h : (tab.years.bind fun years =>
    if years.values.contains y then none else some (nextIn years.values y)) = none) :
    tab.YearOk y := by
  intro years hyears
  have hnone := bind_eq_none_iff.mp h years hyears
  split at hnone
  next hmem => simpa using hmem
  next => cases hnone

/-- The walk over months and years. -/
theorem first_nextCivilLoop (hdate : IsDate y m d) :
    First {x | tab.Matches x ∧ Ahead y m d tod x} (tab.nextCivilLoop y m d tod) := by
  have hfields : ∀ x, tab.Matches x → getYear x ≤ yearHorizon ∧ tab.YearOk (getYear x) ∧
      getMonth x ∈ tab.months.values ∧ 1 ≤ getMonth x ∧ getMonth x ≤ 12 := by
    intro x hx
    obtain ⟨hfits, hyear⟩ := (tab.matches_iff x).mp hx
    obtain ⟨-, hy, hm, -⟩ := (tab.fits_iff x).mp hfits
    exact ⟨hyear, hy, hm, tab.months.bounds _ hm⟩
  fun_induction tab.nextCivilLoop y m d tod with
  | case1 y m d tod hy hyears =>
    obtain ⟨years, hmem, hnot, hnext⟩ := tab.years_skip hyears
    have hlast := first_nextIn years y
    rw [hnext] at hlast
    refine none_iff.mpr ?_
    rintro x ⟨hx, hahead⟩
    have hyx := (hfields x hx).2.1 years hmem
    rcases hahead with hlt | ⟨rfl, -⟩
    · exact none_iff.mp hlast _ ⟨hyx, hlt⟩
    · exact hnot hyx
  | case2 y m d tod hy ny hyears ih =>
    obtain ⟨years, hmem, hnot, hnext⟩ := tab.years_skip hyears
    have hfirst := first_nextIn years y
    rw [hnext] at hfirst
    refine tab.first_jump (.inl hfirst.1.2) ?_ (ih (isDate_first ny (by omega)))
    intro x hx hahead
    obtain ⟨-, hyx, -, hm1, -⟩ := hfields x hx
    rcases hahead with hlt | ⟨rfl, -⟩
    · have := hfirst.2 ⟨hyx years hmem, hlt⟩
      omega
    · exact absurd (hyx years hmem) hnot
  | case3 y m d tod hy hyears hmonth found hfound =>
    have hfirst := tab.first_nextDay tod (tab.years_admit hyears) (by simpa using hmonth) hdate
    rw [hfound] at hfirst
    obtain ⟨⟨hfits, hyf, hmf, hahead⟩, hmin⟩ := hfirst
    refine ⟨⟨(tab.matches_iff _).mpr ⟨hfits, hyf ▸ hy⟩, ?_⟩, ?_⟩
    · exact .inr ⟨hyf.symm, .inr ⟨hmf.symm, hahead⟩⟩
    · rintro x ⟨hx, hxa⟩
      rcases hxa.month_or_later with hmem | hlater
      · exact hmin ⟨((tab.matches_iff x).mp hx).1, hmem⟩
      · refine (lt_of_dayNumber_lt ((dayNumber_lt_iff _ _).mpr ?_)).le
        omega
  | case4 y m d tod hy hyears hmonth hspent hlast ih =>
    have hfirst := tab.first_nextDay tod (tab.years_admit hyears) (by simpa using hmonth) hdate
    rw [hspent] at hfirst
    refine tab.first_jump (.inl (by omega)) ?_ (ih (isDate_first _ (by omega)))
    intro x hx hahead
    obtain ⟨-, -, -, hm1, hm12⟩ := hfields x hx
    rcases hahead.month_or_later with hmem | hlater
    · exact absurd ⟨((tab.matches_iff x).mp hx).1, hmem⟩ (none_iff.mp hfirst x)
    · omega
  | case5 y m d tod hy hyears hmonth hspent hlast ih =>
    have hfirst := tab.first_nextDay tod (tab.years_admit hyears) (by simpa using hmonth) hdate
    rw [hspent] at hfirst
    refine tab.first_jump (.inr ⟨rfl, by omega⟩) ?_
      (ih (isDate_first _ (by have := hdate.month; omega)))
    intro x hx hahead
    rcases hahead.month_or_later with hmem | hlater
    · exact absurd ⟨((tab.matches_iff x).mp hx).1, hmem⟩ (none_iff.mp hfirst x)
    · omega
  | case6 y m d tod hy hyears hmonth hnext ih =>
    have hnot : m ∉ tab.months.values := by simpa using hmonth
    have hlast := first_nextIn tab.months m
    rw [hnext] at hlast
    have hhead := isLeast_head tab.months.sorted tab.months_ne
    have hbounds := tab.months.bounds _ hhead.1
    refine tab.first_jump (.inl (by omega)) ?_ (ih (isDate_first _ hbounds))
    intro x hx hahead
    obtain ⟨-, -, hmx, -⟩ := hfields x hx
    have := hhead.2 hmx
    have : ¬ m < getMonth x := fun hm => none_iff.mp hlast _ ⟨hmx, hm⟩
    have : m ≠ getMonth x := fun hm => hnot (hm ▸ hmx)
    unfold Ahead at hahead
    omega
  | case7 y m d tod hy hyears hmonth next hnext ih =>
    have hnot : m ∉ tab.months.values := by simpa using hmonth
    have hfirst := first_nextIn tab.months m
    rw [hnext] at hfirst
    have hbounds := tab.months.bounds _ hfirst.1.1
    refine tab.first_jump (.inr ⟨rfl, hfirst.1.2⟩) ?_ (ih (isDate_first _ hbounds))
    intro x hx hahead
    obtain ⟨-, -, hmx, -⟩ := hfields x hx
    have hmin : m < getMonth x → next ≤ getMonth x := fun hm => hfirst.2 ⟨hmx, hm⟩
    have : m ≠ getMonth x := fun hm => hnot (hm ▸ hmx)
    unfold Ahead at hahead
    omega
  | case8 y m d tod hy =>
    refine none_iff.mpr ?_
    rintro x ⟨hx, hahead⟩
    have := (hfields x hx).1
    unfold Ahead at hahead
    omega

/-- `_next_civil` is exact: the least match strictly after a date-time, or nothing when the horizon
holds none. -/
theorem first_nextCivil (c : ℤ) : First {x | tab.Matches x ∧ c < x} (tab.nextCivil c) := by
  have hbase : second ∣ c / second * second + second :=
    Int.dvd_add (Int.dvd_mul_left ..) (Int.dvd_refl _)
  refine (tab.first_nextCivilLoop (isDate_fields _)).congr fun x => and_congr_right fun hx => ?_
  -- the floor is the first whole second after the date-time
  have hle := le_iff_fields hbase hx.1
  have hwhole : c / second * second + second ≤ x ↔ c < x := by
    obtain ⟨⟨k, rfl⟩, -⟩ := hx
    simp only [units]
    omega
  rw [← hwhole, hle]
  simp [Ahead, AtOrAfter, todOf]

end CronTab

end Cronstable.CronExpr

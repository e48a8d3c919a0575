import Cronstable.Lib.Calendar
import Cronstable.Lib.First

/-!
# Cron tabs: matching and the forward civil search

A parsed cron expression and what the engine does with it on a naive clock: `CronTab.test` decides
whether a date-time matches, `CronTab.nextCivil` walks years, months, days and times of day to the
first match after a date-time. Naive date-times are microseconds on the line of
`Cronstable.Lib.Calendar`.

A column of the source is a frozen set together with the sorted tuple of its values; here it is the
sorted tuple, which carries the bounds that the parser enforces. The range of Python's `datetime`
(years 1 to 9999) is not modelled: the line has no ends.
-/

namespace Cronstable.CronExpr

open Calendar

/-- `_YEAR_HORIZON`: the search never passes this year. -/
def yearHorizon : ℤ := 2099

/-- `_MDAYS`: the days of each month, of February in a common year; index 0 is unused. -/
def mdays : List ℤ := [0, 31, 28, 31, 30, 31, 30, 31, 31, 30, 31, 30, 31]

/-- `_month_end`. -/
def monthEnd (year : ℤ) (month : ℕ) : ℤ :=
  if month = 2 ∧ year % 4 = 0 ∧ (year % 100 ≠ 0 ∨ year % 400 = 0) then 29
  else mdays.getD month 0

/-- The month end of the engine is that of the calendar. -/
theorem monthEnd_eq (year : ℤ) {month : ℕ} (h : 1 ≤ month ∧ month ≤ 12) :
    monthEnd year month = daysInMonth year month := by
  obtain ⟨hlo, hhi⟩ := h
  have hleap := isLeap_iff year
  unfold monthEnd daysInMonth mdays
  interval_cases month
  case «2» =>
    by_cases hl : isLeap year = true
    · rw [if_pos ⟨rfl, hleap.mp hl⟩]
      simp [hl]
    · rw [if_neg fun h => hl (hleap.mpr h.2)]
      simp [hl]
  all_goals simp

/-! ## Parsed expressions -/

/-- A parsed column: its values, sorted and within the bounds of the field. -/
structure Column {α : Type} [LinearOrder α] (lo hi : α) where
  values : List α
  sorted : values.SortedLT
  bounds : ∀ v ∈ values, lo ≤ v ∧ v ≤ hi

/-- A parsed cron expression. -/
structure CronTab where
  seconds : Column (0 : ℤ) 59
  minutes : Column (0 : ℤ) 59
  hours : Column (0 : ℤ) 23
  /-- The explicit days of the month. -/
  dom : Column (1 : ℤ) 31
  /-- Offsets back from the final day of the month: 0 for `L`, `n` for `L-n`. -/
  domLastOffsets : Column (0 : ℤ) 30
  /-- The target days of `nW` items. -/
  domNearest : Column (1 : ℤ) 31
  /-- Whether `LW` was given. -/
  domLastWeekday : Bool
  months : Column (1 : ℕ) 12
  /-- The plain weekdays; Sunday is 0. -/
  dow : Column (0 : ℤ) 6
  /-- The weekdays matched only as the last such day of the month. -/
  dowLast : Column (0 : ℤ) 6
  /-- The weekdays matched only as the n-th such day of the month. -/
  dowNth : List (ℤ × ℤ)
  /-- The years, unless the column is absent or `*`. -/
  years : Option (Column (1970 : ℤ) yearHorizon)
  seconds_ne : seconds.values ≠ []
  minutes_ne : minutes.values ≠ []
  hours_ne : hours.values ≠ []
  months_ne : months.values ≠ []

/-- `_shift_to_weekday`: the weekday nearest to a day, within its month. -/
def shiftToWeekday (year : ℤ) (month : ℕ) (target monthEnd : ℤ) : ℤ :=
  if weekday (ordinal year month target) = 5 then
    if 1 < target then target - 1 else target + 2
  else if weekday (ordinal year month target) = 6 then
    if target < monthEnd then target + 1 else target - 2
  else target

namespace CronTab

variable (tab : CronTab)

/-- `_dow_free`: the day-of-week column constrains nothing. -/
def dowFree : Bool := tab.dow.values.length == 7

/-- `_days_plain`: both day columns are plain value sets. -/
def daysPlain : Bool :=
  !(!tab.domLastOffsets.values.isEmpty || !tab.domNearest.values.isEmpty || tab.domLastWeekday ||
    !tab.dowLast.values.isEmpty || !tab.dowNth.isEmpty)

/-! ## Matching -/

/-- `_dom_matches`: plain values, the L family, the W family. -/
def domMatches (year : ℤ) (month : ℕ) (day monthEnd : ℤ) : Bool :=
  tab.dom.values.contains day ||
  tab.domLastOffsets.values.contains (monthEnd - day) ||
  (tab.domLastWeekday && decide (monthEnd - 2 ≤ day) &&
    decide (day = shiftToWeekday year month monthEnd monthEnd)) ||
  tab.domNearest.values.any fun target =>
    decide (target - 2 ≤ day ∧ day ≤ target + 2) && decide (target ≤ monthEnd) &&
      decide (day = shiftToWeekday year month target monthEnd)

/-- `_dow_matches`: plain values, the L family, the # family. -/
def dowMatches (dow day monthEnd : ℤ) : Bool :=
  tab.dow.values.contains dow ||
  (tab.dowLast.values.contains dow && decide (monthEnd - 7 < day)) ||
  -- which occurrence of its weekday the day is
  tab.dowNth.contains (dow, (day - 1) / 7 + 1)

/-- The cron weekday of a day: Sunday is 0. -/
def cronWeekday (year : ℤ) (month : ℕ) (day : ℤ) : ℤ := (weekday (ordinal year month day) + 1) % 7

/-- `_day_matches`: both day constraints. -/
def dayMatches (year : ℤ) (month : ℕ) (day monthEnd : ℤ) : Bool :=
  tab.domMatches year month day monthEnd &&
    tab.dowMatches (cronWeekday year month day) day monthEnd

/-- The day test of `test`. -/
def dayTest (year : ℤ) (month : ℕ) (day : ℤ) : Bool :=
  if tab.daysPlain then
    tab.dom.values.contains day &&
      (tab.dowFree || tab.dow.values.contains (cronWeekday year month day))
  else tab.dayMatches year month day (monthEnd year month)

/-- `test`: whether the civil fields match; microseconds are ignored. -/
def test (entry : ℤ) : Bool :=
  (tab.minutes.values.contains (getMinute entry) && tab.hours.values.contains (getHour entry) &&
    tab.seconds.values.contains (getSecond entry) && tab.months.values.contains (getMonth entry) &&
    tab.years.all (·.values.contains (getYear entry))) &&
  tab.dayTest (getYear entry) (getMonth entry) (getDay entry)

/-! ## The forward search -/

/-- The first time of day of every day. -/
def firstHms : ℤ × ℤ × ℤ :=
  (tab.hours.values.head tab.hours_ne, tab.minutes.values.head tab.minutes_ne,
    tab.seconds.values.head tab.seconds_ne)

/-- `_first_time`: the earliest matching time of day, at or after that of `atOrAfter` if set. -/
def firstTime (atOrAfter : Option ℤ) : Option (ℤ × ℤ × ℤ) :=
  match atOrAfter with
  | none => some tab.firstHms
  | some floor =>
    let hours := tab.hours.values
    let minutes := tab.minutes.values
    let seconds := tab.seconds.values
    let hour := getHour floor
    let index := bisectLeft hours hour
    match hours[index]? with
    | none => none
    | some h =>
      if hour < h then some (h, tab.firstHms.2)
      else
        let minute := getMinute floor
        let mIndex := bisectLeft minutes minute
        let inHour := match minutes[mIndex]? with
          | none => none
          | some m =>
            if minute < m then some (hour, m, tab.firstHms.2.2)
            else match seconds[bisectLeft seconds (getSecond floor)]? with
            | some s => some (hour, minute, s)
            -- a spent seconds column moves to the next minute of the same hour
            | none => minutes[mIndex + 1]?.map fun m' => (hour, m', tab.firstHms.2.2)
        -- and a spent minutes column to the next hour
        inHour.or (hours[index + 1]?.map fun h' => (h', tab.firstHms.2))

/-- `_at_first_time`: a day at its earliest matching time, if any. -/
def atFirstTime (year : ℤ) (month : ℕ) (day : ℤ) (tod : Option ℤ) : Option ℤ :=
  (tab.firstTime tod).map fun hms => datetime year month day hms.1 hms.2.1 hms.2.2

/-- The day loop of the walks: the weekday is carried along, and the floor applies to the first day
alone. -/
def dayLoop (matchesDay : ℤ → ℤ → Bool) (year : ℤ) (month : ℕ) (monthEnd day dow : ℤ)
    (tod : Option ℤ) : Option ℤ :=
  if day ≤ monthEnd then
    match if matchesDay day dow then tab.atFirstTime year month day tod else none with
    | some found => some found
    | none =>
      dayLoop matchesDay year month monthEnd (day + 1) (if dow < 6 then dow + 1 else 0) none
  else none
termination_by (monthEnd + 1 - day).toNat

/-- `_next_plain_day`: the day scan of a month for a tab whose day columns are plain sets. -/
def nextPlainDay (year : ℤ) (month : ℕ) (day monthEnd : ℤ) (tod : Option ℤ) : Option ℤ :=
  if tab.dowFree then
    let domSorted := tab.dom.values
    let index := bisectLeft domSorted day
    let fromMidnight := fun first : ℤ => datetime year month first tab.firstHms.1
      tab.firstHms.2.1 tab.firstHms.2.2
    match domSorted[index]? with
    | none => none
    | some first =>
      if monthEnd < first then none
      else if first = day then
        match tab.atFirstTime year month day tod with
        | some found => some found
        | none =>
          -- the times of the seed day are spent
          match domSorted[index + 1]? with
          | none => none
          | some first => if monthEnd < first then none else some (fromMidnight first)
      else some (fromMidnight first)
  else
    tab.dayLoop (fun day dow => tab.dom.values.contains day && tab.dow.values.contains dow)
      year month monthEnd day (cronWeekday year month day) tod

/-- The day scan of `_next_civil` in one month. -/
def nextDay (year : ℤ) (month : ℕ) (day : ℤ) (tod : Option ℤ) : Option ℤ :=
  let monthEnd := monthEnd year month
  if tab.daysPlain then tab.nextPlainDay year month day monthEnd tod
  else
    tab.dayLoop
      (fun day dow => tab.domMatches year month day monthEnd && tab.dowMatches dow day monthEnd)
      year month monthEnd day (cronWeekday year month day) tod

end CronTab

/-- `_next_in`: the first element of a sorted tuple above `current`. -/
def nextIn {α : Type} [LinearOrder α] (ordered : List α) (current : α) : Option α :=
  ordered[bisectRight ordered current]?

lemma first_nextIn {α : Type} [LinearOrder α] {lo hi : α} (column : Column lo hi) (x : α) :
    First {v | v ∈ column.values ∧ x < v} (nextIn column.values x) :=
  first_bisectRight column.sorted x

lemma lt_of_nextIn {α : Type} [LinearOrder α] {lo hi : α} {column : Column lo hi} {x y : α}
    (h : nextIn column.values x = some y) : x < y ∧ y ≤ hi := by
  have hfirst := first_nextIn column x
  rw [h] at hfirst
  exact ⟨hfirst.1.2, (column.bounds y hfirst.1.1).2⟩

namespace CronTab

variable (tab : CronTab)

/-- The loop of `_next_civil` over years and months. -/
def nextCivilLoop (year : ℤ) (month : ℕ) (day : ℤ) (tod : Option ℤ) : Option ℤ :=
  if hyear : year ≤ yearHorizon then
    match hyears : tab.years.bind fun years =>
        if years.values.contains year then none else some (nextIn years.values year) with
    | some none => none
    | some (some nextYear) => nextCivilLoop nextYear 1 1 none
    | none =>
      if tab.months.values.contains month then
        match tab.nextDay year month day tod with
        | some found => some found
        | none =>
          if 12 < month + 1 then nextCivilLoop (year + 1) 1 1 none
          else nextCivilLoop year (month + 1) 1 none
      else
        match hmonth : nextIn tab.months.values month with
        | none => nextCivilLoop (year + 1) (tab.months.values.head tab.months_ne) 1 none
        | some next => nextCivilLoop year next 1 none
  else none
termination_by ((yearHorizon + 1 - year).toNat, 13 - month)
decreasing_by
  · obtain ⟨years, -, hnext⟩ := Option.bind_eq_some_iff.mp hyears
    split at hnext
    · cases hnext
    · have := (lt_of_nextIn (Option.some.inj hnext)).1
      apply Prod.Lex.left
      omega
  · apply Prod.Lex.left
    omega
  · apply Prod.Lex.right
    omega
  · apply Prod.Lex.left
    omega
  · have := lt_of_nextIn hmonth
    apply Prod.Lex.right
    omega

/-- `_next_civil`: the first whole-second match strictly after a naive date-time. -/
def nextCivil (civil : ℤ) : Option ℤ :=
  let base := civil / second * second + second
  tab.nextCivilLoop (getYear base) (getMonth base) (getDay base) (some base)

end CronTab

end Cronstable.CronExpr

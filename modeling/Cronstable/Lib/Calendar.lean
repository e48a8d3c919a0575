import Mathlib.Tactic.IntervalCases

/-!
# The proleptic Gregorian calendar

Dates of every integer year, numbered by their ordinal (1 January of year 1 is day 1), and naive
date-times as microseconds on one integer line: midnight of day `n` is `n` days of microseconds.
Order, difference and shift of date-times are then those of the integers, and the fields of a
date-time are read back from the line.

## Main results

* `isDate_fields`, `ordinal_fields`: every day number is the ordinal of the date read from it;
* `ordinal_lt_iff`, `le_iff_fields`: ordinals and date-times follow the order of the fields;
* `fields_datetime`, `datetime_fields`: fields and whole-second date-times determine each other.
-/

namespace Calendar

/-! ## Years and months -/

/-- The Gregorian leap rule. -/
def isLeap (y : ℤ) : Bool := y % 4 == 0 && (y % 100 != 0 || y % 400 == 0)

lemma isLeap_iff (y : ℤ) : isLeap y = true ↔ y % 4 = 0 ∧ (y % 100 ≠ 0 ∨ y % 400 = 0) := by
  simp [isLeap]

/-- The length of a month. -/
def daysInMonth (y m : ℤ) : ℤ :=
  if m = 2 then if isLeap y then 29 else 28
  else if m = 4 ∨ m = 6 ∨ m = 9 ∨ m = 11 then 30
  else 31

/-- The days before 1 January of year `y`. -/
def daysBeforeYear (y : ℤ) : ℤ := (y - 1) * 365 + (y - 1) / 4 - (y - 1) / 100 + (y - 1) / 400

/-- The days of a year before its month `m`. -/
def daysBeforeMonth (y : ℤ) : ℕ → ℤ
  | 0 | 1 => 0
  | m + 2 => daysBeforeMonth y (m + 1) + daysInMonth y (m + 1)

lemma daysBeforeYear_succ (y : ℤ) :
    daysBeforeYear (y + 1) = daysBeforeYear y + if isLeap y then 366 else 365 := by
  have hleap := isLeap_iff y
  unfold daysBeforeYear
  split
  next h =>
    have := hleap.mp h
    omega
  next h =>
    have : ¬(y % 4 = 0 ∧ (y % 100 ≠ 0 ∨ y % 400 = 0)) := fun hy => h (hleap.mpr hy)
    omega

variable {y y' : ℤ}

lemma daysInMonth_pos (y m : ℤ) : 28 ≤ daysInMonth y m ∧ daysInMonth y m ≤ 31 := by
  unfold daysInMonth
  split_ifs <;> omega

variable {m : ℕ}

/-- The months of a year follow each other. -/
theorem daysBeforeMonth_succ (y : ℤ) (h : 1 ≤ m) :
    daysBeforeMonth y (m + 1) = daysBeforeMonth y m + daysInMonth y m := by
  cases m with
  | zero => omega
  | succ m => simp [daysBeforeMonth]

variable {m' : ℕ}

lemma daysBeforeMonth_lt (y : ℤ) (h : 1 ≤ m) (hlt : m < m') :
    daysBeforeMonth y m + daysInMonth y m ≤ daysBeforeMonth y m' := by
  induction m', hlt using Nat.le_induction with
  | base => exact (daysBeforeMonth_succ y h).ge
  | succ k hk ih =>
    have hk1 : 1 ≤ k := by omega
    have := daysInMonth_pos y k
    rw [daysBeforeMonth_succ y hk1]
    omega

/-- The twelve months make up the year. -/
theorem daysBeforeMonth_thirteen (y : ℤ) :
    daysBeforeMonth y 13 = if isLeap y then 366 else 365 := by
  cases h : isLeap y <;> simp [daysBeforeMonth, daysInMonth, h]

/-! ## Ordinals -/

/-- The fields name a day. -/
structure IsDate (y : ℤ) (m : ℕ) (d : ℤ) : Prop where
  month : 1 ≤ m ∧ m ≤ 12
  day : 1 ≤ d ∧ d ≤ daysInMonth y m

/-- The number of a day. -/
def ordinal (y : ℤ) (m : ℕ) (d : ℤ) : ℤ := daysBeforeYear y + daysBeforeMonth y m + d

/-- The first day of a year, counted as a thirteenth month of the year before. -/
theorem ordinal_next_year (y : ℤ) : ordinal y 13 1 = ordinal (y + 1) 1 1 := by
  unfold ordinal
  rw [daysBeforeMonth_thirteen, daysBeforeYear_succ]
  simp [daysBeforeMonth]

variable {d : ℤ}

lemma IsDate.ordinal_lt_next_month (h : IsDate y m d) : ordinal y m d < ordinal y (m + 1) 1 := by
  obtain ⟨⟨hm, -⟩, -, hd⟩ := h
  unfold ordinal
  rw [daysBeforeMonth_succ y hm]
  omega

lemma ordinal_month_mono (h : 1 ≤ m) (hle : m ≤ m') : ordinal y m 1 ≤ ordinal y m' 1 := by
  rcases Nat.eq_or_lt_of_le hle with rfl | hlt
  · exact le_rfl
  · have hbefore := daysBeforeMonth_lt y h hlt
    have := daysInMonth_pos y m
    unfold ordinal
    omega

lemma ordinal_year_mono (h : y ≤ y') : ordinal y 1 1 ≤ ordinal y' 1 1 := by
  simp only [ordinal, daysBeforeMonth, daysBeforeYear]
  omega

section

variable (h : IsDate y m d)

include h

lemma IsDate.first_le : ordinal y m 1 ≤ ordinal y m d := by
  have := h.day.1
  unfold ordinal
  omega

/-- Within a year, a later month has later days. -/
theorem ordinal_lt_of_month_lt (hlt : m < m') : ordinal y m d < ordinal y m' 1 :=
  calc ordinal y m d < ordinal y (m + 1) 1 := h.ordinal_lt_next_month
    _ ≤ ordinal y m' 1 := ordinal_month_mono (by omega) hlt

/-- A later year has later days. -/
theorem ordinal_lt_of_year_lt (hlt : y < y') : ordinal y m d < ordinal y' 1 1 :=
  calc ordinal y m d < ordinal y 13 1 := ordinal_lt_of_month_lt h (by have := h.month; omega)
    _ = ordinal (y + 1) 1 1 := ordinal_next_year y
    _ ≤ ordinal y' 1 1 := ordinal_year_mono hlt

/-- Ordinals follow the order of the fields. -/
theorem ordinal_lt {d' : ℤ} (h' : IsDate y' m' d')
    (hlt : y < y' ∨ y = y' ∧ (m < m' ∨ m = m' ∧ d < d')) : ordinal y m d < ordinal y' m' d' := by
  rcases hlt with hlt | ⟨rfl, hlt | ⟨rfl, hlt⟩⟩
  · exact (ordinal_lt_of_year_lt h hlt).trans_le
      ((ordinal_month_mono le_rfl h'.month.1).trans h'.first_le)
  · exact (ordinal_lt_of_month_lt h hlt).trans_le h'.first_le
  · unfold ordinal
    omega

lemma ordinal_lt_iff {d' : ℤ} (h' : IsDate y' m' d') :
    ordinal y m d < ordinal y' m' d' ↔ y < y' ∨ y = y' ∧ (m < m' ∨ m = m' ∧ d < d') := by
  refine ⟨fun hlt => ?_, ordinal_lt h h'⟩
  by_contra hnot
  have hrev : y' < y ∨ y' = y ∧ (m' < m ∨ m' = m ∧ d' < d) ∨ y = y' ∧ m = m' ∧ d = d' := by omega
  rcases hrev with hrev | ⟨rfl, hrev⟩ | ⟨rfl, rfl, rfl⟩
  · have := ordinal_lt h' h (.inl hrev)
    omega
  · have := ordinal_lt h' h (.inr ⟨rfl, hrev⟩)
    omega
  · omega

/-- A day has one date. -/
theorem ordinal_inj {d' : ℤ} (h' : IsDate y' m' d') (heq : ordinal y m d = ordinal y' m' d') :
    y = y' ∧ m = m' ∧ d = d' := by
  have hlt := mt (ordinal_lt h h') heq.not_lt
  have hgt := mt (ordinal_lt h' h) heq.not_gt
  omega

end

/-! ## Dates of ordinals -/

/-- The year of day `n`, by whole cycles of 400, 100, 4 and 1 years. -/
def yearOf (n : ℤ) : ℤ :=
  let r := (n - 1) % 146097
  let n100 := r / 36524
  let r₁ := r % 36524
  let n1 := r₁ % 1461 / 365
  let year := (n - 1) / 146097 * 400 + n100 * 100 + r₁ / 1461 * 4 + n1
  -- the last day of a leap cycle still belongs to it
  if n1 = 4 ∨ n100 = 4 then year else year + 1

/-- The days of whole cycles of 400, 100, 4 and 1 years. -/
private lemma daysBeforeYear_cycles (n400 n100 n4 n1 : ℤ) (h100 : 0 ≤ n100 ∧ n100 ≤ 3)
    (h4 : 0 ≤ n4 ∧ n4 ≤ 24) (h1 : 0 ≤ n1 ∧ n1 ≤ 3) :
    daysBeforeYear (n400 * 400 + n100 * 100 + n4 * 4 + n1 + 1) =
      n400 * 146097 + n100 * 36524 + n4 * 1461 + n1 * 365 := by
  have hquarter : (n400 * 400 + n100 * 100 + n4 * 4 + n1) / 4 = n400 * 100 + n100 * 25 + n4 := by
    omega
  have hcentury : (n400 * 400 + n100 * 100 + n4 * 4 + n1) / 100 = n400 * 4 + n100 := by omega
  have hcycle : (n400 * 400 + n100 * 100 + n4 * 4 + n1) / 400 = n400 := by omega
  rw [daysBeforeYear, add_sub_cancel_right, hquarter, hcentury]
  omega

/-- A year holds its days. -/
theorem yearOf_spec (n : ℤ) :
    daysBeforeYear (yearOf n) < n ∧ n ≤ daysBeforeYear (yearOf n + 1) := by
  have hsucc := daysBeforeYear_succ (yearOf n)
  obtain ⟨n400, hn400⟩ : ∃ x, x = (n - 1) / 146097 := ⟨_, rfl⟩
  obtain ⟨n100, hn100⟩ : ∃ x, x = (n - 1) % 146097 / 36524 := ⟨_, rfl⟩
  obtain ⟨n4, hn4⟩ : ∃ x, x = (n - 1) % 146097 % 36524 / 1461 := ⟨_, rfl⟩
  obtain ⟨n1, hn1⟩ : ∃ x, x = (n - 1) % 146097 % 36524 % 1461 / 365 := ⟨_, rfl⟩
  by_cases hlast : n1 = 4 ∨ n100 = 4
  · -- the 366th day of a leap year
    have hyear : yearOf n = n400 * 400 + n100 * 100 + n4 * 4 + n1 := by
      subst hn400 hn100 hn4 hn1
      exact if_pos hlast
    have hleap : isLeap (yearOf n) = true := by
      rw [isLeap_iff]
      omega
    rw [hleap, if_pos rfl] at hsucc
    have hdays : daysBeforeYear (yearOf n) = n - 366 := by
      rcases hlast with hlast | hlast
      · have hcycles := daysBeforeYear_cycles n400 n100 n4 3 (by omega) (by omega) (by omega)
        rw [hyear, show n400 * 400 + n100 * 100 + n4 * 4 + n1 =
          n400 * 400 + n100 * 100 + n4 * 4 + 3 + 1 by omega]
        omega
      · have hcycles := daysBeforeYear_cycles n400 3 24 3 (by omega) (by omega) (by omega)
        rw [hyear, show n400 * 400 + n100 * 100 + n4 * 4 + n1 =
          n400 * 400 + 3 * 100 + 24 * 4 + 3 + 1 by omega]
        omega
    omega
  · have hyear : yearOf n = n400 * 400 + n100 * 100 + n4 * 4 + n1 + 1 := by
      subst hn400 hn100 hn4 hn1
      exact if_neg hlast
    have hdays : daysBeforeYear (yearOf n) =
        n400 * 146097 + n100 * 36524 + n4 * 1461 + n1 * 365 := by
      rw [hyear]
      exact daysBeforeYear_cycles n400 n100 n4 n1 (by omega) (by omega) (by omega)
    split at hsucc <;> omega

/-- The last of the months `1 … k` that starts before day `doy` of the year. -/
def monthOf (y doy : ℤ) : ℕ → ℕ
  | 0 => 1
  | k + 1 => if daysBeforeMonth y (k + 1) < doy then k + 1 else monthOf y doy k

lemma monthOf_spec (y : ℤ) {doy : ℤ} (hpos : 0 < doy) {k : ℕ} (hk : 1 ≤ k) :
    1 ≤ monthOf y doy k ∧ monthOf y doy k ≤ k ∧ daysBeforeMonth y (monthOf y doy k) < doy ∧
      (monthOf y doy k = k ∨ doy ≤ daysBeforeMonth y (monthOf y doy k + 1)) := by
  induction k, hk using Nat.le_induction with
  | base => simp [monthOf, daysBeforeMonth, hpos]
  | succ k hk ih =>
    rw [monthOf]
    split
    next h => exact ⟨by omega, le_rfl, h, .inl rfl⟩
    next h =>
      obtain ⟨h1, hle, hlt, hnext⟩ := ih
      refine ⟨h1, by omega, hlt, .inr ?_⟩
      rcases hnext with heq | hnext
      · rw [heq]
        omega
      · exact hnext

/-! ## Date-times -/

/-- Microseconds. -/
def second : ℤ := 1000000

def minute : ℤ := 60 * second

def hour : ℤ := 60 * minute

def day : ℤ := 24 * hour

/-- A whole-second date-time. -/
def datetime (y : ℤ) (m : ℕ) (d h mi s : ℤ) : ℤ :=
  ordinal y m d * day + h * hour + mi * minute + s * second

section Fields

variable (c : ℤ)

/-- The day a date-time falls on. -/
def dayNumber : ℤ := c / day

def getYear : ℤ := yearOf (dayNumber c)

def getMonth : ℕ := monthOf (getYear c) (dayNumber c - daysBeforeYear (getYear c)) 12

def getDay : ℤ :=
  dayNumber c - daysBeforeYear (getYear c) - daysBeforeMonth (getYear c) (getMonth c)

def getHour : ℤ := c / hour % 24

def getMinute : ℤ := c / minute % 60

def getSecond : ℤ := c / second % 60

/-- Monday is 0. -/
def weekday (n : ℤ) : ℤ := (n + 6) % 7

end Fields

/-- The ordinal of the date read from a day is its number. -/
theorem ordinal_fields (c : ℤ) : ordinal (getYear c) (getMonth c) (getDay c) = dayNumber c := by
  unfold ordinal getDay
  omega

/-- What is read from a date-time names a day. -/
theorem isDate_fields (c : ℤ) : IsDate (getYear c) (getMonth c) (getDay c) := by
  obtain ⟨hlo, hhi⟩ := yearOf_spec (dayNumber c)
  have hpos : 0 < dayNumber c - daysBeforeYear (getYear c) := by
    unfold getYear
    omega
  obtain ⟨h1, h12, hlt, hnext⟩ := monthOf_spec (getYear c) hpos (k := 12) (by omega)
  have hdoy : dayNumber c - daysBeforeYear (getYear c) ≤ daysBeforeMonth (getYear c) 13 := by
    rw [daysBeforeMonth_thirteen]
    have hsucc := daysBeforeYear_succ (getYear c)
    unfold getYear at hsucc ⊢
    omega
  have hend : dayNumber c - daysBeforeYear (getYear c) ≤
      daysBeforeMonth (getYear c) (getMonth c + 1) := by
    rcases hnext with heq | hnext
    · rw [getMonth, heq]
      exact hdoy
    · exact hnext
  rw [daysBeforeMonth_succ _ (m := getMonth c) h1] at hend
  refine ⟨⟨h1, h12⟩, ?_, ?_⟩
  · change daysBeforeMonth (getYear c) (getMonth c) < _ at hlt
    unfold getDay
    omega
  · unfold getDay
    omega

/-- The fields of a time of day. -/
structure IsTime (h mi s : ℤ) : Prop where
  hour : 0 ≤ h ∧ h ≤ 23
  minute : 0 ≤ mi ∧ mi ≤ 59
  second : 0 ≤ s ∧ s ≤ 59

/-- The units in microseconds. -/
theorem units : second = 1000000 ∧ minute = 60000000 ∧ hour = 3600000000 ∧ day = 86400000000 := by
  decide

/-- A whole-second date-time is made of the fields read from it. -/
theorem datetime_fields {c : ℤ} (h : second ∣ c) :
    datetime (getYear c) (getMonth c) (getDay c) (getHour c) (getMinute c) (getSecond c) = c := by
  obtain ⟨hs, hm, hh, hd⟩ := units
  rw [hs] at h
  rw [datetime, ordinal_fields]
  unfold dayNumber getHour getMinute getSecond
  rw [hs, hm, hh, hd]
  omega

lemma dayNumber_datetime {h mi s : ℤ} (ht : IsTime h mi s) :
    dayNumber (datetime y m d h mi s) = ordinal y m d := by
  obtain ⟨hs, hm, hh, hd⟩ := units
  obtain ⟨hhour, hmin, hsec⟩ := ht
  unfold dayNumber datetime
  rw [hs, hm, hh, hd]
  omega

/-- The fields a date-time is made of are read back. -/
theorem fields_datetime {h mi s : ℤ} (hdate : IsDate y m d) (ht : IsTime h mi s) :
    getYear (datetime y m d h mi s) = y ∧ getMonth (datetime y m d h mi s) = m ∧
      getDay (datetime y m d h mi s) = d ∧ getHour (datetime y m d h mi s) = h ∧
      getMinute (datetime y m d h mi s) = mi ∧ getSecond (datetime y m d h mi s) = s := by
  have hnum := dayNumber_datetime (y := y) (m := m) (d := d) ht
  obtain ⟨hy, hm, hd⟩ := ordinal_inj (isDate_fields (datetime y m d h mi s)) hdate
    (by rw [ordinal_fields, hnum])
  refine ⟨hy, hm, hd, ?_⟩
  obtain ⟨hus, hum, huh, hud⟩ := units
  obtain ⟨hhour, hmin, hsec⟩ := ht
  unfold getHour getMinute getSecond datetime
  rw [hus, hum, huh, hud]
  omega

lemma second_dvd_datetime (y : ℤ) (m : ℕ) (d h mi s : ℤ) : second ∣ datetime y m d h mi s := by
  obtain ⟨hus, hum, huh, hud⟩ := units
  unfold datetime
  rw [hus, hum, huh, hud]
  omega

/-- Days follow the order of their dates. -/
theorem dayNumber_lt_iff (c c' : ℤ) : dayNumber c < dayNumber c' ↔ getYear c < getYear c' ∨
    getYear c = getYear c' ∧ (getMonth c < getMonth c' ∨
      getMonth c = getMonth c' ∧ getDay c < getDay c') := by
  rw [← ordinal_fields c, ← ordinal_fields c', ordinal_lt_iff (isDate_fields c) (isDate_fields c')]

lemma lt_of_dayNumber_lt {c c' : ℤ} (h : dayNumber c < dayNumber c') : c < c' := by
  unfold dayNumber at h
  simp only [units] at h
  omega

/-- Whole-second date-times follow the order of their fields. -/
theorem le_iff_fields {c c' : ℤ} (h : second ∣ c) (h' : second ∣ c') :
    c ≤ c' ↔ getYear c < getYear c' ∨ getYear c = getYear c' ∧ (getMonth c < getMonth c' ∨
      getMonth c = getMonth c' ∧ (getDay c < getDay c' ∨ getDay c = getDay c' ∧
        (getHour c < getHour c' ∨ getHour c = getHour c' ∧ (getMinute c < getMinute c' ∨
          getMinute c = getMinute c' ∧ getSecond c ≤ getSecond c')))) := by
  have hlt := dayNumber_lt_iff c c'
  have hgt := dayNumber_lt_iff c' c
  rcases lt_trichotomy (dayNumber c) (dayNumber c') with hday | hday | hday
  · have := lt_of_dayNumber_lt hday
    omega
  · -- on one day the order is that of the time of day
    have htime : c ≤ c' ↔ getHour c < getHour c' ∨ getHour c = getHour c' ∧
        (getMinute c < getMinute c' ∨ getMinute c = getMinute c' ∧ getSecond c ≤ getSecond c') := by
      unfold dayNumber at hday
      unfold getHour getMinute getSecond
      simp only [units] at *
      omega
    omega
  · have := lt_of_dayNumber_lt hday
    omega

end Calendar

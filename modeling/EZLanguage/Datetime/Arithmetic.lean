import EZLanguage.Datetime.Civil
import EZLanguage.Support.Periods

/-!
# Calendar arithmetic

Months are moved in the month field with the day clamped. Days, weeks, months and years are periods of
the line of timestamps, and the ISO weeks are numbered by their Thursdays.
-/

namespace EZLanguage

namespace Datetime

/-! ### Months -/

def addMonths (ts months : Int) : Int :=
  let c := componentsUtc ts
  let total := c.year * 12 + (c.month - 1) + months
  let year := floorDivide total 12
  let month := positiveMod total 12 + 1
  let limit := daysInMonthOf year month
  let day := if c.day > limit then limit else c.day
  timestampUtc year month day c.hour c.minute c.second c.millisecond

/-- The months counted from the January of year 0. -/
def Date.monthNumber (date : Date) : Int := date.year * 12 + (date.month - 1)

/-- A date and a part of a day are what they make up. -/
theorem date_of_sum {date : Date} (hdate : date.Valid) {t : Int} (h0 : 0 ≤ t) (hlt : t < MS_PER_DAY) :
    (componentsUtc (date.days * MS_PER_DAY + t)).toDate = date ∧
      (date.days * MS_PER_DAY + t) % MS_PER_DAY = t := by
  have hdiv : (date.days * MS_PER_DAY + t) / MS_PER_DAY = date.days := by
    unfold MS_PER_DAY at *
    omega
  rw [componentsUtc_date, hdiv, civilFromDays_days hdate]
  refine ⟨rfl, ?_⟩
  unfold MS_PER_DAY at *
  omega

/-- The date of `addMonths`. -/
def monthsLater (date : Date) (months : Int) : Date :=
  let total := date.monthNumber + months
  { year := total / 12
    month := total % 12 + 1
    day := min date.day (daysInMonthOf (total / 12) (total % 12 + 1)) }

theorem monthsLater_valid {date : Date} (hdate : date.Valid) (months : Int) :
    (monthsLater date months).Valid := by
  obtain ⟨-, -, hd1, -⟩ := hdate
  have hlength := daysInMonthOf_bounds ((date.monthNumber + months) / 12)
    ((date.monthNumber + months) % 12 + 1)
  refine ⟨?_, ?_, ?_, ?_⟩
  · dsimp only [monthsLater]
    omega
  · dsimp only [monthsLater]
    omega
  · dsimp only [monthsLater]
    omega
  · exact Int.min_le_right _ _

theorem addMonths_eq (ts months : Int) :
    addMonths ts months =
      (monthsLater (componentsUtc ts).toDate months).days * MS_PER_DAY + ts % MS_PER_DAY := by
  have hmin : ∀ a b : Int, (if a > b then b else a) = min a b := by
    intro a b
    split <;> omega
  rw [addMonths]
  simp only [floorDivide_eq _ (by decide : (0 : Int) ≤ 12), positiveMod_eq _ (by decide : (0 : Int) < 12),
    hmin, timestampUtc_time]
  rfl

/-! ### Periods -/

def startOfDay (ts : Int) : Int :=
  let c := componentsUtc ts
  timestampUtc c.year c.month c.day 0 0 0 0

def endOfDay (ts : Int) : Int := startOfDay ts + MS_PER_DAY - 1

def startOfWeek (ts firstDay : Int) : Int :=
  let c := componentsUtc ts
  let shift := positiveMod (c.weekday - firstDay) 7
  startOfDay ts - shift * MS_PER_DAY

def endOfWeek (ts firstDay : Int) : Int := startOfWeek ts firstDay + 7 * MS_PER_DAY - 1

def startOfMonth (ts : Int) : Int :=
  let c := componentsUtc ts
  timestampUtc c.year c.month 1 0 0 0 0

def endOfMonth (ts : Int) : Int :=
  let c := componentsUtc ts
  timestampUtc c.year c.month (daysInMonthOf c.year c.month) 23 59 59 999

def startOfYear (ts : Int) : Int := timestampUtc (componentsUtc ts).year 1 1 0 0 0 0

def endOfYear (ts : Int) : Int := timestampUtc (componentsUtc ts).year 12 31 23 59 59 999

theorem timestampUtc_first (y mo d : Int) :
    timestampUtc y mo d 0 0 0 0 = daysFromCivil y mo d * MS_PER_DAY := by
  simp [timestampUtc]

theorem timestampUtc_last (y mo d : Int) :
    timestampUtc y mo d 23 59 59 999 = (daysFromCivil y mo d + 1) * MS_PER_DAY - 1 := by
  unfold timestampUtc MS_PER_DAY MS_PER_HOUR MS_PER_MINUTE MS_PER_SECOND
  omega

theorem startOfDay_eq (ts : Int) : startOfDay ts = ts / MS_PER_DAY * MS_PER_DAY := by
  have hdays := days_civilFromDays (ts / MS_PER_DAY)
  rw [← componentsUtc_date, Date.days] at hdays
  rw [startOfDay, timestampUtc_first, hdays]

theorem startOfWeek_eq (ts firstDay : Int) : startOfWeek ts firstDay =
    (ts / MS_PER_DAY - (ts / MS_PER_DAY + 4 - firstDay) % 7) * MS_PER_DAY := by
  rw [startOfWeek, startOfDay_eq, positiveMod_eq _ (by decide), componentsUtc_weekday, Int.sub_mul]
  have hmod : ((ts / MS_PER_DAY + 4) % 7 - firstDay) % 7 = (ts / MS_PER_DAY + 4 - firstDay) % 7 := by
    omega
  rw [hmod]

/-- Instants of days from bounds on days. -/
theorem instant_between {ts a b : Int} (ha : a ≤ ts / MS_PER_DAY) (hb : ts / MS_PER_DAY < b) :
    a * MS_PER_DAY ≤ ts ∧ ts < b * MS_PER_DAY := by
  unfold MS_PER_DAY at *
  omega

theorem bound_lt {a b : Int} (h : a < b) : a * MS_PER_DAY < b * MS_PER_DAY := by
  unfold MS_PER_DAY
  omega

theorem periods_day : Periods startOfDay endOfDay := by
  apply Periods.of_indices (b := fun i => i * MS_PER_DAY) (n := fun ts => ts / MS_PER_DAY)
  · intro i
    exact bound_lt (by omega)
  · intro ts
    exact instant_between (Int.le_refl _) (by omega)
  · exact startOfDay_eq
  · intro ts
    rw [endOfDay, startOfDay_eq, Int.add_mul, Int.one_mul]

theorem periods_week (firstDay : Int) :
    Periods (fun ts => startOfWeek ts firstDay) (fun ts => endOfWeek ts firstDay) := by
  apply Periods.of_indices (b := fun i => (7 * i + firstDay - 4) * MS_PER_DAY)
    (n := fun ts => (ts / MS_PER_DAY + 4 - firstDay) / 7)
  · intro i
    exact bound_lt (by omega)
  · intro ts
    exact instant_between (by omega) (by omega)
  · intro ts
    rw [startOfWeek_eq]
    congr 1
    omega
  · intro ts
    rw [endOfWeek, startOfWeek_eq]
    unfold MS_PER_DAY
    omega

/-- The first day of a month. -/
def monthFirst (i : Int) : Int := daysFromCivil (i / 12) (i % 12 + 1) 1

theorem monthFirst_succ (i : Int) :
    monthFirst (i + 1) = monthFirst i + daysInMonthOf (i / 12) (i % 12 + 1) := by
  unfold monthFirst
  by_cases hlast : i % 12 = 11
  · have hyear : (i + 1) / 12 = i / 12 + 1 := by omega
    have hmonth : (i + 1) % 12 + 1 = 1 := by omega
    rw [hyear, hmonth, hlast, daysFromCivil_year]
    simp [daysInMonthOf]
  · have hyear : (i + 1) / 12 = i / 12 := by omega
    have hmonth : (i + 1) % 12 + 1 = i % 12 + 1 + 1 := by omega
    rw [hyear, hmonth, daysFromCivil_month (by omega) (by omega)]

theorem monthNumber_valid {date : Date} (hdate : date.Valid) :
    date.monthNumber / 12 = date.year ∧ date.monthNumber % 12 + 1 = date.month := by
  obtain ⟨hm1, hm12, -, -⟩ := hdate
  unfold Date.monthNumber
  constructor <;> omega

theorem monthFirst_date {date : Date} (hdate : date.Valid) :
    monthFirst date.monthNumber = daysFromCivil date.year date.month 1 := by
  obtain ⟨hyear, hmonth⟩ := monthNumber_valid hdate
  rw [monthFirst, hyear, hmonth]

theorem monthFirst_between {date : Date} (hdate : date.Valid) :
    monthFirst date.monthNumber ≤ date.days ∧ date.days < monthFirst (date.monthNumber + 1) := by
  obtain ⟨hyear, hmonth⟩ := monthNumber_valid hdate
  obtain ⟨-, -, hd1, hd⟩ := hdate
  rw [monthFirst_succ, hyear, hmonth, monthFirst, hyear, hmonth, Date.days,
    daysFromCivil_day _ _ date.day]
  constructor <;> omega

theorem date_valid (ts : Int) : (componentsUtc ts).toDate.Valid := (componentsUtc_inRange ts).date

theorem date_days (ts : Int) : (componentsUtc ts).toDate.days = ts / MS_PER_DAY := by
  rw [componentsUtc_date, days_civilFromDays]

theorem periods_month : Periods startOfMonth endOfMonth := by
  apply Periods.of_indices (b := fun i => monthFirst i * MS_PER_DAY)
    (n := fun ts => (componentsUtc ts).toDate.monthNumber)
  · intro i
    have hlength := daysInMonthOf_bounds (i / 12) (i % 12 + 1)
    have hnext := monthFirst_succ i
    exact bound_lt (by omega)
  · intro ts
    obtain ⟨hle, hlt⟩ := monthFirst_between (date_valid ts)
    rw [date_days] at hle hlt
    exact instant_between hle hlt
  · intro ts
    rw [startOfMonth, timestampUtc_first, monthFirst_date (date_valid ts)]
  · intro ts
    obtain ⟨hyear, hmonth⟩ := monthNumber_valid (date_valid ts)
    rw [endOfMonth, timestampUtc_last, monthFirst_succ, hyear, hmonth, monthFirst_date (date_valid ts),
      daysFromCivil_day, Int.sub_add_cancel]

theorem periods_year : Periods startOfYear endOfYear := by
  apply Periods.of_indices (b := fun year => daysFromCivil year 1 1 * MS_PER_DAY)
    (n := fun ts => (componentsUtc ts).year)
  · intro year
    have hnext := daysFromCivil_newYear year
    apply bound_lt
    split at hnext <;> omega
  · intro ts
    have hle := newYear_le (date_valid ts)
    have hlt := lt_newYear (date_valid ts)
    rw [date_days] at hle hlt
    exact instant_between hle hlt
  · intro ts
    rw [startOfYear, timestampUtc_first]
  · intro ts
    rw [endOfYear, timestampUtc_last, daysFromCivil_year, daysFromCivil_day _ 12 31]
    congr 2
    omega

/-! ### Weeks of the year -/

structure IsoWeek where
  year : Int
  week : Int
  deriving DecidableEq

/-- The week with the first Thursday of a year is its first. -/
def isoWeek (ms : Int) : IsoWeek :=
  let parts := componentsUtc ms
  let weekday := positiveMod (parts.weekday + 6) 7
  let thursday := parts.days - weekday + 3
  let thursdayYear := (civilFromDays thursday).year
  let firstThursdayJan := daysFromCivil thursdayYear 1 1
  let firstWeekday := positiveMod (weekdayFromDays firstThursdayJan + 6) 7
  let week1Monday := firstThursdayJan - firstWeekday
  let week1Monday := if firstWeekday > 3 then week1Monday + 7 else week1Monday
  { year := thursdayYear, week := floorDivide (thursday - week1Monday) 7 + 1 }

/-- The day of the Thursday of the week, from Monday to Sunday, of an instant. -/
def thursdayOf (ms : Int) : Int := startOfWeek ms 1 / MS_PER_DAY + 3

theorem thursdayOf_eq (ms : Int) : thursdayOf ms = (ms / MS_PER_DAY + 3) / 7 * 7 := by
  rw [thursdayOf, startOfWeek_eq]
  unfold MS_PER_DAY
  omega

theorem newYear_le_civil (days : Int) : daysFromCivil (civilFromDays days).year 1 1 ≤ days :=
  ((civilFromDays_year_iff days _).mp rfl).1

theorem civil_lt_newYear (days : Int) : days < daysFromCivil ((civilFromDays days).year + 1) 1 1 :=
  ((civilFromDays_year_iff days _).mp rfl).2

theorem year_lt_of_lt {days year : Int} (h : days < daysFromCivil year 1 1) :
    (civilFromDays days).year < year := by
  have hle := newYear_le_civil days
  apply Int.not_le.mp
  intro hge
  have hmono := newYear_mono hge
  omega

/-- The number of a week is the place of its Thursday among those of the year. -/
theorem isoWeek_eq (ms : Int) : isoWeek ms =
    { year := (civilFromDays (thursdayOf ms)).year
      week := (thursdayOf ms -
        daysFromCivil (civilFromDays (thursdayOf ms)).year 1 1) / 7 + 1 } := by
  have hthursday : ms / MS_PER_DAY - ((ms / MS_PER_DAY + 4) % 7 + 6) % 7 + 3 = thursdayOf ms := by
    rw [thursdayOf_eq]
    omega
  have hseven : thursdayOf ms % 7 = 0 := by
    rw [thursdayOf_eq]
    omega
  rw [isoWeek]
  simp only [positiveMod_eq _ (by decide : (0 : Int) < 7), componentsUtc_weekday, componentsUtc_days,
    hthursday, weekdayFromDays_eq, floorDivide_eq _ (by decide : (0 : Int) ≤ 7)]
  congr 2
  generalize daysFromCivil (civilFromDays (thursdayOf ms)).year 1 1 = first
  split <;> omega

theorem isoWeek_next (ms : Int) : isoWeek (ms + 7 * MS_PER_DAY) =
    if thursdayOf ms + 7 < daysFromCivil ((isoWeek ms).year + 1) 1 1 then
      { year := (isoWeek ms).year, week := (isoWeek ms).week + 1 }
    else { year := (isoWeek ms).year + 1, week := 1 } := by
  have hthursday : thursdayOf (ms + 7 * MS_PER_DAY) = thursdayOf ms + 7 := by
    rw [thursdayOf_eq, thursdayOf_eq]
    unfold MS_PER_DAY
    omega
  rw [isoWeek_eq, isoWeek_eq, hthursday]
  dsimp only
  have hle := newYear_le_civil (thursdayOf ms)
  have hlt := civil_lt_newYear (thursdayOf ms)
  split
  · next hsame =>
      have hyear := (civilFromDays_year_iff (thursdayOf ms + 7) _).mpr ⟨by omega, hsame⟩
      rw [hyear]
      congr 1
      omega
  · next hother =>
      have hlength := daysFromCivil_newYear ((civilFromDays (thursdayOf ms)).year + 1)
      have hyear : (civilFromDays (thursdayOf ms + 7)).year =
          (civilFromDays (thursdayOf ms)).year + 1 := by
        rw [civilFromDays_year_iff]
        split at hlength <;> omega
      rw [hyear]
      congr 1
      omega

/-- A week is numbered by the year of its Thursday and by its place from 1 among the weeks of that year. -/
structure Numbered (ms : Int) : Prop where
  year : (isoWeek ms).year = (civilFromDays (thursdayOf ms)).year
  first : 1 ≤ (isoWeek ms).week
  place : (civilFromDays (thursdayOf ms - 7 * ((isoWeek ms).week - 1))).year = (isoWeek ms).year
  before : (civilFromDays (thursdayOf ms - 7 * (isoWeek ms).week)).year < (isoWeek ms).year
  constant : ∀ t, startOfWeek ms 1 ≤ t → t ≤ endOfWeek ms 1 → isoWeek t = isoWeek ms
  next : isoWeek (ms + 7 * MS_PER_DAY) =
    if (civilFromDays (thursdayOf ms + 7)).year = (isoWeek ms).year then
      { year := (isoWeek ms).year, week := (isoWeek ms).week + 1 }
    else { year := (isoWeek ms).year + 1, week := 1 }

theorem isoWeek_numbered (ms : Int) : Numbered ms := by
  have hle := newYear_le_civil (thursdayOf ms)
  have hlt := civil_lt_newYear (thursdayOf ms)
  constructor
  · rw [isoWeek_eq]
  · rw [isoWeek_eq]
    dsimp only
    omega
  · rw [isoWeek_eq, civilFromDays_year_iff]
    dsimp only
    constructor <;> omega
  · rw [isoWeek_eq]
    apply year_lt_of_lt
    dsimp only
    omega
  · intro t hstart hend
    have hsame := ((periods_week 1).same ms t hstart hend).1
    have hthursday : thursdayOf t = thursdayOf ms := by
      rw [thursdayOf, thursdayOf]
      rw [hsame]
    rw [isoWeek_eq, isoWeek_eq, hthursday]
  · have hyear : thursdayOf ms + 7 < daysFromCivil ((isoWeek ms).year + 1) 1 1 ↔
        (civilFromDays (thursdayOf ms + 7)).year = (isoWeek ms).year := by
      rw [isoWeek_eq, civilFromDays_year_iff]
      dsimp only
      constructor
      · intro h
        exact ⟨by omega, h⟩
      · exact fun h => h.2
    rw [isoWeek_next]
    simp only [hyear]

/-- What `addMonths` gives: the month that many months later, the same time of day, and the day or the
last of the month. -/
structure MonthsLater (ms months : Int) : Prop where
  month : (componentsUtc (addMonths ms months)).toDate.monthNumber =
    (componentsUtc ms).toDate.monthNumber + months
  time : (componentsUtc (addMonths ms months)).hour = (componentsUtc ms).hour ∧
    (componentsUtc (addMonths ms months)).minute = (componentsUtc ms).minute ∧
    (componentsUtc (addMonths ms months)).second = (componentsUtc ms).second ∧
    (componentsUtc (addMonths ms months)).millisecond = (componentsUtc ms).millisecond
  day : (componentsUtc (addMonths ms months)).day = min (componentsUtc ms).day
    (daysInMonthOf (componentsUtc (addMonths ms months)).year
      (componentsUtc (addMonths ms months)).month)

theorem addMonths_later (ms months : Int) : MonthsLater ms months := by
  have hvalid := monthsLater_valid (date_valid ms) months
  have hbounds : 0 ≤ ms % MS_PER_DAY ∧ ms % MS_PER_DAY < MS_PER_DAY := by
    unfold MS_PER_DAY
    omega
  obtain ⟨hdate, htime⟩ := date_of_sum hvalid hbounds.1 hbounds.2
  rw [← addMonths_eq] at hdate htime
  have hlater := componentsUtc_time (addMonths ms months)
  have hparts := componentsUtc_time ms
  constructor
  · rw [hdate]
    unfold Date.monthNumber monthsLater
    dsimp only
    unfold Date.monthNumber
    omega
  · rw [hlater.1, hlater.2.1, hlater.2.2.1, hlater.2.2.2, htime, hparts.1, hparts.2.1, hparts.2.2.1,
      hparts.2.2.2]
    exact ⟨rfl, rfl, rfl, rfl⟩
  · rw [hdate]
    rfl

end Datetime

end EZLanguage

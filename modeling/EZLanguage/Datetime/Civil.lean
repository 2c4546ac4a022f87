/-!
# The calendar

Days are counted from 1970-01-01 and dates are those of the proleptic Gregorian calendar. The closed
forms count the years from March, so that the leap day is the last of a year. Numbers are integers:
`floorDivide` is the exact floor of its quotient.
-/

namespace EZLanguage

namespace Datetime

def MS_PER_SECOND : Int := 1000
def MS_PER_MINUTE : Int := 60000
def MS_PER_HOUR : Int := 3600000
def MS_PER_DAY : Int := 86400000

/-- Floors towards negative infinity. -/
def floorDivide (a b : Int) : Int := Int.fdiv a b

/-- A modulo that is never negative; `%` has the sign of its left operand. -/
def positiveMod (a b : Int) : Int :=
  let remainder := Int.tmod a b
  if remainder < 0 then remainder + b else remainder

def isLeapYear (year : Int) : Bool :=
  if Int.tmod year 4 ≠ 0 then false
  else if Int.tmod year 100 ≠ 0 then true
  else Int.tmod year 400 == 0

def daysInMonthOf (year month : Int) : Int :=
  if month = 2 then
    if isLeapYear year then 29 else 28
  else if month = 4 ∨ month = 6 ∨ month = 9 ∨ month = 11 then 30
  else 31

/-- Days since 1970-01-01 for a date. -/
def daysFromCivil (year month day : Int) : Int :=
  let y := if month ≤ 2 then year - 1 else year
  let era := floorDivide y 400
  let yoe := y - era * 400
  let shifted := if month ≤ 2 then month + 9 else month - 3
  let doy := floorDivide (153 * shifted + 2) 5 + day - 1
  let doe := yoe * 365 + floorDivide yoe 4 - floorDivide yoe 100 + doy
  era * 146097 + doe - 719468

structure Date where
  year : Int
  month : Int
  day : Int
  deriving DecidableEq

def civilFromDays (days : Int) : Date :=
  let z := days + 719468
  let era := floorDivide z 146097
  let doe := z - era * 146097
  let yoe := floorDivide
    (doe - floorDivide doe 1460 + floorDivide doe 36524 - floorDivide doe 146096) 365
  let y := yoe + era * 400
  let doy := doe - (365 * yoe + floorDivide yoe 4 - floorDivide yoe 100)
  let mp := floorDivide (5 * doy + 2) 153
  let d := doy - floorDivide (153 * mp + 2) 5 + 1
  let m := if mp ≥ 10 then mp - 9 else mp + 3
  { year := if m ≤ 2 then y + 1 else y, month := m, day := d }

theorem floorDivide_eq (a : Int) {b : Int} (hb : 0 ≤ b) : floorDivide a b = a / b :=
  Int.fdiv_eq_ediv_of_nonneg a hb

theorem positiveMod_eq (a : Int) {b : Int} (hb : 0 < b) : positiveMod a b = a % b := by
  have hnonneg := Int.emod_nonneg a (Int.ne_of_gt hb)
  have hlt := Int.emod_lt_of_pos a hb
  rw [positiveMod, Int.tmod_eq_emod]
  split <;> split <;> omega

theorem tmod_eq_zero (a b : Int) : Int.tmod a b = 0 ↔ a % b = 0 := by
  rw [← Int.dvd_iff_tmod_eq_zero, Int.dvd_iff_emod_eq_zero]

theorem isLeapYear_iff (year : Int) :
    isLeapYear year = true ↔ year % 4 = 0 ∧ (year % 100 ≠ 0 ∨ year % 400 = 0) := by
  simp only [isLeapYear, ne_eq, tmod_eq_zero]
  split
  · simp [*]
  · split
    · simp_all
    · simp_all [tmod_eq_zero]

/-! ### Years from March -/

/-- The days from the start of year 0 to that of year `y`, years counted from March. -/
def yearStart (y : Int) : Int := 365 * y + y / 4 - y / 100 + y / 400

/-- The days from the start of March to that of the month `mp` months behind it. -/
def monthStart (mp : Int) : Int := (153 * mp + 2) / 5

/-- The date of day `d` of the month `mp` months behind the March of year `y`. -/
def ofMarch (y mp d : Int) : Date where
  year := if mp ≥ 10 then y + 1 else y
  month := if mp ≥ 10 then mp - 9 else mp + 3
  day := d

theorem century_of_era {doe yoe : Int} (h0 : 0 ≤ doe) (hlast : doe < 146096)
    (hyoe : yoe = (doe - doe / 1460 + doe / 36524) / 365) : yoe / 100 = doe / 36524 := by
  have hcentury : doe / 36524 = 0 ∨ doe / 36524 = 1 ∨ doe / 36524 = 2 ∨ doe / 36524 = 3 := by omega
  obtain hcentury | hcentury | hcentury | hcentury := hcentury <;> rw [hcentury] at hyoe ⊢ <;> omega

/-- Day `doe` of an era is in year `yoe` of it. The last day of an era, of a century and of four years
are where the quotients take their corrections. -/
theorem year_of_era {doe yoe : Int} (h0 : 0 ≤ doe) (h1 : doe < 146097)
    (hyoe : yoe = (doe - doe / 1460 + doe / 36524 - doe / 146096) / 365) :
    0 ≤ yoe ∧ yoe ≤ 399 ∧ yearStart yoe ≤ doe ∧ doe < yearStart (yoe + 1) := by
  by_cases hlast : doe = 146096
  · subst hlast hyoe
    decide
  have hera : doe / 146096 = 0 := by omega
  rw [hera, Int.sub_zero] at hyoe
  have hcentury := century_of_era h0 (by omega) hyoe
  unfold yearStart
  obtain ⟨c, hc⟩ : ∃ c, c = doe / 36524 := ⟨_, rfl⟩
  obtain ⟨q, hq⟩ : ∃ q, q = doe / 1460 := ⟨_, rfl⟩
  rw [← hc] at hcentury hyoe
  rw [← hq] at hyoe
  have hbelow : yoe / 4 ≤ q := by omega
  have habove : q ≤ (yoe + 1) / 4 := by omega
  refine ⟨by omega, by omega, by omega, ?_⟩
  by_cases hend : (yoe + 1) / 100 = c
  · have hfirst : (yoe + 1) / 400 = 0 := by omega
    omega
  · have hnext : yoe = 100 * c + 99 := by omega
    subst hnext
    omega

/-- The year that ends in February of year `y + 1` has a day more where that is a leap year. -/
theorem yearStart_succ (y : Int) :
    yearStart (y + 1) = yearStart y + if isLeapYear (y + 1) then 366 else 365 := by
  have h4 : (y + 1) / 4 = y / 4 + if (y + 1) % 4 = 0 then 1 else 0 := by
    split <;> omega
  have h100 : (y + 1) / 100 = y / 100 + if (y + 1) % 100 = 0 then 1 else 0 := by
    split <;> omega
  have h400 : (y + 1) / 400 = y / 400 + if (y + 1) % 400 = 0 then 1 else 0 := by
    split <;> omega
  have hquarter : (y + 1) % 400 = 0 → (y + 1) % 100 = 0 := by omega
  have hcentury : (y + 1) % 100 = 0 → (y + 1) % 4 = 0 := by omega
  rw [yearStart, yearStart, h4, h100, h400]
  simp only [isLeapYear_iff]
  generalize (y + 1) % 400 = r400 at *
  generalize (y + 1) % 100 = r100 at *
  generalize (y + 1) % 4 = r4 at *
  split <;> split <;> split <;> split <;> omega

theorem yearStart_era (yoe era : Int) : yearStart (yoe + era * 400) = yearStart yoe + era * 146097 := by
  unfold yearStart
  omega

/-- The closed form finds the year, the month and the day. -/
theorem civilFromDays_march (days : Int) : ∃ y mp d,
    civilFromDays days = ofMarch y mp d ∧ 0 ≤ mp ∧ mp ≤ 11 ∧ 1 ≤ d ∧
      yearStart y + monthStart mp + d - 1 = days + 719468 ∧ monthStart mp + d - 1 < monthStart (mp + 1) ∧
        yearStart y + monthStart mp + d - 1 < yearStart (y + 1) := by
  obtain ⟨z, hz⟩ : ∃ z, z = days + 719468 := ⟨_, rfl⟩
  obtain ⟨era, hera⟩ : ∃ era, era = z / 146097 := ⟨_, rfl⟩
  obtain ⟨doe, hdoe⟩ : ∃ doe, doe = z - era * 146097 := ⟨_, rfl⟩
  obtain ⟨yoe, hyoe⟩ : ∃ yoe, yoe = (doe - doe / 1460 + doe / 36524 - doe / 146096) / 365 := ⟨_, rfl⟩
  obtain ⟨doy, hdoy⟩ : ∃ doy, doy = doe - (365 * yoe + yoe / 4 - yoe / 100) := ⟨_, rfl⟩
  obtain ⟨mp, hmp⟩ : ∃ mp, mp = (5 * doy + 2) / 153 := ⟨_, rfl⟩
  obtain ⟨-, -, hfirst, hlast⟩ := year_of_era (by omega) (by omega) hyoe
  have hdoy' : doy = doe - yearStart yoe := by
    unfold yearStart
    omega
  have hstart := yearStart_era yoe era
  have hnext := yearStart_era (yoe + 1) era
  rw [Int.add_right_comm] at hnext
  have hlength : yearStart (yoe + 1) ≤ yearStart yoe + 366 := by
    rw [yearStart_succ]
    split <;> omega
  have hday : 0 ≤ doy ∧ doy ≤ 365 := by omega
  refine ⟨yoe + era * 400, mp, doy - monthStart mp + 1, ?_, ?_⟩
  · unfold civilFromDays
    simp only [floorDivide_eq _ (by decide : (0 : Int) ≤ 146097), floorDivide_eq _ (by decide : (0 : Int) ≤ 1460),
      floorDivide_eq _ (by decide : (0 : Int) ≤ 36524), floorDivide_eq _ (by decide : (0 : Int) ≤ 146096),
      floorDivide_eq _ (by decide : (0 : Int) ≤ 365), floorDivide_eq _ (by decide : (0 : Int) ≤ 4),
      floorDivide_eq _ (by decide : (0 : Int) ≤ 100), floorDivide_eq _ (by decide : (0 : Int) ≤ 153),
      floorDivide_eq _ (by decide : (0 : Int) ≤ 5)]
    rw [← hz, ← hera, ← hdoe, ← hyoe, ← hdoy, ← hmp, ofMarch, monthStart]
    by_cases h10 : mp ≥ 10
    · have hm : mp - 9 ≤ 2 := by omega
      simp only [if_pos h10, if_pos hm]
    · have hm : ¬ mp + 3 ≤ 2 := by omega
      simp only [if_neg h10, if_neg hm]
  · have hz' : yearStart (yoe + era * 400) + doy = z := by omega
    have hbefore : yearStart (yoe + era * 400) + doy < yearStart (yoe + era * 400 + 1) := by omega
    clear hyoe hdoy hdoe hera hstart hnext hlength
    unfold monthStart
    refine ⟨by omega, by omega, by omega, by omega, by omega, by omega⟩

theorem daysFromCivil_eq (year month day : Int) :
    daysFromCivil year month day =
      if month ≤ 2 then yearStart (year - 1) + monthStart (month + 9) + day - 1 - 719468
      else yearStart year + monthStart (month - 3) + day - 1 - 719468 := by
  simp only [daysFromCivil, floorDivide_eq _ (by decide : (0 : Int) ≤ 400),
    floorDivide_eq _ (by decide : (0 : Int) ≤ 4), floorDivide_eq _ (by decide : (0 : Int) ≤ 100),
    floorDivide_eq _ (by decide : (0 : Int) ≤ 5)]
  unfold yearStart monthStart
  split <;> omega

theorem daysFromCivil_ofMarch {mp : Int} (h0 : 0 ≤ mp) (h11 : mp ≤ 11) (y d : Int) :
    daysFromCivil (ofMarch y mp d).year (ofMarch y mp d).month (ofMarch y mp d).day =
      yearStart y + monthStart mp + d - 1 - 719468 := by
  rw [daysFromCivil_eq]
  by_cases h10 : mp ≥ 10
  · have hm : mp - 9 ≤ 2 := by omega
    simp only [ofMarch, if_pos h10, if_pos hm, Int.sub_add_cancel, Int.add_sub_cancel]
  · have hm : ¬ mp + 3 ≤ 2 := by omega
    simp only [ofMarch, if_neg h10, if_neg hm, Int.add_sub_cancel]

/-- A date of the calendar. -/
def Date.Valid (date : Date) : Prop :=
  1 ≤ date.month ∧ date.month ≤ 12 ∧ 1 ≤ date.day ∧ date.day ≤ daysInMonthOf date.year date.month

/-- The next day in the calendar. -/
def Date.next (date : Date) : Date :=
  if date.day < daysInMonthOf date.year date.month then { date with day := date.day + 1 }
  else if date.month < 12 then { date with month := date.month + 1, day := 1 }
  else { year := date.year + 1, month := 1, day := 1 }

/-- The months from March on have the lengths of the calendar, and the last of them ends with the year. -/
theorem daysInMonthOf_march {mp : Int} (h0 : 0 ≤ mp) (h11 : mp ≤ 11) (y d : Int) :
    daysInMonthOf (ofMarch y mp d).year (ofMarch y mp d).month =
      if mp = 11 then yearStart (y + 1) - yearStart y - monthStart 11
      else monthStart (mp + 1) - monthStart mp := by
  have hmonths : mp = 0 ∨ mp = 1 ∨ mp = 2 ∨ mp = 3 ∨ mp = 4 ∨ mp = 5 ∨ mp = 6 ∨ mp = 7 ∨ mp = 8 ∨
      mp = 9 ∨ mp = 10 ∨ mp = 11 := by omega
  obtain rfl | rfl | rfl | rfl | rfl | rfl | rfl | rfl | rfl | rfl | rfl | rfl := hmonths
  case inr.inr.inr.inr.inr.inr.inr.inr.inr.inr.inr =>
    rw [if_pos rfl, yearStart_succ]
    show (if isLeapYear (y + 1) = true then (29 : Int) else 28) = _
    split <;> (unfold monthStart; omega)
  all_goals rfl

/-- Every date is one of a month counted from March. -/
theorem valid_iff_march (date : Date) : date.Valid ↔ ∃ y mp d, date = ofMarch y mp d ∧ 0 ≤ mp ∧
    mp ≤ 11 ∧ 1 ≤ d ∧ d ≤ daysInMonthOf (ofMarch y mp d).year (ofMarch y mp d).month := by
  constructor
  · rintro ⟨hm1, hm12, hd1, hd⟩
    obtain ⟨year, month, day⟩ := date
    dsimp only at hm1 hm12 hd1 hd
    by_cases hm : month ≤ 2
    · have hdate : (⟨year, month, day⟩ : Date) = ofMarch (year - 1) (month + 9) day := by
        rw [ofMarch, if_pos (by omega), if_pos (by omega), Int.sub_add_cancel, Int.add_sub_cancel]
      refine ⟨year - 1, month + 9, day, hdate, by omega, by omega, hd1, ?_⟩
      rw [← hdate]
      exact hd
    · have hdate : (⟨year, month, day⟩ : Date) = ofMarch year (month - 3) day := by
        rw [ofMarch, if_neg (by omega), if_neg (by omega), Int.sub_add_cancel]
      refine ⟨year, month - 3, day, hdate, by omega, by omega, hd1, ?_⟩
      rw [← hdate]
      exact hd
  · rintro ⟨y, mp, d, rfl, h0, h11, hd1, hd⟩
    refine ⟨?_, ?_, hd1, hd⟩
    · rw [ofMarch]
      dsimp only
      split <;> omega
    · rw [ofMarch]
      dsimp only
      split <;> omega

/-- A day in a month counted from March, by where the month and the year end. -/
structure InMarchMonth (y mp d : Int) : Prop where
  first : 0 ≤ mp
  last : mp ≤ 11
  day : 1 ≤ d
  month : monthStart mp + d - 1 < monthStart (mp + 1)
  year : yearStart y + monthStart mp + d - 1 < yearStart (y + 1)

theorem valid_ofMarch_iff {y mp d : Int} (h0 : 0 ≤ mp) (h11 : mp ≤ 11) :
    (ofMarch y mp d).Valid ↔ InMarchMonth y mp d := by
  have hlength := yearStart_succ y
  have hdays := daysInMonthOf_march h0 h11 y d
  constructor
  · rintro ⟨-, -, hd1, hd⟩
    rw [hdays] at hd
    dsimp only [ofMarch] at hd1 hd
    refine ⟨h0, h11, hd1, ?_, ?_⟩
    · unfold monthStart at *
      split at hd <;> split at hlength <;> omega
    · unfold monthStart at *
      split at hd <;> split at hlength <;> omega
  · rintro ⟨-, -, hd1, hmonth, hyear⟩
    rw [valid_iff_march]
    refine ⟨y, mp, d, rfl, h0, h11, hd1, ?_⟩
    rw [hdays]
    unfold monthStart at *
    split <;> omega

theorem yearStart_lt {y y' : Int} (h : y < y') : yearStart (y + 1) ≤ yearStart y' := by
  unfold yearStart
  omega

/-- A day is in one month of one year. -/
theorem inMarchMonth_unique {y mp d y' mp' d' : Int} (h : InMarchMonth y mp d)
    (h' : InMarchMonth y' mp' d')
    (heq : yearStart y + monthStart mp + d - 1 = yearStart y' + monthStart mp' + d' - 1) :
    y = y' ∧ mp = mp' ∧ d = d' := by
  obtain ⟨h0, h11, hd1, hmonth, hyear⟩ := h
  obtain ⟨h0', h11', hd1', hmonth', hyear'⟩ := h'
  have hstart : 0 ≤ monthStart mp ∧ 0 ≤ monthStart mp' := by
    unfold monthStart
    omega
  have hyears : y = y' := by
    obtain hlt | heq | hlt := Int.lt_trichotomy y y'
    · have hle := yearStart_lt hlt
      omega
    · exact heq
    · have hle := yearStart_lt hlt
      omega
  subst hyears
  have hmonths : mp = mp' := by
    unfold monthStart at *
    omega
  subst hmonths
  exact ⟨rfl, rfl, by omega⟩

theorem inMarchMonth_civil (days : Int) : ∃ y mp d, civilFromDays days = ofMarch y mp d ∧
    InMarchMonth y mp d ∧ yearStart y + monthStart mp + d - 1 = days + 719468 := by
  obtain ⟨y, mp, d, hdate, h0, h11, hd1, hsum, hmonth, hyear⟩ := civilFromDays_march days
  exact ⟨y, mp, d, hdate, ⟨h0, h11, hd1, hmonth, hyear⟩, hsum⟩

/-! ### Dates and days -/

def Date.days (date : Date) : Int := daysFromCivil date.year date.month date.day

theorem civilFromDays_valid (days : Int) : (civilFromDays days).Valid := by
  obtain ⟨y, mp, d, hdate, hin, -⟩ := inMarchMonth_civil days
  rw [hdate]
  exact (valid_ofMarch_iff hin.first hin.last).mpr hin

theorem days_civilFromDays (days : Int) : (civilFromDays days).days = days := by
  obtain ⟨y, mp, d, hdate, hin, hsum⟩ := inMarchMonth_civil days
  rw [hdate, Date.days, daysFromCivil_ofMarch hin.first hin.last]
  omega

theorem civilFromDays_days {date : Date} (hdate : date.Valid) : civilFromDays date.days = date := by
  obtain ⟨y, mp, d, rfl, h0, h11, -, -⟩ := (valid_iff_march date).mp hdate
  have hin := (valid_ofMarch_iff h0 h11).mp hdate
  obtain ⟨y', mp', d', hcivil, hin', hsum⟩ := inMarchMonth_civil (ofMarch y mp d).days
  rw [Date.days, daysFromCivil_ofMarch h0 h11] at hsum
  obtain ⟨rfl, rfl, rfl⟩ := inMarchMonth_unique hin hin' (by omega)
  exact hcivil

theorem isLeapYear_days (year : Int) : daysInMonthOf year 2 = if isLeapYear year then 29 else 28 := by
  simp [daysInMonthOf]

theorem daysInMonthOf_bounds (year month : Int) :
    28 ≤ daysInMonthOf year month ∧ daysInMonthOf year month ≤ 31 := by
  unfold daysInMonthOf
  split
  · split <;> omega
  · split <;> omega

theorem daysFromCivil_day (year month day : Int) :
    daysFromCivil year month day = daysFromCivil year month 1 + day - 1 := by
  unfold daysFromCivil
  dsimp only
  omega

/-- A month is followed by the next one of its year. -/
theorem daysFromCivil_month {year month : Int} (h1 : 1 ≤ month) (h12 : month < 12) (day : Int) :
    daysFromCivil year (month + 1) day = daysFromCivil year month day + daysInMonthOf year month := by
  have hmonths : month = 1 ∨ month = 2 ∨ month = 3 ∨ month = 4 ∨ month = 5 ∨ month = 6 ∨ month = 7 ∨
      month = 8 ∨ month = 9 ∨ month = 10 ∨ month = 11 := by omega
  have hyear := yearStart_succ (year - 1)
  rw [Int.sub_add_cancel] at hyear
  rw [daysFromCivil_eq, daysFromCivil_eq]
  obtain rfl | rfl | rfl | rfl | rfl | rfl | rfl | rfl | rfl | rfl | rfl := hmonths
  case inr.inl =>
    rw [daysInMonthOf, if_pos rfl]
    simp only [monthStart]
    split at hyear <;> simp [*] <;> omega
  all_goals simp [daysInMonthOf, monthStart]; omega

/-- The last month of a year is followed by the first of the next one. -/
theorem daysFromCivil_year (year day : Int) :
    daysFromCivil (year + 1) 1 day = daysFromCivil year 12 day + 31 := by
  rw [daysFromCivil_eq, daysFromCivil_eq, if_pos (by decide), if_neg (by decide), Int.add_sub_cancel]
  simp only [monthStart]
  omega

theorem next_valid {date : Date} (hdate : date.Valid) : date.next.Valid := by
  obtain ⟨hm1, hm12, hd1, hd⟩ := hdate
  unfold Date.next
  split
  · exact ⟨hm1, hm12, by dsimp only; omega, by dsimp only; omega⟩
  · split
    · have hlength := daysInMonthOf_bounds date.year (date.month + 1)
      exact ⟨by dsimp only; omega, by dsimp only; omega, Int.le_refl 1, by dsimp only; omega⟩
    · have hlength := daysInMonthOf_bounds (date.year + 1) 1
      exact ⟨Int.le_refl 1, by dsimp only; omega, Int.le_refl 1, by dsimp only; omega⟩

theorem days_next {date : Date} (hdate : date.Valid) : date.next.days = date.days + 1 := by
  obtain ⟨hm1, hm12, hd1, hd⟩ := hdate
  have hday := daysFromCivil_day date.year date.month date.day
  unfold Date.next
  split
  · rw [Date.days, Date.days, daysFromCivil_day, hday]
    dsimp only
    omega
  · split
    · rw [Date.days, Date.days, hday]
      dsimp only
      rw [daysFromCivil_month hm1 (by omega)]
      omega
    · have hlast : date.month = 12 := by omega
      have hlength : daysInMonthOf date.year 12 = 31 := by simp [daysInMonthOf]
      have hend : date.day = 31 := by
        simp only [hlast, hlength] at *
        omega
      rw [Date.days, Date.days, hday]
      dsimp only
      rw [hlast, daysFromCivil_year]
      omega

/-- The date of the next day is the next date. -/
theorem civilFromDays_succ (days : Int) : civilFromDays (days + 1) = (civilFromDays days).next := by
  have hvalid := civilFromDays_valid days
  rw [← civilFromDays_days (next_valid hvalid), days_next hvalid, days_civilFromDays]

/-! ### Years -/

theorem daysFromCivil_january (year : Int) :
    daysFromCivil year 1 1 = yearStart (year - 1) + 306 - 719468 := by
  rw [daysFromCivil_eq, if_pos (by decide)]
  simp only [monthStart]
  omega

theorem daysFromCivil_newYear (year : Int) :
    daysFromCivil (year + 1) 1 1 = daysFromCivil year 1 1 + if isLeapYear year then 366 else 365 := by
  have hyear := yearStart_succ (year - 1)
  rw [Int.sub_add_cancel] at hyear
  rw [daysFromCivil_january, daysFromCivil_january, Int.add_sub_cancel, hyear]
  omega

theorem newYear_le {date : Date} (hdate : date.Valid) : daysFromCivil date.year 1 1 ≤ date.days := by
  obtain ⟨hm1, hm12, hd1, hd⟩ := hdate
  have hyear := yearStart_succ (date.year - 1)
  rw [Int.sub_add_cancel] at hyear
  rw [Date.days, daysFromCivil_january, daysFromCivil_eq]
  unfold monthStart
  split <;> split at hyear <;> omega

theorem lt_newYear {date : Date} (hdate : date.Valid) :
    date.days < daysFromCivil (date.year + 1) 1 1 := by
  obtain ⟨hm1, hm12, hd1, hd⟩ := hdate
  have hlength := daysInMonthOf_bounds date.year date.month
  have hyear := yearStart_succ (date.year - 1)
  rw [Int.sub_add_cancel] at hyear
  rw [Date.days, daysFromCivil_january, daysFromCivil_eq, Int.add_sub_cancel]
  unfold monthStart
  split <;> split at hyear <;> omega

theorem newYear_mono {year year' : Int} (h : year ≤ year') :
    daysFromCivil year 1 1 ≤ daysFromCivil year' 1 1 := by
  rw [daysFromCivil_january, daysFromCivil_january]
  have hle : yearStart (year - 1) ≤ yearStart (year' - 1) := by
    by_cases heq : year = year'
    · exact Int.le_of_eq (by rw [heq])
    · have hle := yearStart_lt (by omega : year - 1 < year' - 1)
      have hyear := yearStart_succ (year - 1)
      split at hyear <;> omega
  omega

/-- A day is of the year whose first day is the last new year in front of it. -/
theorem civilFromDays_year_iff (days year : Int) : (civilFromDays days).year = year ↔
    daysFromCivil year 1 1 ≤ days ∧ days < daysFromCivil (year + 1) 1 1 := by
  have hvalid := civilFromDays_valid days
  have hle := newYear_le hvalid
  have hlt := lt_newYear hvalid
  rw [days_civilFromDays] at hle hlt
  constructor
  · rintro rfl
    exact ⟨hle, hlt⟩
  · rintro ⟨hle', hlt'⟩
    obtain hyear | hyear | hyear := Int.lt_trichotomy (civilFromDays days).year year
    · have hmono := newYear_mono (by omega : (civilFromDays days).year + 1 ≤ year)
      omega
    · exact hyear
    · have hmono := newYear_mono (by omega : year + 1 ≤ (civilFromDays days).year)
      omega

/-! ### Instants -/

/-- 0 = Sunday. -/
def weekdayFromDays (days : Int) : Int := positiveMod (days + 4) 7

structure Components extends Date where
  hour : Int
  minute : Int
  second : Int
  millisecond : Int
  weekday : Int
  dayOfYear : Int
  days : Int
  deriving DecidableEq

/-- A timestamp into its parts. The floor of an integer is that integer. -/
def componentsUtc (ms : Int) : Components :=
  let total := ms
  let days := floorDivide total MS_PER_DAY
  let intoDay := total - days * MS_PER_DAY
  let date := civilFromDays days
  { date with
    hour := floorDivide intoDay MS_PER_HOUR
    minute := floorDivide (positiveMod intoDay MS_PER_HOUR) MS_PER_MINUTE
    second := floorDivide (positiveMod intoDay MS_PER_MINUTE) MS_PER_SECOND
    millisecond := positiveMod intoDay MS_PER_SECOND
    weekday := weekdayFromDays days
    dayOfYear := days - daysFromCivil date.year 1 1 + 1
    days := days }

def timestampUtc (y mo d h mi s ms : Int) : Int :=
  daysFromCivil y mo d * MS_PER_DAY + h * MS_PER_HOUR + mi * MS_PER_MINUTE + s * MS_PER_SECOND + ms

theorem weekdayFromDays_eq (days : Int) : weekdayFromDays days = (days + 4) % 7 :=
  positiveMod_eq _ (by decide)

theorem componentsUtc_days (ms : Int) : (componentsUtc ms).days = ms / MS_PER_DAY :=
  floorDivide_eq _ (by decide)

theorem componentsUtc_weekday (ms : Int) : (componentsUtc ms).weekday = (ms / MS_PER_DAY + 4) % 7 := by
  rw [← weekdayFromDays_eq, ← floorDivide_eq _ (by decide)]
  rfl

theorem componentsUtc_date (ms : Int) :
    (componentsUtc ms).toDate = civilFromDays (ms / MS_PER_DAY) := by
  rw [← floorDivide_eq _ (by decide)]
  rfl

theorem componentsUtc_time (ms : Int) :
    (componentsUtc ms).hour = ms % MS_PER_DAY / MS_PER_HOUR ∧
    (componentsUtc ms).minute = ms % MS_PER_DAY % MS_PER_HOUR / MS_PER_MINUTE ∧
    (componentsUtc ms).second = ms % MS_PER_DAY % MS_PER_MINUTE / MS_PER_SECOND ∧
    (componentsUtc ms).millisecond = ms % MS_PER_DAY % MS_PER_SECOND := by
  have hinto : ms - ms / MS_PER_DAY * MS_PER_DAY = ms % MS_PER_DAY := by
    rw [Int.emod_def, Int.mul_comm]
  unfold componentsUtc
  simp only [floorDivide_eq _ (by decide : (0 : Int) ≤ MS_PER_DAY), hinto,
    floorDivide_eq _ (by decide : (0 : Int) ≤ MS_PER_HOUR),
    floorDivide_eq _ (by decide : (0 : Int) ≤ MS_PER_MINUTE),
    floorDivide_eq _ (by decide : (0 : Int) ≤ MS_PER_SECOND),
    positiveMod_eq _ (by decide : (0 : Int) < MS_PER_HOUR),
    positiveMod_eq _ (by decide : (0 : Int) < MS_PER_MINUTE),
    positiveMod_eq _ (by decide : (0 : Int) < MS_PER_SECOND), and_self]

/-- The parts of a timestamp are in their ranges. -/
structure Components.InRange (c : Components) : Prop where
  date : c.toDate.Valid
  hour : 0 ≤ c.hour ∧ c.hour ≤ 23
  minute : 0 ≤ c.minute ∧ c.minute ≤ 59
  second : 0 ≤ c.second ∧ c.second ≤ 59
  millisecond : 0 ≤ c.millisecond ∧ c.millisecond ≤ 999
  weekday : 0 ≤ c.weekday ∧ c.weekday ≤ 6
  dayOfYear : 1 ≤ c.dayOfYear ∧ c.dayOfYear ≤ 366

theorem componentsUtc_inRange (ms : Int) : (componentsUtc ms).InRange := by
  obtain ⟨hhour, hminute, hsecond, hmilli⟩ := componentsUtc_time ms
  have hdate := componentsUtc_date ms
  have hvalid := civilFromDays_valid (ms / MS_PER_DAY)
  have hle := newYear_le hvalid
  have hlt := lt_newYear hvalid
  have hyear := daysFromCivil_newYear (civilFromDays (ms / MS_PER_DAY)).year
  rw [days_civilFromDays] at hle hlt
  have hofYear : (componentsUtc ms).dayOfYear =
      ms / MS_PER_DAY - daysFromCivil (civilFromDays (ms / MS_PER_DAY)).year 1 1 + 1 := by
    rw [← floorDivide_eq _ (by decide)]
    rfl
  constructor
  · rw [hdate]
    exact hvalid
  · rw [hhour, MS_PER_DAY, MS_PER_HOUR]
    omega
  · rw [hminute, MS_PER_DAY, MS_PER_HOUR, MS_PER_MINUTE]
    omega
  · rw [hsecond, MS_PER_DAY, MS_PER_MINUTE, MS_PER_SECOND]
    omega
  · rw [hmilli, MS_PER_DAY, MS_PER_SECOND]
    omega
  · rw [componentsUtc_weekday]
    omega
  · rw [hofYear]
    split at hyear <;> omega

/-- The time of day a timestamp has is what `timestampUtc` adds to its day. -/
theorem timestampUtc_time (ms y mo d : Int) :
    timestampUtc y mo d (componentsUtc ms).hour (componentsUtc ms).minute (componentsUtc ms).second
      (componentsUtc ms).millisecond = daysFromCivil y mo d * MS_PER_DAY + ms % MS_PER_DAY := by
  obtain ⟨hhour, hminute, hsecond, hmilli⟩ := componentsUtc_time ms
  rw [timestampUtc, hhour, hminute, hsecond, hmilli]
  unfold MS_PER_DAY MS_PER_HOUR MS_PER_MINUTE MS_PER_SECOND
  omega

theorem timestampUtc_componentsUtc (ms : Int) :
    timestampUtc (componentsUtc ms).year (componentsUtc ms).month (componentsUtc ms).day
      (componentsUtc ms).hour (componentsUtc ms).minute (componentsUtc ms).second
      (componentsUtc ms).millisecond = ms := by
  rw [timestampUtc_time]
  have hdays := days_civilFromDays (ms / MS_PER_DAY)
  rw [← componentsUtc_date] at hdays
  rw [Date.days] at hdays
  rw [hdays, Int.mul_comm]
  exact Int.mul_ediv_add_emod ms MS_PER_DAY

theorem componentsUtc_weekday_succ (ms : Int) :
    (componentsUtc (ms + MS_PER_DAY)).weekday = ((componentsUtc ms).weekday + 1) % 7 := by
  rw [componentsUtc_weekday, componentsUtc_weekday]
  unfold MS_PER_DAY
  omega

/-- Days and dates are in bijection, day by day, and the parts of a timestamp determine it. -/
theorem calendar_bijection :
    (∀ days, (civilFromDays days).Valid ∧
      daysFromCivil (civilFromDays days).year (civilFromDays days).month (civilFromDays days).day = days ∧
      civilFromDays (days + 1) = (civilFromDays days).next) ∧
    civilFromDays 0 = ⟨1970, 1, 1⟩ ∧
    (∀ date : Date, date.Valid →
      civilFromDays (daysFromCivil date.year date.month date.day) = date ∧
        daysFromCivil date.next.year date.next.month date.next.day =
          daysFromCivil date.year date.month date.day + 1) ∧
    ∀ ms, (componentsUtc ms).InRange ∧
      (componentsUtc (ms + MS_PER_DAY)).weekday = ((componentsUtc ms).weekday + 1) % 7 ∧
      timestampUtc (componentsUtc ms).year (componentsUtc ms).month (componentsUtc ms).day
        (componentsUtc ms).hour (componentsUtc ms).minute (componentsUtc ms).second
        (componentsUtc ms).millisecond = ms := by
  refine ⟨fun days => ⟨civilFromDays_valid days, days_civilFromDays days, civilFromDays_succ days⟩,
    by decide, fun date hdate => ⟨civilFromDays_days hdate, days_next hdate⟩, fun ms => ?_⟩
  exact ⟨componentsUtc_inRange ms, componentsUtc_weekday_succ ms, timestampUtc_componentsUtc ms⟩

end Datetime

end EZLanguage

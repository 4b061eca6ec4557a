import Pokyh.Lib.Calendar

/-!
# School — Years

The school year a date lies in, as the four places that need it work it out: `computeSchoolYear`, the interval that
`performRollover` archives and the check that closes a year by itself (`services/schoolYearArchiver.ts`), and
`schoolYearStartKey` (`services/accountActivitySummary.ts`).  Day keys are written here as the number of their digits, YYYYMMDD.

* `inYear_iff`: an archived interval holds the days from one rollover day up to the next one.
* `years_partition`: **the intervals cover every day exactly once.**
* `closes_last`: **the automatic check closes the interval that ended last**, never a running one.
* `years_agree_iff`: **all four agree on a date** unless it lies in the rollover month before the rollover day, which
  `computeSchoolYear` does not look at.
-/

namespace Pokyh.School.Years
open Pokyh.Lib

/-! ### The code -/

/-- The settings of the rollover. -/
structure Config where
  schoolYearRolloverMonth : ℤ
  schoolYearRolloverDay : ℤ

structure SchoolYearName where
  startYear : ℤ
  label : String

variable (config : Config)

def labelOf (startYear : ℤ) : String := toString startYear ++ "/" ++ toString (startYear + 1)

def computeSchoolYear (date : Civil) : SchoolYearName :=
  let startYear := if date.month ≥ config.schoolYearRolloverMonth then date.year else date.year - 1
  ⟨startYear, labelOf startYear⟩

def keyOf (year month day : ℤ) : ℤ := year * 10000 + month * 100 + day

def addDays (dayKey n : ℤ) : ℤ := stampOf (dayNumber (dayKey / 10000) (dayKey / 100 % 100) (dayKey % 100 + n))

/-- The first day of the year that a rollover archives. -/
def yearFrom (startYear : ℤ) : ℤ := keyOf startYear config.schoolYearRolloverMonth config.schoolYearRolloverDay

def yearTo (startYear : ℤ) : ℤ :=
  addDays (keyOf (startYear + 1) config.schoolYearRolloverMonth config.schoolYearRolloverDay) (-1)

/-- The year that the check closes, if any. -/
def checkAndRollover (now : Civil) (archived : List ℤ) : Option SchoolYearName :=
  if now.month ≠ config.schoolYearRolloverMonth ∨ now.day < config.schoolYearRolloverDay then none
  else
    let startYear := (computeSchoolYear config now).startYear - 1
    if startYear ∈ archived then none else some ⟨startYear, labelOf startYear⟩

def schoolYearStartKey (todayKey month day : ℤ) : ℤ :=
  let y := todayKey / 10000
  let m := todayKey / 100 % 100
  let d := todayKey % 100
  let started := m > month ∨ (m = month ∧ d ≥ day)
  keyOf (if started then y else y - 1) month day

/-! ### Intervals -/

/-- A rollover day that its month has in every year. -/
structure Config.Allowed : Prop where
  month_pos : 1 ≤ config.schoolYearRolloverMonth
  month_le : config.schoolYearRolloverMonth ≤ 12
  day_pos : 1 ≤ config.schoolYearRolloverDay
  day_le : config.schoolYearRolloverDay ≤ monthLength false config.schoolYearRolloverMonth

/-- The day of a year on which a school year begins. -/
def rolloverDay (year : ℤ) : Civil := ⟨year, config.schoolYearRolloverMonth, config.schoolYearRolloverDay⟩

def InYear (startYear : ℤ) (date : Civil) : Prop := yearFrom config startYear ≤ date.stamp ∧ date.stamp ≤ yearTo config startYear

variable {config} {date : Civil}

theorem monthLength_false_le (leap : Bool) {month : ℤ} (h₁ : 1 ≤ month) : monthLength false month ≤ monthLength leap month := by
  cases leap with
  | false => exact le_rfl
  | true =>
      simp only [monthLength, daysBeforeMonth, shortage]
      split <;> split <;> simp <;> omega

theorem Config.Allowed.real (h : config.Allowed) (year : ℤ) : (rolloverDay config year).Real :=
  ⟨h.month_pos, h.month_le, h.day_pos, h.day_le.trans (monthLength_false_le _ h.month_pos)⟩

theorem yearFrom_eq (startYear : ℤ) : yearFrom config startYear = (rolloverDay config startYear).stamp := rfl

/-- The last day of an archived year is the one before the next rollover day. -/
theorem yearTo_eq (h : config.Allowed) (startYear : ℤ) :
    yearTo config startYear = stampOf ((rolloverDay config (startYear + 1)).number - 1) := by
  obtain ⟨hmonth, hmonth', hday, hday'⟩ := (h.real 0).bounds
  simp only [rolloverDay] at hmonth hmonth' hday hday'
  have hyear : keyOf (startYear + 1) config.schoolYearRolloverMonth config.schoolYearRolloverDay / 10000 = startYear + 1 := by
    unfold keyOf
    omega
  have hm : keyOf (startYear + 1) config.schoolYearRolloverMonth config.schoolYearRolloverDay / 100 % 100 =
      config.schoolYearRolloverMonth := by
    unfold keyOf
    omega
  have hd : keyOf (startYear + 1) config.schoolYearRolloverMonth config.schoolYearRolloverDay % 100 = config.schoolYearRolloverDay := by
    unfold keyOf
    omega
  rw [yearTo, addDays, hyear, hm, hd, Civil.number, rolloverDay, dayNumber_eq _ hmonth hmonth', dayNumber_eq _ hmonth hmonth']
  congr 1
  dsimp only
  omega

/-- **An archived interval** holds the days from one rollover day up to the next one. -/
theorem inYear_iff (h : config.Allowed) (hdate : date.Real) (startYear : ℤ) :
    InYear config startYear date ↔
      (rolloverDay config startYear).stamp ≤ date.stamp ∧ date.stamp < (rolloverDay config (startYear + 1)).stamp := by
  have hstamp : date.stamp = stampOf date.number := by rw [stampOf, civilOf_number hdate]
  have hnext := hdate.stamp_lt_iff (h.real (startYear + 1))
  rw [InYear, yearFrom_eq, yearTo_eq h]
  refine and_congr_right fun _ => ?_
  rw [hnext, hstamp, stampOf_le_iff]
  omega

/-- **The intervals cover every day exactly once.** -/
theorem years_partition (h : config.Allowed) (hdate : date.Real) : ∃! startYear, InYear config startYear date := by
  obtain ⟨hmonth, hmonth', hday, hday'⟩ := (h.real 0).bounds
  obtain ⟨hdate₁, hdate₂, hdate₃, hdate₄⟩ := hdate.bounds
  simp only [rolloverDay] at hmonth hmonth' hday hday'
  have hin : ∃ startYear, InYear config startYear date := by
    by_cases hbegun : (rolloverDay config date.year).stamp ≤ date.stamp
    · refine ⟨date.year, (inYear_iff h hdate _).mpr ⟨hbegun, ?_⟩⟩
      simp only [rolloverDay, Civil.stamp]
      omega
    · refine ⟨date.year - 1, (inYear_iff h hdate _).mpr ?_⟩
      simp only [rolloverDay, Civil.stamp] at hbegun ⊢
      omega
  obtain ⟨startYear, hstart⟩ := hin
  refine ⟨startYear, hstart, fun y hy => ?_⟩
  replace hstart := (inYear_iff h hdate startYear).mp hstart
  replace hy := (inYear_iff h hdate y).mp hy
  simp only [rolloverDay, Civil.stamp] at hstart hy
  omega

/-- The year that `computeSchoolYear` names holds the date, but for the first days of the rollover month. -/
theorem inYear_computeSchoolYear (h : config.Allowed) (hdate : date.Real) :
    InYear config (computeSchoolYear config date).startYear date ↔
      ¬ (date.month = config.schoolYearRolloverMonth ∧ date.day < config.schoolYearRolloverDay) := by
  obtain ⟨hmonth, hmonth', hday, hday'⟩ := (h.real 0).bounds
  obtain ⟨hdate₁, hdate₂, hdate₃, hdate₄⟩ := hdate.bounds
  simp only [rolloverDay] at hmonth hmonth' hday hday'
  rw [inYear_iff h hdate]
  simp only [computeSchoolYear, rolloverDay, Civil.stamp]
  split <;> omega

/-- `schoolYearStartKey` names the first day of the interval that holds the date. -/
theorem schoolYearStartKey_eq (h : config.Allowed) (hdate : date.Real) {startYear : ℤ} (hin : InYear config startYear date) :
    schoolYearStartKey date.stamp config.schoolYearRolloverMonth config.schoolYearRolloverDay = yearFrom config startYear := by
  obtain ⟨hmonth, hmonth', hday, hday'⟩ := (h.real 0).bounds
  obtain ⟨hdate₁, hdate₂, hdate₃, hdate₄⟩ := hdate.bounds
  simp only [rolloverDay] at hmonth hmonth' hday hday'
  have hyear : date.stamp / 10000 = date.year := by simp only [Civil.stamp]; omega
  have hm : date.stamp / 100 % 100 = date.month := by simp only [Civil.stamp]; omega
  have hd : date.stamp % 100 = date.day := by simp only [Civil.stamp]; omega
  rw [inYear_iff h hdate] at hin
  simp only [rolloverDay, Civil.stamp] at hin
  simp only [schoolYearStartKey, hyear, hm, hd, yearFrom, keyOf]
  split <;> omega

/-! ### The automatic check -/

/-- The interval that ended last before a date. -/
structure EndedLast (config : Config) (startYear : ℤ) (date : Civil) : Prop where
  ended : yearTo config startYear < date.stamp
  last : ∀ y, yearTo config y < date.stamp → yearTo config y ≤ yearTo config startYear

theorem yearTo_mono (h : config.Allowed) {y y' : ℤ} (hle : y ≤ y') : yearTo config y ≤ yearTo config y' := by
  rw [yearTo_eq h, yearTo_eq h, stampOf_le_iff]
  rcases hle.eq_or_lt with rfl | hlt
  · exact le_rfl
  · have hstamp : (rolloverDay config (y + 1)).stamp < (rolloverDay config (y' + 1)).stamp := by
      simp only [rolloverDay, Civil.stamp]
      omega
    have hnumber := ((h.real (y + 1)).stamp_lt_iff (h.real (y' + 1))).mp hstamp
    omega

/-- The interval before the one that holds a date ended last. -/
theorem endedLast_of_inYear (h : config.Allowed) (hdate : date.Real) {startYear : ℤ} (hin : InYear config startYear date) :
    EndedLast config (startYear - 1) date := by
  have hstart := ((inYear_iff h hdate startYear).mp hin).1
  have hbefore : yearTo config (startYear - 1) < (rolloverDay config startYear).stamp := by
    have hreal := h.real startYear
    have hstamp : (rolloverDay config startYear).stamp = stampOf (rolloverDay config startYear).number := by
      rw [stampOf, civilOf_number hreal]
    rw [yearTo_eq h, Int.sub_add_cancel, hstamp, stampOf_lt_iff]
    omega
  refine ⟨lt_of_lt_of_le hbefore hstart, fun y hy => ?_⟩
  by_contra hlater
  have hge : startYear ≤ y := by
    by_contra hlt
    exact hlater (yearTo_mono h (by omega))
  have hmono := yearTo_mono h hge
  have hend := hin.2
  omega

/-- **The automatic check closes the interval that ended last**, never one that holds the current day. -/
theorem closes_last (h : config.Allowed) (hdate : date.Real) {archived : List ℤ} {year : SchoolYearName}
    (hcloses : checkAndRollover config date archived = some year) :
    EndedLast config year.startYear date ∧ ¬ InYear config year.startYear date := by
  simp only [checkAndRollover] at hcloses
  split at hcloses
  · cases hcloses
  · rename_i hfires
    split at hcloses
    · cases hcloses
    · obtain rfl := Option.some.inj hcloses
      have hin := (inYear_computeSchoolYear h hdate).mpr (by omega)
      have hended := endedLast_of_inYear h hdate hin
      exact ⟨hended, fun hrunning => absurd hrunning.2 (not_le.mpr hended.ended)⟩

/-! ### Agreement -/

/-- All parts agree on the school year of a date. -/
structure Agree (config : Config) (date : Civil) : Prop where
  contains : InYear config (computeSchoolYear config date).startYear date
  starts : yearFrom config (computeSchoolYear config date).startYear =
    schoolYearStartKey date.stamp config.schoolYearRolloverMonth config.schoolYearRolloverDay
  covers : ∀ day : Civil, day.Real → ∃! startYear, InYear config startYear day
  closes : ∀ archived year, checkAndRollover config date archived = some year →
    EndedLast config year.startYear date ∧ ¬ InYear config year.startYear date

/-- **All parts agree on the school year of a date** exactly when it does not lie in the rollover month before the rollover day. -/
theorem years_agree_iff (h : config.Allowed) (hdate : date.Real) :
    Agree config date ↔ ¬ (date.month = config.schoolYearRolloverMonth ∧ date.day < config.schoolYearRolloverDay) := by
  rw [← inYear_computeSchoolYear h hdate]
  constructor
  · exact fun hagree => hagree.contains
  · intro hin
    exact ⟨hin, (schoolYearStartKey_eq h hdate hin).symm, fun day hday => years_partition h hday,
      fun archived year hcloses => closes_last h hdate hcloses⟩

/-- The first day of a school year that begins on the first of August. -/
theorem august_agrees : Agree ⟨8, 1⟩ ⟨2026, 8, 1⟩ := by
  have hallowed : Config.Allowed ⟨8, 1⟩ := ⟨by decide, by decide, by decide, by decide⟩
  have hreal : Civil.Real ⟨2026, 8, 1⟩ := ⟨by decide, by decide, by decide, by decide⟩
  exact (years_agree_iff hallowed hreal).mpr (by decide)

/-- With a rollover on the fifteenth, the first of the month is named as a day of the year that has not begun. -/
theorem september_disagrees : ¬ ∀ (config : Config) (date : Civil), config.Allowed → date.Real → Agree config date := by
  intro h
  have hagree := h ⟨9, 15⟩ ⟨2026, 9, 1⟩ ⟨by decide, by decide, by decide, by decide⟩ ⟨by decide, by decide, by decide, by decide⟩
  exact absurd hagree.contains.1 (by decide)

end Pokyh.School.Years

import Mathlib.Order.Basic
import Mathlib.Order.Monotone.Basic
import Mathlib.Algebra.Order.Ring.Int
import Mathlib.Tactic.Ring

/-!
# Lib — Calendar

The Gregorian calendar, carried on in both directions.  Days are counted from 1 January 1970; a
written date `YYYY-MM-DD` is the number `YYYYMMDD` (`stampOf`), which orders dates as their text does.

The month of a day of the year is found by one division, as in the usual arithmetic of calendars: from
March on, the months are too short by one or two days for the rule, which `shortage` makes up for.
-/

namespace Pokyh.Lib

structure Civil where
  year : ℤ
  month : ℤ
  day : ℤ
  deriving DecidableEq, Repr

def isLeap (year : ℤ) : Bool := year % 4 = 0 && (year % 100 ≠ 0 || year % 400 = 0)

/-- 1 January of the year 1 in the count of days. -/
def EPOCH : ℤ := 719162

def daysBeforeYear (year : ℤ) : ℤ := 365 * (year - 1) + (year - 1) / 4 - (year - 1) / 100 + (year - 1) / 400

/-- How many days from March on February lacks. -/
def shortage (leap : Bool) : ℤ := if leap then 1 else 2

def daysBeforeMonth (leap : Bool) (month : ℤ) : ℤ :=
  (367 * month - 362) / 12 - if month ≤ 2 then 0 else shortage leap

/-- The day of a date.  Days beyond the month's run on into the next ones, months into the next years. -/
def dayNumber (year month day : ℤ) : ℤ :=
  let y := year + (month - 1) / 12
  daysBeforeYear y + daysBeforeMonth (isLeap y) ((month - 1) % 12 + 1) + day - 1 - EPOCH

def yearOf (day : ℤ) : ℤ :=
  let guess := (day + EPOCH) * 400 / 146097 + 1
  if day + EPOCH < daysBeforeYear guess then guess - 1
  else if daysBeforeYear (guess + 1) ≤ day + EPOCH then guess + 1
  else guess

/-- The month of the `n`-th day of a year, counted from 0. -/
def monthOfYearDay (leap : Bool) (n : ℤ) : ℤ :=
  (12 * (n + if n < 61 - shortage leap then 0 else shortage leap) + 373) / 367

def civilOf (day : ℤ) : Civil :=
  let year := yearOf day
  let n := day + EPOCH - daysBeforeYear year
  let month := monthOfYearDay (isLeap year) n
  ⟨year, month, n - daysBeforeMonth (isLeap year) month + 1⟩

/-- A date as it is written. -/
def Civil.stamp (c : Civil) : ℤ := c.year * 10000 + c.month * 100 + c.day

def Civil.number (c : Civil) : ℤ := dayNumber c.year c.month c.day

def stampOf (day : ℤ) : ℤ := (civilOf day).stamp

def monthLength (leap : Bool) (month : ℤ) : ℤ := daysBeforeMonth leap (month + 1) - daysBeforeMonth leap month

/-- A date of the calendar. -/
structure Civil.Real (c : Civil) : Prop where
  month_pos : 1 ≤ c.month
  month_le : c.month ≤ 12
  day_pos : 1 ≤ c.day
  day_le : c.day ≤ monthLength (isLeap c.year) c.month

variable {c c' : Civil}

/-- The day `Date.parse` reads a written date as.  It looks for a month from 1 to 12 and a day from 1 to 31, and runs on into the next
month behind the last day of one. -/
def readDate (stamp : ℤ) : Option ℤ :=
  let month := stamp / 100 % 100
  let day := stamp % 100
  if 1 ≤ month ∧ month ≤ 12 ∧ 1 ≤ day ∧ day ≤ 31 then some (dayNumber (stamp / 10000) month day) else none

theorem shortage_cases (leap : Bool) : shortage leap = 1 ∨ shortage leap = 2 := by
  cases leap <;> decide

theorem daysBeforeYear_succ (year : ℤ) : daysBeforeYear (year + 1) = daysBeforeYear year + 367 - shortage (isLeap year) := by
  simp only [daysBeforeYear, isLeap, shortage]
  by_cases h4 : year % 4 = 0 <;> by_cases h100 : year % 100 = 0 <;> by_cases h400 : year % 400 = 0 <;>
    simp [h4, h100, h400] <;> omega

theorem yearOf_spec (day : ℤ) : daysBeforeYear (yearOf day) ≤ day + EPOCH ∧ day + EPOCH < daysBeforeYear (yearOf day + 1) := by
  simp only [yearOf]
  split
  · rename_i h
    simp only [daysBeforeYear] at *
    omega
  · split
    · rename_i h h'
      simp only [daysBeforeYear] at *
      omega
    · rename_i h h'
      simp only [daysBeforeYear] at *
      omega

theorem monthOfYearDay_spec (leap : Bool) {n : ℤ} (h0 : 0 ≤ n) (hn : n < 367 - shortage leap) :
    1 ≤ monthOfYearDay leap n ∧ monthOfYearDay leap n ≤ 12 ∧
      daysBeforeMonth leap (monthOfYearDay leap n) ≤ n ∧ n < daysBeforeMonth leap (monthOfYearDay leap n + 1) := by
  simp only [monthOfYearDay, daysBeforeMonth]
  rcases shortage_cases leap with h | h <;> simp only [h] at hn ⊢ <;> split <;> omega

theorem dayNumber_eq {year month : ℤ} (day : ℤ) (h₁ : 1 ≤ month) (h₁₂ : month ≤ 12) :
    dayNumber year month day = daysBeforeYear year + daysBeforeMonth (isLeap year) month + day - 1 - EPOCH := by
  simp only [dayNumber]
  rw [show (month - 1) / 12 = 0 by omega, show (month - 1) % 12 + 1 = month by omega, Int.add_zero]

theorem civilOf_real (day : ℤ) : (civilOf day).Real := by
  obtain ⟨hyear, hnext⟩ := yearOf_spec day
  rw [daysBeforeYear_succ] at hnext
  obtain ⟨h₁, h₁₂, hle, hlt⟩ := monthOfYearDay_spec (isLeap (yearOf day)) (n := day + EPOCH - daysBeforeYear (yearOf day))
    (by omega) (by omega)
  exact ⟨h₁, h₁₂, by simp only [civilOf]; omega, by simp only [civilOf, monthLength]; omega⟩

theorem number_civilOf (day : ℤ) : (civilOf day).number = day := by
  obtain ⟨h₁, h₁₂, -, -⟩ := civilOf_real day
  rw [Civil.number, dayNumber_eq _ h₁ h₁₂]
  simp only [civilOf]
  omega

theorem daysBeforeYear_mono {y y' : ℤ} (h : y ≤ y') : daysBeforeYear y ≤ daysBeforeYear y' := by
  simp only [daysBeforeYear]
  omega

theorem daysBeforeMonth_mono (leap : Bool) {m m' : ℤ} (h : m ≤ m') (h₁ : 1 ≤ m)  :
    daysBeforeMonth leap m ≤ daysBeforeMonth leap m' := by
  simp only [daysBeforeMonth]
  rcases shortage_cases leap with h | h <;> simp only [h] <;> split <;> split <;> omega

theorem daysBeforeMonth_bounds (leap : Bool) {m : ℤ} (h₁ : 1 ≤ m) (h₁₂ : m ≤ 12) :
    0 ≤ daysBeforeMonth leap m ∧ daysBeforeMonth leap (m + 1) ≤ 367 - shortage leap := by
  simp only [daysBeforeMonth]
  rcases shortage_cases leap with h | h <;> simp only [h] <;> split <;> split <;> omega

/-- The days of a real date's year. -/
theorem Civil.Real.number_bounds (h : c.Real) :
    daysBeforeYear c.year ≤ c.number + EPOCH ∧ c.number + EPOCH < daysBeforeYear (c.year + 1) := by
  obtain ⟨h₁, h₁₂, hday, hlength⟩ := h
  have hb := daysBeforeMonth_bounds (isLeap c.year) h₁ h₁₂
  rw [Civil.number, dayNumber_eq _ h₁ h₁₂, daysBeforeYear_succ]
  simp only [monthLength] at hlength
  omega

theorem monthLength_le (leap : Bool) {m : ℤ} (h₁ : 1 ≤ m) (h₁₂ : m ≤ 12) : monthLength leap m ≤ 31 := by
  simp only [monthLength, daysBeforeMonth]
  rcases shortage_cases leap with h | h <;> simp only [h] <;> split <;> split <;> omega

theorem Civil.Real.bounds (h : c.Real) : 1 ≤ c.month ∧ c.month ≤ 12 ∧ 1 ≤ c.day ∧ c.day ≤ 31 :=
  ⟨h.month_pos, h.month_le, h.day_pos, h.day_le.trans (monthLength_le _ h.month_pos h.month_le)⟩

theorem monthLength_pos (leap : Bool) {m : ℤ} (h₁ : 1 ≤ m) (h₁₂ : m ≤ 12) : 1 ≤ monthLength leap m := by
  simp only [monthLength, daysBeforeMonth]
  rcases shortage_cases leap with h | h <;> simp only [h] <;> split <;> split <;> omega

theorem Civil.Real.lt_of_stamp_lt (h : c.Real) (h' : c'.Real) (hlt : c.stamp < c'.stamp) : c.number < c'.number := by
  have hb := h.number_bounds
  have hb' := h'.number_bounds
  obtain ⟨h₁, h₁₂, hday, hlength⟩ := h
  obtain ⟨h₁', h₁₂', hday', hlength'⟩ := h'
  have hlong := monthLength_le (isLeap c.year) h₁ h₁₂
  have hlong' := monthLength_le (isLeap c'.year) h₁' h₁₂'
  simp only [Civil.stamp] at hlt
  rcases lt_trichotomy c.year c'.year with hyear | hyear | hyear
  · have := daysBeforeYear_mono (show c.year + 1 ≤ c'.year by omega)
    omega
  · simp only [Civil.number, dayNumber_eq _ h₁ h₁₂, dayNumber_eq _ h₁' h₁₂', ← hyear] at *
    by_cases hmonth : c.month < c'.month
    · have := daysBeforeMonth_mono (isLeap c.year) (show c.month + 1 ≤ c'.month by omega) (by omega)
      simp only [monthLength] at hlength
      omega
    · rw [show c.month = c'.month by omega]
      omega
  · omega

theorem Civil.Real.eq_of_stamp_eq (h : c.Real) (h' : c'.Real) (heq : c.stamp = c'.stamp) : c = c' := by
  obtain ⟨h₁, h₁₂, hday, hlength⟩ := h
  obtain ⟨h₁', h₁₂', hday', hlength'⟩ := h'
  have hlong := monthLength_le (isLeap c.year) h₁ h₁₂
  have hlong' := monthLength_le (isLeap c'.year) h₁' h₁₂'
  cases c
  cases c'
  simp only [Civil.stamp, Civil.mk.injEq] at *
  omega

/-- The written order of dates is the order of the days. -/
theorem Civil.Real.stamp_lt_iff (h : c.Real) (h' : c'.Real) : c.stamp < c'.stamp ↔ c.number < c'.number := by
  constructor
  · exact h.lt_of_stamp_lt h'
  · intro hlt
    rcases lt_trichotomy c.stamp c'.stamp with hstamp | hstamp | hstamp
    · exact hstamp
    · rw [h.eq_of_stamp_eq h' hstamp] at hlt
      omega
    · have := h'.lt_of_stamp_lt h hstamp
      omega

theorem civilOf_number (h : c.Real) : civilOf c.number = c := by
  have hreal := civilOf_real c.number
  have hnumber := number_civilOf c.number
  rcases lt_trichotomy (civilOf c.number).stamp c.stamp with hstamp | hstamp | hstamp
  · have := (hreal.stamp_lt_iff h).mp hstamp
    omega
  · exact hreal.eq_of_stamp_eq h hstamp
  · have := (h.stamp_lt_iff hreal).mp hstamp
    omega

theorem stampOf_lt_iff {d d' : ℤ} : stampOf d < stampOf d' ↔ d < d' := by
  rw [stampOf, stampOf, (civilOf_real d).stamp_lt_iff (civilOf_real d'), number_civilOf, number_civilOf]

theorem stampOf_le_iff {d d' : ℤ} : stampOf d ≤ stampOf d' ↔ d ≤ d' := by
  rw [← not_lt, stampOf_lt_iff, not_lt]

theorem stampOf_bounds (d : ℤ) : stampOf d / 10000 = (civilOf d).year ∧ stampOf d / 100 % 100 = (civilOf d).month ∧
    stampOf d % 100 = (civilOf d).day := by
  obtain ⟨h₁, h₁₂, hday, hlength⟩ := civilOf_real d
  have hlong := monthLength_le (isLeap (civilOf d).year) h₁ h₁₂
  simp only [stampOf, Civil.stamp]
  omega

/-- A day as it is written is read as that day. -/
theorem readDate_stampOf (d : ℤ) : readDate (stampOf d) = some d := by
  obtain ⟨hyear, hmonth, hday⟩ := stampOf_bounds d
  have hreal := civilOf_real d
  have hlong := monthLength_le (isLeap (civilOf d).year) hreal.month_pos hreal.month_le
  simp only [readDate, hyear, hmonth, hday]
  rw [if_pos ⟨hreal.month_pos, hreal.month_le, hreal.day_pos, hreal.day_le.trans hlong⟩]
  exact congrArg some (number_civilOf d)

/-- Only the last date of a year is read as its last day. -/
theorem eq_of_readDate_last {stamp d y : ℤ} (h : readDate stamp = some d) (hyear : stamp / 10000 ≤ y)
    (hlast : dayNumber y 12 31 ≤ d) : stamp = y * 10000 + 1231 := by
  simp only [readDate] at h
  split at h
  · rename_i hbounds
    obtain ⟨h₁, h₁₂, -, hday⟩ := hbounds
    obtain rfl := Option.some.inj h
    rw [dayNumber_eq _ h₁ h₁₂, dayNumber_eq 31 (by norm_num) le_rfl] at hlast
    have hmonth : ∀ leap, daysBeforeMonth leap 12 = 336 - shortage leap := fun leap => by cases leap <;> rfl
    have hshort := shortage_cases (isLeap (stamp / 10000))
    have hshort' := shortage_cases (isLeap y)
    rcases hyear.lt_or_eq with hyear | hyear
    · have hmono := daysBeforeMonth_mono (isLeap (stamp / 10000)) h₁₂ h₁
      have hnext := daysBeforeYear_mono (Int.add_one_le_of_lt hyear)
      have hsucc := daysBeforeYear_succ (stamp / 10000)
      rw [hmonth] at hmono hlast
      omega
    · rw [hyear, hmonth] at hlast
      rcases h₁₂.lt_or_eq with h₁₁ | h₁₂
      · simp only [daysBeforeMonth] at hlast
        split at hlast <;> omega
      · rw [h₁₂, hmonth] at hlast
        omega
  · cases h

/-- What is read as a day is written no later than that day. -/
theorem le_stampOf_readDate {stamp d : ℤ} (h : readDate stamp = some d) : stamp ≤ stampOf d := by
  simp only [readDate] at h
  split at h
  · rename_i hbounds
    obtain ⟨h₁, h₁₂, hday, -⟩ := hbounds
    obtain rfl := Option.some.inj h
    have hlong := monthLength_le (isLeap (stamp / 10000)) h₁ h₁₂
    by_cases hle : stamp % 100 ≤ monthLength (isLeap (stamp / 10000)) (stamp / 100 % 100)
    · have hreal : Civil.Real ⟨stamp / 10000, stamp / 100 % 100, stamp % 100⟩ := ⟨h₁, h₁₂, hday, hle⟩
      have hcivil := civilOf_number hreal
      rw [stampOf, show dayNumber (stamp / 10000) (stamp / 100 % 100) (stamp % 100) = Civil.number ⟨_, _, _⟩ from rfl, hcivil]
      simp only [Civil.stamp]
      omega
    · -- Behind the last day of the month lies a day of a later month.
      have hpos := monthLength_pos (isLeap (stamp / 10000)) h₁ h₁₂
      have hreal := civilOf_real (dayNumber (stamp / 10000) (stamp / 100 % 100) (stamp % 100))
      have hnumber := number_civilOf (dayNumber (stamp / 10000) (stamp / 100 % 100) (stamp % 100))
      have hlast : Civil.Real ⟨stamp / 10000, stamp / 100 % 100, monthLength (isLeap (stamp / 10000)) (stamp / 100 % 100)⟩ :=
        ⟨h₁, h₁₂, hpos, le_rfl⟩
      rw [stampOf]
      generalize civilOf (dayNumber (stamp / 10000) (stamp / 100 % 100) (stamp % 100)) = c at hreal hnumber ⊢
      have hbehind := (hlast.stamp_lt_iff hreal).mpr (by
        rw [hnumber]
        simp only [Civil.number, dayNumber]
        omega)
      have hlong' := monthLength_le (isLeap c.year) hreal.month_pos hreal.month_le
      obtain ⟨h₁', h₁₂', hday', hlength'⟩ := hreal
      simp only [Civil.stamp] at hbehind ⊢
      have hsplit : stamp / 100 / 100 = stamp / 10000 := by omega
      by_contra hlt
      have hyear : c.year = stamp / 10000 := by omega
      have hmonth : c.month = stamp / 100 % 100 := by omega
      rw [hyear, hmonth] at hlength'
      omega
  · cases h

end Pokyh.Lib

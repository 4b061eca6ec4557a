import Pokyh.Lib.Calendar

/-!
# Menu — SchoolCalendar

The school calendar of South Tyrol, computed for any year (`utils/schoolCalendarSuedtirol.ts`).
-/

namespace Pokyh.Menu
open Pokyh.Lib

/-- Why there are no lessons. -/
inductive DayOffReason where
  | weekend | summer | allSaints | christmas | winter | easter | holiday | bridge
  deriving DecidableEq, Repr

/-- Easter Sunday (Gregorian, anonymous algorithm). -/
def easterSunday (year : ℤ) : ℤ :=
  let a := year % 19
  let b := year / 100
  let c := year % 100
  let d := b / 4
  let e := b % 4
  let f := (b + 8) / 25
  let g := (b - f + 1) / 3
  let h := (19 * a + b - d - g + 15) % 30
  let i := c / 4
  let k := c % 4
  let l := (32 + 2 * e + 2 * i - h - k) % 7
  let m := (a + 11 * h + 22 * l) / 451
  dayNumber year ((h + l - 7 * m + 114) / 31) ((h + l - 7 * m + 114) % 31 + 1)

/-- The weekday as the calendar counts it, Sunday first. -/
def dow (t : ℤ) : ℤ := (t + 4) % 7

def weekMonday (t : ℤ) : ℤ := t - (dow t + 6) % 7

/-- The lessons of the school year that starts in `year`: from 5 September when that is a Monday to Thursday,
else the Monday after. -/
def firstLesson (year : ℤ) : ℤ :=
  let sep5 := dayNumber year 9 5
  if 1 ≤ dow sep5 ∧ dow sep5 ≤ 4 then sep5 else sep5 + (8 - dow sep5) % 7

/-- To 16 June when that is a Tuesday to Friday, else the Friday before. -/
def lastLesson (year : ℤ) : ℤ :=
  let jun16 := dayNumber (year + 1) 6 16
  if 2 ≤ dow jun16 ∧ dow jun16 ≤ 5 then jun16 else jun16 - (dow jun16 + 2) % 7

/-- Public holidays in Italy and South Tyrol. -/
def isPublicHoliday (t : ℤ) : Bool :=
  let d := civilOf t
  let md := d.month * 100 + d.day
  if md ∈ [101, 106, 425, 501, 602, 815, 1101, 1208, 1225, 1226] then true
  else if md = 1004 ∧ 2026 ≤ d.year then true
  else
    let easter := easterSunday d.year
    t = easter || t = easter + 1 || t = easter + 49 || t = easter + 50

/-- Why `t` is off before the bridge days are added. -/
def baseReason (t : ℤ) : Option DayOffReason :=
  let d := civilOf t
  let startYear := if 9 ≤ d.month then d.year else d.year - 1
  let nov1 := dayNumber startYear 11 1
  let allSaints := if dow nov1 = 0 then nov1 + 1 else weekMonday nov1
  let jan6 := dayNumber (startYear + 1) 1 6
  let christmasEnd := if 1 ≤ dow jan6 ∧ dow jan6 ≤ 4 then jan6 else jan6 + (7 - dow jan6) % 7
  let easter := easterSunday (startYear + 1)
  let ashWednesday := weekMonday (easter - 46)
  if t < firstLesson startYear ∨ lastLesson startYear < t then some .summer
  else if allSaints ≤ t ∧ t < allSaints + 7 then some .allSaints
  else if dayNumber startYear 12 24 ≤ t ∧ t ≤ christmasEnd then some .christmas
  else if ashWednesday ≤ t ∧ t < ashWednesday + 7 then some .winter
  else if easter - 3 ≤ t ∧ t ≤ easter + 2 then some .easter
  else if isPublicHoliday t then some .holiday
  else if dow t = 0 ∨ dow t = 6 then some .weekend
  else none

/-- Since the decision of 2025 the Monday before a free Tuesday is free. -/
def MONDAY_BRIDGES_FROM : ℤ := dayNumber 2025 9 1

/-- Why there are no lessons on `t` in South Tyrol, or `none` on a school day. -/
def suedtirolDayOff (t : ℤ) : Option DayOffReason :=
  (baseReason t).orElse fun _ =>
    if dow t = 5 ∧ isPublicHoliday (t - 1) then some .bridge
    else if dow t = 1 ∧ MONDAY_BRIDGES_FROM ≤ t ∧ (baseReason (t + 1)).isSome then some .bridge
    else none

end Pokyh.Menu

import Pokyh.Lib.Json
import Pokyh.Menu.Pull
import Pokyh.Menu.SchoolCalendar

/-!
# Menu — Seasons

Which of a menu's two plans serves a week (`utils/mensaSeason.ts`).  A week goes by its Monday.
-/

namespace Pokyh.Menu
open Pokyh.Lib

def Plan.other : Plan → Plan
  | .summer => .winter
  | .winter => .summer

@[simp] theorem Plan.other_other (plan : Plan) : plan.other.other = plan := by cases plan <;> rfl

theorem Plan.ne_iff {plan plan' : Plan} : plan ≠ plan' ↔ plan = plan'.other := by
  cases plan <;> cases plan' <;> decide

/-- When a menu's plans change: on the dates its canteen names, `MMDD`, or with the clocks. -/
inductive SeasonRule where
  | clock
  | dates (summerFrom winterFrom : ℤ)
  deriving DecidableEq

/-- `MM-DD`; any month has 31 days. -/
def monthDayOf : Option Json → Option ℤ
  | some (.string [m₁, m₂, 45, d₁, d₂]) => do
    let month ← digitsOf [m₁, m₂]
    let day ← digitsOf [d₁, d₂]
    if 1 ≤ month ∧ month ≤ 12 ∧ 1 ≤ day ∧ day ≤ 31 then some (month * 100 + day) else none
  | _ => none

/-- A menu's stored rule; whatever is not one gives the canteens' usual 1 April and 1 November. -/
def seasonRuleOf (kind summerFrom winterFrom : Option Json) : SeasonRule :=
  match kind with
  | some (.string kind) => if kind = units "clock" then .clock else byDates
  | _ => byDates
where
  byDates : SeasonRule :=
    let summer := (monthDayOf summerFrom).getD 401
    let usual := if summer = 1101 then 401 else 1101
    let winter := match monthDayOf winterFrom with
      | some winter => if winter ≠ summer then winter else usual
      | none => usual
    .dates summer winter

/-- Monday is 1, Sunday 7. -/
def utcDow (d : ℤ) : ℤ := if dow d = 0 then 7 else dow d

def utcMondayOf (d : ℤ) : ℤ := d - utcDow d + 1

/-- The last Sunday of a month, counted from 1: the day the EU changes its clocks. -/
def lastSundayUtc (year month : ℤ) : ℤ :=
  let last := dayNumber year (month + 1) 1 - 1
  last - dow last

/-- The plan whose season the week of `d` is in. -/
def seasonOfWeek (d : ℤ) (rule : SeasonRule) : Plan :=
  let monday := utcMondayOf d
  let date := civilOf monday
  match rule with
  | .dates summerFrom winterFrom =>
    let day := date.month * 100 + date.day
    if (if summerFrom < winterFrom then summerFrom ≤ day ∧ day < winterFrom else summerFrom ≤ day ∨ day < winterFrom) then .summer
    else .winter
  | .clock => if lastSundayUtc date.year 3 < monday ∧ monday < lastSundayUtc date.year 10 then .summer else .winter

def isInSeason (d : ℤ) (plan : Plan) (rule : SeasonRule) : Bool := seasonOfWeek d rule = plan

/-- About two full years of weeks. -/
def SNAP_WEEKS : ℕ := 110

/-- The Monday, or the first one behind it in the plan's season. -/
def snapForwardToSeason (monday : ℤ) (plan : Plan) (rule : SeasonRule) : ℤ :=
  (((List.range SNAP_WEEKS).map fun i : ℕ => monday + 7 * i).find? (isInSeason · plan rule)).getD monday

section Served
variable {α : Type*} (planOf : α → Plan) (dateOf : α → ℤ)

/-- The dishes of both plans that are served: for every week those of the plan whose season it is or, when that plan has
none that week, those of the other plan. -/
def servedDishes (dishes : List α) (rule : SeasonRule) : List α :=
  let inSeason := fun d => isInSeason (dateOf d) (planOf d) rule
  let covered := (dishes.filter inSeason).map (utcMondayOf ∘ dateOf)
  dishes.filter fun d => inSeason d || utcMondayOf (dateOf d) ∉ covered

end Served

theorem utcMondayOf_eq (d : ℤ) : utcMondayOf d = d - (d + 3) % 7 := by
  by_cases h : (d + 4) % 7 = 0
  · simp only [utcMondayOf, utcDow, dow, if_pos h]
    omega
  · simp only [utcMondayOf, utcDow, dow, if_neg h]
    omega

theorem utcMondayOf_le (d : ℤ) : utcMondayOf d ≤ d ∧ d ≤ utcMondayOf d + 6 := by
  rw [utcMondayOf_eq]
  omega

/-- The Monday of the week a day is in. -/
theorem utcMondayOf_add {m k : ℤ} (hm : utcMondayOf m = m) (h₀ : 0 ≤ k) (h₆ : k ≤ 6) : utcMondayOf (m + k) = m := by
  rw [utcMondayOf_eq] at *
  omega

theorem utcMondayOf_idem (d : ℤ) : utcMondayOf (utcMondayOf d) = utcMondayOf d := by
  simp only [utcMondayOf_eq]
  omega

theorem utcMondayOf_week {m : ℤ} (hm : utcMondayOf m = m) (k : ℤ) : utcMondayOf (m + 7 * k) = m + 7 * k := by
  rw [utcMondayOf_eq] at *
  omega

/-- Mondays lie whole weeks apart. -/
theorem weeks_between {m m' : ℤ} (hm : utcMondayOf m = m) (hm' : utcMondayOf m' = m') : ∃ k, m' = m + 7 * k := by
  refine ⟨(m' - m) / 7, ?_⟩
  rw [utcMondayOf_eq] at hm hm'
  omega

end Pokyh.Menu

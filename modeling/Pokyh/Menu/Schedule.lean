import Pokyh.Menu.Breaks
import Pokyh.Menu.Rotation

/-!
# Menu — Schedule

Where the weeks of both plans go when the server lays them out by itself (`planMoves`, `utils/mensaSchedule.ts`;
`layoutMenu`, `utils/mensaRotate.ts`).
-/

namespace Pokyh.Menu
open Pokyh.Lib

/-- Far enough for a plan to wait for its next season. -/
def MAX_WEEKS_AHEAD : ℕ := 160

/-- Whether a plan that serves on `weekdays` has a day open in the week of `monday`. -/
def isOpenWeek (monday : ℤ) (weekdays : List ℤ) (dayOffOf : ℤ → Option DayOff) : Bool :=
  weekdays.any fun weekday => !isClosed (dayOffOf (monday + weekday - 1))

def weeksOf (dishes : List MenuDishRow) : List ℤ := inOrder (dishes.map fun d => utcMondayOf d.date)

def weekdaysOf (dishes : List MenuDishRow) : List ℤ := (dishes.map fun d => utcDow d.date).dedup

structure WeekMove where
  plan : Plan
  fromMonday : ℤ
  toMonday : ℤ
  shiftDays : ℤ
  ids : List String
  deriving DecidableEq

/-- What a layout goes by. -/
structure Setting where
  dayOffOf : ℤ → Option DayOff
  rule : SeasonRule
  currentMonday : ℤ
  isMonday : utcMondayOf currentMonday = currentMonday

section
variable (x : Setting) (dishes : List MenuDishRow) (plan : Plan)

def rowsOf : List MenuDishRow := dishes.filter (·.plan = plan)

/-- A menu with only one plan runs all year. -/
def inSeason (monday : ℤ) : Bool := (rowsOf dishes plan.other).isEmpty || isInSeason monday plan x.rule

def opens (monday : ℤ) : Bool := isOpenWeek monday (weekdaysOf (rowsOf dishes plan)) x.dayOffOf

def isSlot (monday : ℤ) : Bool := inSeason x dishes plan monday && opens x dishes plan monday

def hasThisWeek : Bool := x.currentMonday ∈ weeksOf (rowsOf dishes plan)

/-- A week that is being served stays, as long as the other plan has nothing for it, and a plan only takes this week over when
nothing else is on it. -/
def takesThisWeek : Bool :=
  opens x dishes plan x.currentMonday &&
    if inSeason x dishes plan x.currentMonday then hasThisWeek x dishes plan || !hasThisWeek x dishes plan.other
    else hasThisWeek x dishes plan && !hasThisWeek x dishes plan.other

/-- The weeks as they come, past ones behind the others. -/
def orderOf : List ℤ :=
  (weeksOf (rowsOf dishes plan)).filter (x.currentMonday ≤ ·) ++ (weeksOf (rowsOf dishes plan)).filter (· < x.currentMonday)

def laterSlots : List ℤ :=
  ((List.range MAX_WEEKS_AHEAD).map fun i : ℕ => x.currentMonday + 7 * (i + 1)).filter (isSlot x dishes plan)

/-- As many slots as the plan has weeks, if there are. -/
def slotsOf : List ℤ :=
  ((if takesThisWeek x dishes plan then [x.currentMonday] else []) ++ laterSlots x dishes plan).take (orderOf x dishes plan).length

def moveOf (place : ℤ × ℤ) : Option WeekMove :=
  if place.1 = place.2 then none
  else some ⟨plan, place.1, place.2, place.2 - place.1,
    ((rowsOf dishes plan).filter fun d => utcMondayOf d.date = place.1).map (·.id)⟩

/-- Whether there is room for all weeks of the plan; without, it is left be. -/
def hasRoom : Bool := (orderOf x dishes plan).length ≤ (slotsOf x dishes plan).length

/-- Each week beside its slot. -/
def placesOf : List (ℤ × ℤ) :=
  if hasRoom x dishes plan then (orderOf x dishes plan).zip (slotsOf x dishes plan) else []

def movesOf : List WeekMove := (placesOf x dishes plan).filterMap (moveOf dishes plan)

/-- The moves that put both plans of a menu where they belong. -/
def planMoves : List WeekMove := movesOf x dishes .summer ++ movesOf x dishes .winter

/-- `UPDATE dishes SET date = DATE_ADD(date, …) WHERE id IN (…)`. -/
def WeekMove.apply (move : WeekMove) (d : MenuDishRow) : MenuDishRow :=
  if d.id ∈ move.ids then { d with date := d.date + move.shiftDays } else d

def layoutMenu : List MenuDishRow :=
  (planMoves x dishes).foldl (fun dishes move => dishes.map move.apply) dishes

end

end Pokyh.Menu

import Mathlib.Data.List.Pairwise
import Pokyh.Lib.Ordered
import Pokyh.Lib.Relocations
import Pokyh.Menu.Seasons

/-!
# Menu — Rotation

The past weeks of a plan go to its end (`rotatePastWeeks`, `utils/mensaRotate.ts`), one update of a range of dates
after the other, each onto the next week the plan's season has.
-/

namespace Pokyh.Menu
open Pokyh.Lib

/-- A row of `dishes`, as far as its place in the calendar goes. -/
structure MenuDishRow where
  id : String
  menuId : String
  plan : Plan
  date : ℤ
  deriving DecidableEq

section
variable (menuId : String) (plan : Plan) (rule : SeasonRule)

def MenuDishRow.ofPlan (d : MenuDishRow) : Bool := d.menuId = menuId ∧ d.plan = plan

/-- The weeks of a plan, by their Mondays. -/
def planMondays (dishes : List MenuDishRow) : List ℤ :=
  inOrder ((dishes.filter (·.ofPlan menuId plan)).map fun d => utcMondayOf d.date)

/-- `UPDATE dishes SET date = DATE_ADD(date, …)` for the week of `monday`. -/
def shiftWeek (monday shiftDays : ℤ) (dishes : List MenuDishRow) : List MenuDishRow :=
  dishes.map fun d =>
    if d.ofPlan menuId plan ∧ monday ≤ d.date ∧ d.date < monday + 7 then { d with date := d.date + shiftDays } else d

/-- The table on the way, and the week the next slot lies behind. -/
structure Rotating where
  dishes : List MenuDishRow
  lastAnchor : ℤ

def rotateWeek (s : Rotating) (monday : ℤ) : Rotating :=
  let newMon := snapForwardToSeason (s.lastAnchor + 7) plan rule
  let shiftDays := newMon - monday
  ⟨if shiftDays = 0 then s.dishes else shiftWeek menuId plan monday shiftDays s.dishes, newMon⟩

/-- The plan's last week from `currentMonday` on, or the week before it. -/
def lastAnchorOf (currentMonday : ℤ) (mondays : List ℤ) : ℤ :=
  (mondays.filter (currentMonday ≤ ·)).getLast?.getD (currentMonday - 7)

def rotatePastWeeks (currentMonday : ℤ) (dishes : List MenuDishRow) : List MenuDishRow :=
  let mondays := planMondays menuId plan dishes
  let past := mondays.filter (· < currentMonday)
  (past.foldl (rotateWeek menuId plan rule) ⟨dishes, lastAnchorOf currentMonday mondays⟩).dishes

/-- The dish in the week of another Monday, its weekday kept. -/
def MenuDishRow.inWeek (d : MenuDishRow) (monday : ℤ) : MenuDishRow := { d with date := monday + (d.date - utcMondayOf d.date) }

def MenuDishRow.movedTo (place : ℤ → ℤ) (d : MenuDishRow) : MenuDishRow :=
  if d.ofPlan menuId plan then d.inWeek (place (utcMondayOf d.date)) else d

/-- What rotating does to the plan: where each week goes. -/
structure Rotated (currentMonday : ℤ) (dishes dishes' : List MenuDishRow) (place : ℤ → ℤ) : Prop where
  dishes_eq : dishes' = dishes.map (·.movedTo menuId plan place)
  toMonday : ∀ m ∈ planMondays menuId plan dishes, utcMondayOf (place m) = place m
  unmoved : ∀ m ∈ planMondays menuId plan dishes, currentMonday ≤ m → place m = m
  notPast : ∀ m ∈ planMondays menuId plan dishes, currentMonday ≤ place m
  different : ∀ m ∈ planMondays menuId plan dishes, ∀ m' ∈ planMondays menuId plan dishes, place m = place m' → m = m'
  /-- The weeks afterwards: the others as they were, the past ones behind them in their order. -/
  mondays : planMondays menuId plan dishes' = (planMondays menuId plan dishes).filter (currentMonday ≤ ·) ++
    ((planMondays menuId plan dishes).filter (· < currentMonday)).map place
  inSeason : ∀ m ∈ planMondays menuId plan dishes, m < currentMonday → isInSeason (place m) plan rule

/-- Weeks of the season one behind the other: the first at most `SNAP_WEEKS` behind `anchor`, each at most as many behind
the one before. -/
inductive SeasonWeeks : ℤ → List ℤ → Prop where
  | nil (anchor : ℤ) : SeasonWeeks anchor []
  | cons {anchor : ℤ} {weeks : List ℤ} (i : ℕ) (hi : i < SNAP_WEEKS) (hseason : isInSeason (anchor + 7 + 7 * i) plan rule)
      (hrest : SeasonWeeks (anchor + 7 + 7 * i) weeks) : SeasonWeeks anchor ((anchor + 7 + 7 * i) :: weeks)

end

variable {menuId : String} {plan : Plan} {rule : SeasonRule} {currentMonday anchor m x : ℤ} {dishes : List MenuDishRow}
  {past weeks : List ℤ}

/-! ### The next week of the season -/

theorem snapForwardToSeason_spec (m : ℤ) (plan : Plan) (rule : SeasonRule) :
    (∃ i : ℕ, i < SNAP_WEEKS ∧ snapForwardToSeason m plan rule = m + 7 * i ∧ isInSeason (m + 7 * i) plan rule = true ∧
      ∀ j < i, isInSeason (m + 7 * j) plan rule = false) ∨
    (snapForwardToSeason m plan rule = m ∧ ∀ j < SNAP_WEEKS, isInSeason (m + 7 * j) plan rule = false) := by
  rw [snapForwardToSeason, List.find?_map]
  cases h : (List.range SNAP_WEEKS).find? ((isInSeason · plan rule) ∘ fun i : ℕ => m + 7 * i) with
  | none =>
    refine .inr ⟨rfl, fun j hj => ?_⟩
    simpa using List.find?_eq_none.mp h j (List.mem_range.mpr hj)
  | some i =>
    obtain ⟨hseason, hi, hbefore⟩ := List.find?_range_eq_some.mp h
    exact .inl ⟨i, List.mem_range.mp hi, rfl, hseason, fun j hj => by simpa using hbefore j hj⟩

theorem le_snapForwardToSeason (m : ℤ) (plan : Plan) (rule : SeasonRule) : m ≤ snapForwardToSeason m plan rule := by
  rcases snapForwardToSeason_spec m plan rule with ⟨i, -, hsnap, -⟩ | ⟨hsnap, -⟩ <;> omega

theorem utcMondayOf_snap (hm : utcMondayOf m = m) (plan : Plan) (rule : SeasonRule) :
    utcMondayOf (snapForwardToSeason m plan rule) = snapForwardToSeason m plan rule := by
  rcases snapForwardToSeason_spec m plan rule with ⟨i, -, hsnap, -⟩ | ⟨hsnap, -⟩
  · rw [hsnap, utcMondayOf_week hm]
  · rw [hsnap, hm]

theorem utcMondayOf_next (hm : utcMondayOf m = m) : utcMondayOf (m + 7) = m + 7 := utcMondayOf_week hm 1

/-- The weeks the past ones land on. -/
def landings (plan : Plan) (rule : SeasonRule) : ℤ → ℕ → List ℤ
  | _, 0 => []
  | anchor, n + 1 => snapForwardToSeason (anchor + 7) plan rule :: landings plan rule (snapForwardToSeason (anchor + 7) plan rule) n

theorem le_of_mem_landings {n : ℕ} (h : x ∈ landings plan rule anchor n) : anchor + 7 ≤ x := by
  induction n generalizing anchor with
  | zero => cases h
  | succ n ih =>
    have hle := le_snapForwardToSeason (anchor + 7) plan rule
    rcases List.mem_cons.mp h with rfl | h
    · omega
    · have := ih h
      omega

theorem pairwise_landings (plan : Plan) (rule : SeasonRule) (anchor : ℤ) (n : ℕ) :
    (landings plan rule anchor n).Pairwise (· < ·) := by
  induction n generalizing anchor with
  | zero => exact .nil
  | succ n ih => exact .cons (fun x h => by have := le_of_mem_landings h; omega) (ih _)

theorem utcMondayOf_landing {n : ℕ} (hanchor : utcMondayOf anchor = anchor) (h : x ∈ landings plan rule anchor n) :
    utcMondayOf x = x := by
  induction n generalizing anchor with
  | zero => cases h
  | succ n ih =>
    have hnext := utcMondayOf_snap (utcMondayOf_next hanchor) plan rule
    rcases List.mem_cons.mp h with rfl | h
    · exact hnext
    · exact ih hnext h

/-! ### Weeks in reach -/

/-- Landing in season, the past weeks land on weeks in reach. -/
theorem seasonWeeks_landings {n : ℕ} (h : ∀ x ∈ landings plan rule anchor n, isInSeason x plan rule = true) :
    SeasonWeeks plan rule anchor (landings plan rule anchor n) := by
  induction n generalizing anchor with
  | zero => exact .nil _
  | succ n ih =>
    have hin := h _ List.mem_cons_self
    have hrest := ih fun x hx => h x (List.mem_cons_of_mem _ hx)
    rcases snapForwardToSeason_spec (anchor + 7) plan rule with ⟨i, hi, hsnap, -⟩ | ⟨hsnap, hnone⟩
    · simp only [landings]
      rw [hsnap] at hin hrest ⊢
      exact .cons i hi hin hrest
    · have hfirst := hnone 0 (by decide)
      rw [hsnap] at hin
      simp [hin] at hfirst

theorem SeasonWeeks.lt_of_mem (h : SeasonWeeks plan rule anchor weeks) (hx : x ∈ weeks) : anchor < x := by
  induction h with
  | nil => cases hx
  | cons i hi hseason hrest ih =>
    rcases List.mem_cons.mp hx with rfl | hx
    · omega
    · have := ih hx
      omega

/-- As long as weeks of the season are in reach, the next week found is one of the season: it lies before the first of
them, or is it. -/
theorem landings_inSeason {n : ℕ} {k : ℕ} (h : SeasonWeeks plan rule anchor weeks) (hahead : ∀ w ∈ weeks, anchor + 7 * k < w)
    (hn : n ≤ weeks.length) : ∀ x ∈ landings plan rule (anchor + 7 * k) n, isInSeason x plan rule = true := by
  induction n generalizing anchor weeks k with
  | zero =>
    intro x hx
    cases hx
  | succ n ih =>
    cases h with
    | nil => simp at hn
    | @cons _ weeks i hi hseason hrest =>
      have hfirst := hahead _ List.mem_cons_self
      rcases snapForwardToSeason_spec (anchor + 7 * k + 7) plan rule with ⟨j, hj, hsnap, hin, hbefore⟩ | ⟨-, hnone⟩
      · have hle : k + j ≤ i := by
          by_contra hlt
          have hmiss := hbefore (i - k) (by omega)
          rw [show anchor + 7 * k + 7 + 7 * ((i - k : ℕ) : ℤ) = anchor + 7 + 7 * i by omega, hseason] at hmiss
          cases hmiss
        intro x hx
        rcases List.mem_cons.mp hx with rfl | hx
        · rw [hsnap]
          exact hin
        · rw [hsnap] at hx
          by_cases heq : k + j = i
          · refine ih (k := 0) hrest (fun w hw => ?_) (by simpa using hn) x ?_
            · have := hrest.lt_of_mem hw
              omega
            · rwa [show anchor + 7 + 7 * (i : ℤ) + 7 * ((0 : ℕ) : ℤ) = anchor + 7 * k + 7 + 7 * j by omega]
          · refine ih (k := k + j + 1) (.cons i hi hseason hrest) (fun w hw => ?_) (by omega) x ?_
            · rcases List.mem_cons.mp hw with rfl | hw
              · omega
              · have := hrest.lt_of_mem hw
                omega
            · rwa [show anchor + 7 * ((k + j + 1 : ℕ) : ℤ) = anchor + 7 * k + 7 + 7 * j by omega]
      · have hmiss := hnone (i - k) (by omega)
        rw [show anchor + 7 * k + 7 + 7 * ((i - k : ℕ) : ℤ) = anchor + 7 + 7 * i by omega, hseason] at hmiss
        cases hmiss

/-! ### Where each week goes -/

/-- The place of a week when the weeks `past` land behind `anchor`. -/
def placeOf (plan : Plan) (rule : SeasonRule) (past : List ℤ) (anchor : ℤ) : ℤ → ℤ :=
  relocate (past.zip (landings plan rule anchor past.length))

theorem placeOf_cons (p : ℤ) (past : List ℤ) (anchor m : ℤ) :
    placeOf plan rule (p :: past) anchor m =
      if m = p then snapForwardToSeason (anchor + 7) plan rule
      else placeOf plan rule past (snapForwardToSeason (anchor + 7) plan rule) m := rfl

theorem length_landings (plan : Plan) (rule : SeasonRule) (anchor : ℤ) (n : ℕ) : (landings plan rule anchor n).length = n := by
  induction n generalizing anchor with
  | zero => rfl
  | succ n ih => rw [landings, List.length_cons, ih]

theorem placeOf_of_notMem (h : m ∉ past) (anchor : ℤ) : placeOf plan rule past anchor m = m := by
  refine relocate_of_notMem ?_
  rwa [List.map_fst_zip (length_landings _ _ _ _).ge]

theorem utcMondayOf_inWeek (hm : utcMondayOf m = m) (d : MenuDishRow) : utcMondayOf (d.inWeek m).date = m := by
  have := utcMondayOf_le d.date
  exact utcMondayOf_add hm (by omega) (by omega)

theorem inWeek_inWeek (hm : utcMondayOf m = m) (d : MenuDishRow) (x : ℤ) : (d.inWeek m).inWeek x = d.inWeek x := by
  have h := utcMondayOf_inWeek hm d
  simp only [MenuDishRow.inWeek] at h ⊢
  rw [h, add_sub_cancel_left]

@[simp] theorem ofPlan_inWeek (d : MenuDishRow) (x : ℤ) : (d.inWeek x).ofPlan menuId plan = d.ofPlan menuId plan := rfl

@[simp] theorem ofPlan_movedTo (d : MenuDishRow) (place : ℤ → ℤ) : (d.movedTo menuId plan place).ofPlan menuId plan = d.ofPlan menuId plan := by
  unfold MenuDishRow.movedTo
  split <;> rfl

/-- The update of a week's dates moves the dishes of that week. -/
theorem shiftWeek_eq (hm : utcMondayOf m = m) (x : ℤ) (dishes : List MenuDishRow) :
    shiftWeek menuId plan m (x - m) dishes =
      dishes.map fun d => if d.ofPlan menuId plan ∧ utcMondayOf d.date = m then d.inWeek x else d := by
  refine List.map_congr_left fun d _ => ?_
  have hweek := utcMondayOf_le d.date
  by_cases h : utcMondayOf d.date = m
  · by_cases hplan : d.ofPlan menuId plan = true
    · rw [if_pos ⟨hplan, by omega, by omega⟩, if_pos ⟨hplan, h⟩, MenuDishRow.inWeek, h]
      congr 1
      omega
    · rw [if_neg fun hc => hplan hc.1, if_neg fun hc => hplan hc.1]
  · have hout : ¬ (m ≤ d.date ∧ d.date < m + 7) := by
      intro hc
      have hin := utcMondayOf_add hm (k := d.date - m) (by omega) (by omega)
      rw [show m + (d.date - m) = d.date by omega] at hin
      exact h hin
    rw [if_neg fun hc => hout hc.2, if_neg fun hc => h hc.2]

/-- One update after the other, every past week goes to its place. -/
theorem foldl_rotateWeek (hanchor : utcMondayOf anchor = anchor) (hpast : past.Nodup)
    (hmondays : ∀ m ∈ past, utcMondayOf m = m) (hbehind : ∀ m ∈ past, m < anchor + 7) (dishes : List MenuDishRow) :
    (past.foldl (rotateWeek menuId plan rule) ⟨dishes, anchor⟩).dishes =
      dishes.map (·.movedTo menuId plan (placeOf plan rule past anchor)) := by
  induction past generalizing dishes anchor with
  | nil =>
    refine (List.map_id'' (fun d => ?_) dishes).symm
    simp [MenuDishRow.movedTo, placeOf, relocate, MenuDishRow.inWeek]
  | cons p past ih =>
    have hle := le_snapForwardToSeason (anchor + 7) plan rule
    have hnext := utcMondayOf_snap (utcMondayOf_next hanchor) plan rule
    have hp := hbehind p List.mem_cons_self
    have hnodup := List.nodup_cons.mp hpast
    have hrest : ∀ m ∈ past, m < anchor + 7 := fun m hm => hbehind m (List.mem_cons_of_mem _ hm)
    have hfresh : snapForwardToSeason (anchor + 7) plan rule ∉ past := fun hmem => by
      have := hrest _ hmem
      omega
    simp only [List.foldl_cons, rotateWeek]
    rw [if_neg (by omega), ih hnext hnodup.2 (fun m hm => hmondays m (List.mem_cons_of_mem _ hm))
      (fun m hm => by have := hrest m hm; omega), shiftWeek_eq (hmondays p List.mem_cons_self), List.map_map]
    refine List.map_congr_left fun d _ => ?_
    by_cases hplan : d.ofPlan menuId plan = true
    · by_cases hweek : utcMondayOf d.date = p
      · -- The week of this update: it is in its place, which no later update touches.
        simp only [Function.comp_apply, MenuDishRow.movedTo, hplan, hweek, and_self, if_true, ofPlan_inWeek, placeOf_cons]
        rw [inWeek_inWeek hnext, utcMondayOf_inWeek hnext, placeOf_of_notMem hfresh]
      · simp [MenuDishRow.movedTo, hplan, hweek, placeOf_cons]
    · simp [MenuDishRow.movedTo, hplan]

/-! ### The plan afterwards -/

theorem mem_planMondays : m ∈ planMondays menuId plan dishes ↔ ∃ d ∈ dishes, d.ofPlan menuId plan = true ∧ utcMondayOf d.date = m := by
  simp [planMondays, and_assoc]

theorem utcMondayOf_planMonday (h : m ∈ planMondays menuId plan dishes) : utcMondayOf m = m := by
  obtain ⟨d, -, -, rfl⟩ := mem_planMondays.mp h
  exact utcMondayOf_idem _

/-- The weeks of the moved dishes are the places of the weeks. -/
theorem mem_planMondays_movedTo {place : ℤ → ℤ} (hplace : ∀ m ∈ planMondays menuId plan dishes, utcMondayOf (place m) = place m) :
    x ∈ planMondays menuId plan (dishes.map (·.movedTo menuId plan place)) ↔ ∃ m ∈ planMondays menuId plan dishes, place m = x := by
  constructor
  · intro h
    obtain ⟨moved, hmoved, hplan, rfl⟩ := mem_planMondays.mp h
    obtain ⟨d, hd, rfl⟩ := List.mem_map.mp hmoved
    rw [ofPlan_movedTo] at hplan
    have hm := mem_planMondays.mpr ⟨d, hd, hplan, rfl⟩
    refine ⟨_, hm, ?_⟩
    rw [MenuDishRow.movedTo, if_pos hplan, utcMondayOf_inWeek (hplace _ hm)]
  · rintro ⟨m, hm, rfl⟩
    obtain ⟨d, hd, hplan, rfl⟩ := mem_planMondays.mp hm
    refine mem_planMondays.mpr ⟨_, List.mem_map.mpr ⟨d, hd, rfl⟩, by rwa [ofPlan_movedTo], ?_⟩
    rw [MenuDishRow.movedTo, if_pos hplan, utcMondayOf_inWeek (hplace _ hm)]

/-! ### All of a rotation -/

theorem utcMondayOf_lastAnchorOf (hcurrent : utcMondayOf currentMonday = currentMonday) {mondays : List ℤ} (h : ∀ m ∈ mondays, utcMondayOf m = m) :
    utcMondayOf (lastAnchorOf currentMonday mondays) = lastAnchorOf currentMonday mondays := by
  rw [lastAnchorOf]
  cases hlast : (mondays.filter (currentMonday ≤ ·)).getLast? with
  | none => exact utcMondayOf_week hcurrent (-1)
  | some m => exact h m (List.mem_filter.mp (List.mem_of_getLast? hlast)).1

/-- The anchor is the last of the weeks that stay. -/
theorem le_lastAnchorOf {mondays : List ℤ} (hsorted : mondays.Pairwise (· < ·)) (hm : m ∈ mondays) (hle : currentMonday ≤ m) :
    m ≤ lastAnchorOf currentMonday mondays := by
  have hmem : m ∈ mondays.filter (currentMonday ≤ ·) := List.mem_filter.mpr ⟨hm, by simpa using hle⟩
  have hne := List.ne_nil_of_mem hmem
  rw [lastAnchorOf, List.getLast?_eq_some_getLast hne, Option.getD_some]
  exact ((hsorted.filter _).imp le_of_lt).rel_getLast hmem

theorem le_lastAnchorOf_add (currentMonday : ℤ) (mondays : List ℤ) : currentMonday ≤ lastAnchorOf currentMonday mondays + 7 := by
  rw [lastAnchorOf]
  cases hlast : (mondays.filter (currentMonday ≤ ·)).getLast? with
  | none => simp
  | some m =>
    have hle : currentMonday ≤ m := by simpa using (List.mem_filter.mp (List.mem_of_getLast? hlast)).2
    simp only [Option.getD_some]
    omega

/-- The weeks of the plan that lie before `currentMonday`. -/
def pastWeeks (menuId : String) (plan : Plan) (currentMonday : ℤ) (dishes : List MenuDishRow) : List ℤ :=
  (planMondays menuId plan dishes).filter (· < currentMonday)

/-- Where a rotation takes week `m`. -/
def rotationOf (menuId : String) (plan : Plan) (rule : SeasonRule) (currentMonday : ℤ) (dishes : List MenuDishRow) (m : ℤ) : ℤ :=
  placeOf plan rule (pastWeeks menuId plan currentMonday dishes) (lastAnchorOf currentMonday (planMondays menuId plan dishes)) m

theorem nodup_pastWeeks : (pastWeeks menuId plan currentMonday dishes).Nodup := (nodup_inOrder _).filter _

theorem mem_pastWeeks : m ∈ pastWeeks menuId plan currentMonday dishes ↔ m ∈ planMondays menuId plan dishes ∧ m < currentMonday := by
  simp [pastWeeks]

theorem map_rotationOf : (pastWeeks menuId plan currentMonday dishes).map (rotationOf menuId plan rule currentMonday dishes) =
    landings plan rule (lastAnchorOf currentMonday (planMondays menuId plan dishes)) (pastWeeks menuId plan currentMonday dishes).length :=
  map_relocate_zip nodup_pastWeeks (length_landings _ _ _ _).symm

theorem rotationOf_future (hle : currentMonday ≤ m) : rotationOf menuId plan rule currentMonday dishes m = m :=
  placeOf_of_notMem (fun h => absurd (mem_pastWeeks.mp h).2 (by omega)) _

theorem rotationOf_past (hm : m ∈ pastWeeks menuId plan currentMonday dishes) :
    rotationOf menuId plan rule currentMonday dishes m ∈
      landings plan rule (lastAnchorOf currentMonday (planMondays menuId plan dishes)) (pastWeeks menuId plan currentMonday dishes).length := by
  rw [← map_rotationOf]
  exact List.mem_map_of_mem hm

theorem rotatePastWeeks_eq (hcurrent : utcMondayOf currentMonday = currentMonday) :
    rotatePastWeeks menuId plan rule currentMonday dishes =
      dishes.map (·.movedTo menuId plan (rotationOf menuId plan rule currentMonday dishes)) := by
  refine foldl_rotateWeek (utcMondayOf_lastAnchorOf hcurrent fun m hm => utcMondayOf_planMonday hm) nodup_pastWeeks
    (fun m hm => utcMondayOf_planMonday (mem_pastWeeks.mp hm).1) (fun m hm => ?_) dishes
  have hlt := (mem_pastWeeks.mp hm).2
  have hle := le_lastAnchorOf_add currentMonday (planMondays menuId plan dishes)
  omega

theorem rotation_monday (hcurrent : utcMondayOf currentMonday = currentMonday) (hm : m ∈ planMondays menuId plan dishes) :
    utcMondayOf (rotationOf menuId plan rule currentMonday dishes m) = rotationOf menuId plan rule currentMonday dishes m := by
  by_cases hle : currentMonday ≤ m
  · rw [rotationOf_future hle, utcMondayOf_planMonday hm]
  · exact utcMondayOf_landing (utcMondayOf_lastAnchorOf hcurrent fun m hm => utcMondayOf_planMonday hm)
      (rotationOf_past (mem_pastWeeks.mpr ⟨hm, by omega⟩))

theorem rotation_pairwise : ((planMondays menuId plan dishes).filter (currentMonday ≤ ·) ++
    (pastWeeks menuId plan currentMonday dishes).map (rotationOf menuId plan rule currentMonday dishes)).Pairwise (· < ·) := by
  refine List.pairwise_append.mpr ⟨(pairwise_inOrder _).filter _, ?_, ?_⟩
  · rw [map_rotationOf]
    exact pairwise_landings _ _ _ _
  · intro m hm x hx
    rw [map_rotationOf] at hx
    obtain ⟨hmem, hle⟩ := List.mem_filter.mp hm
    have hlast := le_lastAnchorOf (pairwise_inOrder _) hmem (by simpa using hle)
    have hland := le_of_mem_landings hx
    simp only [planMondays] at hland
    omega

/-- The weeks as they are moved, the others in front. -/
theorem mem_rotation : x ∈ (planMondays menuId plan dishes).filter (currentMonday ≤ ·) ++
      (pastWeeks menuId plan currentMonday dishes).map (rotationOf menuId plan rule currentMonday dishes) ↔
    ∃ m ∈ planMondays menuId plan dishes, rotationOf menuId plan rule currentMonday dishes m = x := by
  simp only [List.mem_append, List.mem_filter, List.mem_map, mem_pastWeeks, decide_eq_true_eq]
  constructor
  · rintro (⟨hm, hle⟩ | ⟨m, ⟨hm, -⟩, rfl⟩)
    · exact ⟨x, hm, rotationOf_future hle⟩
    · exact ⟨m, hm, rfl⟩
  · rintro ⟨m, hm, rfl⟩
    by_cases hle : currentMonday ≤ m
    · exact .inl (by rw [rotationOf_future hle]; exact ⟨hm, hle⟩)
    · exact .inr ⟨m, ⟨hm, by omega⟩, rfl⟩

theorem rotation_injective {m' : ℤ} (hm : m ∈ planMondays menuId plan dishes) (hm' : m' ∈ planMondays menuId plan dishes)
    (heq : rotationOf menuId plan rule currentMonday dishes m = rotationOf menuId plan rule currentMonday dishes m') : m = m' := by
  have hfuture : ((planMondays menuId plan dishes).filter (currentMonday ≤ ·)).map (rotationOf menuId plan rule currentMonday dishes) =
      (planMondays menuId plan dishes).filter (currentMonday ≤ ·) :=
    (List.map_congr_left fun m hm => rotationOf_future (by simpa using (List.mem_filter.mp hm).2)).trans (List.map_id _)
  have hsorted := @rotation_pairwise menuId plan rule currentMonday dishes
  rw [← hfuture, ← List.map_append] at hsorted
  have hmem : ∀ m ∈ planMondays menuId plan dishes,
      m ∈ (planMondays menuId plan dishes).filter (currentMonday ≤ ·) ++ pastWeeks menuId plan currentMonday dishes := by
    intro m hm
    simp only [List.mem_append, List.mem_filter, mem_pastWeeks, decide_eq_true_eq]
    by_cases hle : currentMonday ≤ m
    · exact .inl ⟨hm, hle⟩
    · exact .inr ⟨hm, by omega⟩
  exact List.inj_on_of_nodup_map (hsorted.imp ne_of_lt) (hmem m hm) (hmem m' hm') heq

theorem planMondays_rotatePastWeeks (hcurrent : utcMondayOf currentMonday = currentMonday) :
    planMondays menuId plan (rotatePastWeeks menuId plan rule currentMonday dishes) =
      (planMondays menuId plan dishes).filter (currentMonday ≤ ·) ++
        (pastWeeks menuId plan currentMonday dishes).map (rotationOf menuId plan rule currentMonday dishes) := by
  rw [rotatePastWeeks_eq hcurrent]
  refine inOrder_eq rotation_pairwise fun x => mem_rotation.trans ?_
  rw [← mem_planMondays_movedTo fun m hm => rotation_monday hcurrent hm, planMondays, mem_inOrder]

/-- Everything but the season, which depends on the weeks in reach. -/
theorem rotated_of_season (hcurrent : utcMondayOf currentMonday = currentMonday)
    (hseason : ∀ x ∈ landings plan rule (lastAnchorOf currentMonday (planMondays menuId plan dishes))
      (pastWeeks menuId plan currentMonday dishes).length, isInSeason x plan rule = true) :
    Rotated menuId plan rule currentMonday dishes (rotatePastWeeks menuId plan rule currentMonday dishes)
      (rotationOf menuId plan rule currentMonday dishes) where
  dishes_eq := rotatePastWeeks_eq hcurrent
  toMonday := fun m hm => rotation_monday hcurrent hm
  unmoved := fun m _ hle => rotationOf_future hle
  notPast := fun m hm => by
    by_cases hle : currentMonday ≤ m
    · rwa [rotationOf_future hle]
    · have hland := le_of_mem_landings (@rotationOf_past _ _ rule _ _ _ (mem_pastWeeks.mpr ⟨hm, not_le.mp hle⟩))
      have hahead := le_lastAnchorOf_add currentMonday (planMondays menuId plan dishes)
      omega
  different := fun m hm m' hm' => rotation_injective hm hm'
  mondays := planMondays_rotatePastWeeks hcurrent
  inSeason := fun m hm hlt => hseason _ (rotationOf_past (mem_pastWeeks.mpr ⟨hm, hlt⟩))

/-- Past weeks are rotated as they should be exactly when the plan's season has enough weeks in reach. -/
theorem rotatePastWeeks_iff (menuId : String) (plan : Plan) (rule : SeasonRule) (today : ℤ) (dishes : List MenuDishRow) :
    (∃ place, Rotated menuId plan rule (utcMondayOf today) dishes
        (rotatePastWeeks menuId plan rule (utcMondayOf today) dishes) place) ↔
      ∃ weeks, weeks.length = (pastWeeks menuId plan (utcMondayOf today) dishes).length ∧
        SeasonWeeks plan rule (lastAnchorOf (utcMondayOf today) (planMondays menuId plan dishes)) weeks := by
  have hcurrent := utcMondayOf_idem today
  constructor
  · rintro ⟨place, h⟩
    have hmondays := h.mondays
    rw [planMondays_rotatePastWeeks hcurrent, map_rotationOf] at hmondays
    have hplaces := List.append_cancel_left hmondays
    refine ⟨_, length_landings _ _ _ _, seasonWeeks_landings fun x hx => ?_⟩
    rw [hplaces] at hx
    obtain ⟨m, hm, rfl⟩ := List.mem_map.mp hx
    obtain ⟨hm, hlt⟩ := List.mem_filter.mp hm
    exact h.inSeason m hm (by simpa using hlt)
  · rintro ⟨weeks, hlength, hweeks⟩
    refine ⟨_, rotated_of_season hcurrent fun x hx => ?_⟩
    refine landings_inSeason (k := 0) hweeks (fun w hw => by have := hweeks.lt_of_mem hw; omega) hlength.ge x ?_
    simpa using hx

/-- A canteen with summer dishes on 1 April alone. -/
def aprilFools : SeasonRule := seasonRuleOf (some (.string (units "dates"))) (some (.string (units "04-01"))) (some (.string (units "04-02")))

/-- The only week of the summer plan is over, and 1 April is no Monday for longer than the search goes. -/
def lastAprils : List MenuDishRow := [⟨"d1", "m1", .summer, dayNumber 2024 4 3⟩]

theorem summer_week_in_winter :
    rotatePastWeeks "m1" .summer aprilFools (utcMondayOf (dayNumber 2026 9 16)) lastAprils =
        [⟨"d1", "m1", .summer, dayNumber 2026 9 16⟩] ∧
      ¬ ∃ place, Rotated "m1" .summer aprilFools (utcMondayOf (dayNumber 2026 9 16)) lastAprils
        (rotatePastWeeks "m1" .summer aprilFools (utcMondayOf (dayNumber 2026 9 16)) lastAprils) place := by
  have hrow : rotatePastWeeks "m1" .summer aprilFools (utcMondayOf (dayNumber 2026 9 16)) lastAprils =
      [⟨"d1", "m1", .summer, dayNumber 2026 9 16⟩] := by decide +kernel
  refine ⟨hrow, ?_⟩
  rintro ⟨place, h⟩
  have hm : dayNumber 2024 4 1 ∈ planMondays "m1" .summer lastAprils := by decide +kernel
  have hmondays := h.mondays
  have hseason := h.inSeason _ hm (by decide +kernel)
  rw [hrow, show planMondays "m1" .summer lastAprils = [dayNumber 2024 4 1] by decide +kernel,
    show planMondays "m1" .summer [⟨"d1", "m1", .summer, dayNumber 2026 9 16⟩] = [dayNumber 2026 9 14] by decide +kernel,
    show [dayNumber 2024 4 1].filter (utcMondayOf (dayNumber 2026 9 16) ≤ ·) = [] by decide +kernel,
    show [dayNumber 2024 4 1].filter (· < utcMondayOf (dayNumber 2026 9 16)) = [dayNumber 2024 4 1] by decide +kernel] at hmondays
  simp only [List.nil_append, List.map_cons, List.map_nil, List.cons.injEq, and_true] at hmondays
  rw [← hmondays] at hseason
  exact absurd hseason (by decide +kernel)

end Pokyh.Menu

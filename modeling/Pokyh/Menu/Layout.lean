import Pokyh.Menu.Schedule

/-!
# Menu — Layout

What a layout of a menu leaves behind, and when the next one for the same week has nothing left to move.  Each plan is laid
out from where the other one was before: that a plan makes way in this week only shows the next time.
-/

namespace Pokyh.Menu
open Pokyh.Lib

variable {x : Setting} {dishes : List MenuDishRow} {plan : Plan} {m w : ℤ} {d : MenuDishRow}

/-- The dishes of a menu, each with its own id. -/
structure MenuTable where
  dishes : List MenuDishRow
  ids : (dishes.map (·.id)).Nodup

/-! ### Weeks, slots and places -/

theorem mem_weeksOf : m ∈ weeksOf dishes ↔ ∃ d ∈ dishes, utcMondayOf d.date = m := by
  simp [weeksOf]

theorem utcMondayOf_week_of (h : m ∈ weeksOf dishes) : utcMondayOf m = m := by
  obtain ⟨d, -, rfl⟩ := mem_weeksOf.mp h
  exact utcMondayOf_idem _

theorem mem_rowsOf : d ∈ rowsOf dishes plan ↔ d ∈ dishes ∧ d.plan = plan := by
  simp [rowsOf]

theorem mem_orderOf : m ∈ orderOf x dishes plan ↔ m ∈ weeksOf (rowsOf dishes plan) := by
  simp only [orderOf, List.mem_append, List.mem_filter, decide_eq_true_eq]
  constructor
  · rintro (h | h) <;> exact h.1
  · intro h
    by_cases hle : x.currentMonday ≤ m
    · exact .inl ⟨h, hle⟩
    · exact .inr ⟨h, by omega⟩

theorem nodup_orderOf (x : Setting) (dishes : List MenuDishRow) (plan : Plan) : (orderOf x dishes plan).Nodup := by
  have hweeks : (weeksOf (rowsOf dishes plan)).Nodup := nodup_inOrder _
  refine List.nodup_append.mpr ⟨hweeks.filter _, hweeks.filter _, ?_⟩
  rintro m hm m' hm' rfl
  have hle : x.currentMonday ≤ m := by simpa using (List.mem_filter.mp hm).2
  have hlt : m < x.currentMonday := by simpa using (List.mem_filter.mp hm').2
  omega

/-- Behind one another, weeks from the current one on keep their order. -/
theorem orderOf_of_future (h : ∀ m ∈ weeksOf (rowsOf dishes plan), x.currentMonday ≤ m) :
    orderOf x dishes plan = weeksOf (rowsOf dishes plan) := by
  rw [orderOf, List.filter_eq_self.mpr (by simpa using h), List.filter_eq_nil_iff.mpr (by simpa using h), List.append_nil]

theorem mem_laterSlots (h : w ∈ laterSlots x dishes plan) :
    x.currentMonday < w ∧ utcMondayOf w = w ∧ isSlot x dishes plan w = true := by
  obtain ⟨hw, hslot⟩ := List.mem_filter.mp h
  obtain ⟨i, -, rfl⟩ := List.mem_map.mp hw
  exact ⟨by omega, utcMondayOf_week x.isMonday _, hslot⟩

theorem pairwise_laterSlots (x : Setting) (dishes : List MenuDishRow) (plan : Plan) :
    (laterSlots x dishes plan).Pairwise (· < ·) := by
  refine List.Pairwise.filter _ (List.pairwise_map.mpr ?_)
  exact List.pairwise_lt_range.imp fun h => by omega

/-- The slots there are, this week's in front. -/
def allSlots (x : Setting) (dishes : List MenuDishRow) (plan : Plan) : List ℤ :=
  (if takesThisWeek x dishes plan then [x.currentMonday] else []) ++ laterSlots x dishes plan

theorem slotsOf_eq : slotsOf x dishes plan = (allSlots x dishes plan).take (orderOf x dishes plan).length := rfl

theorem allSlots_of_takes (h : takesThisWeek x dishes plan = true) :
    allSlots x dishes plan = x.currentMonday :: laterSlots x dishes plan := by
  simp [allSlots, h]

theorem allSlots_of_not_takes (h : takesThisWeek x dishes plan = false) : allSlots x dishes plan = laterSlots x dishes plan := by
  simp [allSlots, h]

theorem pairwise_allSlots (x : Setting) (dishes : List MenuDishRow) (plan : Plan) : (allSlots x dishes plan).Pairwise (· < ·) := by
  cases h : takesThisWeek x dishes plan with
  | false =>
    rw [allSlots_of_not_takes h]
    exact pairwise_laterSlots x dishes plan
  | true =>
    rw [allSlots_of_takes h]
    exact .cons (fun w hw => (mem_laterSlots hw).1) (pairwise_laterSlots x dishes plan)

theorem mem_allSlots (h : w ∈ allSlots x dishes plan) :
    (w = x.currentMonday ∧ takesThisWeek x dishes plan = true) ∨ w ∈ laterSlots x dishes plan := by
  cases htakes : takesThisWeek x dishes plan with
  | false => exact .inr (by rwa [allSlots_of_not_takes htakes] at h)
  | true =>
    rw [allSlots_of_takes htakes] at h
    exact (List.mem_cons.mp h).imp (⟨·, rfl⟩) id

theorem pairwise_slotsOf (x : Setting) (dishes : List MenuDishRow) (plan : Plan) : (slotsOf x dishes plan).Pairwise (· < ·) :=
  (pairwise_allSlots x dishes plan).sublist (List.take_sublist _ _)

theorem mem_slotsOf (h : w ∈ slotsOf x dishes plan) :
    (w = x.currentMonday ∧ takesThisWeek x dishes plan = true) ∨ w ∈ laterSlots x dishes plan :=
  mem_allSlots (List.mem_of_mem_take h)

theorem monday_of_slot (h : w ∈ slotsOf x dishes plan) : utcMondayOf w = w ∧ x.currentMonday ≤ w := by
  rcases mem_slotsOf h with ⟨rfl, -⟩ | h
  · exact ⟨x.isMonday, le_rfl⟩
  · exact ⟨(mem_laterSlots h).2.1, (mem_laterSlots h).1.le⟩

theorem hasRoom_iff : hasRoom x dishes plan = true ↔ (orderOf x dishes plan).length ≤ (allSlots x dishes plan).length := by
  rw [hasRoom, decide_eq_true_iff, slotsOf_eq, List.length_take]
  omega

theorem length_slotsOf (h : hasRoom x dishes plan = true) : (orderOf x dishes plan).length = (slotsOf x dishes plan).length := by
  have hle := hasRoom_iff.mp h
  rw [slotsOf_eq, List.length_take]
  omega

/-- This week is among the slots when it is taken and the plan has a week. -/
theorem current_mem_slotsOf (hne : weeksOf (rowsOf dishes plan) ≠ []) :
    x.currentMonday ∈ slotsOf x dishes plan ↔ takesThisWeek x dishes plan = true := by
  constructor
  · intro h
    rcases mem_slotsOf h with ⟨-, htakes⟩ | h
    · exact htakes
    · exact absurd (mem_laterSlots h).1 (lt_irrefl _)
  · intro htakes
    obtain ⟨m, hm⟩ := List.exists_mem_of_ne_nil _ hne
    obtain ⟨n, hn⟩ : ∃ n, (orderOf x dishes plan).length = n + 1 :=
      Nat.exists_eq_add_one.mpr (List.length_pos_of_mem (mem_orderOf.mpr hm))
    rw [slotsOf_eq, allSlots_of_takes htakes, hn]
    exact List.mem_cons_self

/-- Where each week of the plan goes. -/
def placeFor (x : Setting) (dishes : List MenuDishRow) (plan : Plan) : ℤ → ℤ := relocate (placesOf x dishes plan)

theorem placesOf_of_room (h : hasRoom x dishes plan = true) :
    placesOf x dishes plan = (orderOf x dishes plan).zip (slotsOf x dishes plan) := if_pos h

theorem placesOf_of_no_room (h : hasRoom x dishes plan = false) : placesOf x dishes plan = [] := by
  simp [placesOf, h]

theorem placeFor_of_no_room (h : hasRoom x dishes plan = false) : placeFor x dishes plan m = m := by
  rw [placeFor, placesOf_of_no_room h, relocate]

theorem map_placeFor (h : hasRoom x dishes plan = true) :
    (orderOf x dishes plan).map (placeFor x dishes plan) = slotsOf x dishes plan := by
  rw [placeFor, placesOf_of_room h]
  exact map_relocate_zip (nodup_orderOf x dishes plan) (length_slotsOf h)

theorem placeFor_mem_slotsOf (h : hasRoom x dishes plan = true) (hm : m ∈ weeksOf (rowsOf dishes plan)) :
    placeFor x dishes plan m ∈ slotsOf x dishes plan := by
  rw [← map_placeFor h]
  exact List.mem_map_of_mem (mem_orderOf.mpr hm)

theorem utcMondayOf_placeFor (hm : m ∈ weeksOf (rowsOf dishes plan)) : utcMondayOf (placeFor x dishes plan m) = placeFor x dishes plan m := by
  cases h : hasRoom x dishes plan with
  | false => rw [placeFor_of_no_room h, utcMondayOf_week_of hm]
  | true => exact (monday_of_slot (placeFor_mem_slotsOf h hm)).1

theorem placeFor_injective {m' : ℤ} (hm : m ∈ weeksOf (rowsOf dishes plan)) (hm' : m' ∈ weeksOf (rowsOf dishes plan))
    (heq : placeFor x dishes plan m = placeFor x dishes plan m') : m = m' := by
  cases h : hasRoom x dishes plan with
  | false => rwa [placeFor_of_no_room h, placeFor_of_no_room h] at heq
  | true =>
    have hnodup : ((orderOf x dishes plan).map (placeFor x dishes plan)).Nodup := by
      rw [map_placeFor h]
      exact (pairwise_slotsOf x dishes plan).imp ne_of_lt
    exact List.inj_on_of_nodup_map hnodup (mem_orderOf.mpr hm) (mem_orderOf.mpr hm') heq

/-! ### The moves, applied -/

theorem foldl_map_apply (moves : List WeekMove) (dishes : List MenuDishRow) :
    moves.foldl (fun dishes move => dishes.map move.apply) dishes = dishes.map fun d => moves.foldl (fun d move => move.apply d) d := by
  induction moves generalizing dishes with
  | nil => simp
  | cons move moves ih => simp [ih]

theorem foldl_apply_of_not {moves : List WeekMove} (h : ∀ move ∈ moves, d.id ∉ move.ids) :
    moves.foldl (fun d move => move.apply d) d = d := by
  induction moves with
  | nil => rfl
  | cons move moves ih =>
    rw [List.foldl_cons, WeekMove.apply, if_neg (h move List.mem_cons_self)]
    exact ih fun move hmove => h move (List.mem_cons_of_mem _ hmove)

theorem moveOf_of_ne {place : ℤ × ℤ} (h : place.1 ≠ place.2) :
    moveOf dishes plan place = some ⟨plan, place.1, place.2, place.2 - place.1,
      ((rowsOf dishes plan).filter fun d => utcMondayOf d.date = place.1).map (·.id)⟩ := if_neg h

theorem ids_of_moveOf {place : ℤ × ℤ} {move : WeekMove} (h : moveOf dishes plan place = some move) :
    move.ids = ((rowsOf dishes plan).filter fun d => utcMondayOf d.date = place.1).map (·.id) := by
  by_cases hstay : place.1 = place.2
  · simp [moveOf, hstay] at h
  · rw [moveOf_of_ne hstay] at h
    rw [← Option.some.inj h]

theorem inWeek_self (d : MenuDishRow) : d.inWeek (utcMondayOf d.date) = d := by
  simp [MenuDishRow.inWeek]

/-- The moves of one plan take a dish of it to its week's place. -/
theorem foldl_moveOf {pairs : List (ℤ × ℤ)} (hnodup : (pairs.map Prod.fst).Nodup)
    (hids : ∀ monday, d.id ∈ ((rowsOf dishes plan).filter fun e => utcMondayOf e.date = monday).map (·.id) ↔ utcMondayOf d.date = monday) :
    (pairs.filterMap (moveOf dishes plan)).foldl (fun d move => move.apply d) d = d.inWeek (relocate pairs (utcMondayOf d.date)) := by
  induction pairs with
  | nil => exact (inWeek_self d).symm
  | cons place pairs ih =>
    obtain ⟨hout, hrest⟩ := List.nodup_cons.mp hnodup
    by_cases hstay : place.1 = place.2
    · rw [List.filterMap_cons_none (by simp [moveOf, hstay]), ih hrest, relocate]
      split
      · rename_i hweek
        rw [relocate_of_notMem (hweek ▸ hout), ← hstay, hweek]
      · rfl
    · rw [List.filterMap_cons_some (moveOf_of_ne hstay), List.foldl_cons, relocate]
      by_cases hweek : utcMondayOf d.date = place.1
      · rw [if_pos hweek, WeekMove.apply, if_pos ((hids place.1).mpr hweek), foldl_apply_of_not]
        · rw [MenuDishRow.inWeek, hweek]
          congr 1
          simp only
          omega
        · -- The other moves are of other weeks.
          intro move hmove hmem
          obtain ⟨place', hplace', hmoveOf⟩ := List.mem_filterMap.mp hmove
          rw [ids_of_moveOf hmoveOf, hids] at hmem
          exact hout (hweek ▸ hmem ▸ List.mem_map_of_mem hplace')
      · rw [if_neg hweek, WeekMove.apply, if_neg (fun hmem => hweek ((hids place.1).mp hmem)), ih hrest]

theorem eq_of_id (t : MenuTable) {e : MenuDishRow} (hd : d ∈ t.dishes) (he : e ∈ t.dishes) (h : d.id = e.id) : d = e :=
  List.inj_on_of_nodup_map t.ids hd he h

theorem nodup_places (x : Setting) (dishes : List MenuDishRow) (plan : Plan) : ((placesOf x dishes plan).map Prod.fst).Nodup := by
  cases h : hasRoom x dishes plan with
  | false =>
    rw [placesOf_of_no_room h]
    exact .nil
  | true =>
    rw [placesOf_of_room h, List.map_fst_zip (length_slotsOf h).le]
    exact nodup_orderOf x dishes plan

theorem foldl_movesOf_own (t : MenuTable) (hd : d ∈ t.dishes) :
    (movesOf x t.dishes d.plan).foldl (fun d move => move.apply d) d = d.inWeek (placeFor x t.dishes d.plan (utcMondayOf d.date)) := by
  refine foldl_moveOf (nodup_places x t.dishes d.plan) fun monday => ?_
  simp only [List.mem_map, List.mem_filter, mem_rowsOf, decide_eq_true_eq]
  constructor
  · rintro ⟨e, ⟨⟨he, -⟩, hmonday⟩, hid⟩
    rwa [eq_of_id t he hd hid] at hmonday
  · intro hmonday
    exact ⟨d, ⟨⟨hd, rfl⟩, hmonday⟩, rfl⟩

theorem foldl_movesOf_other (t : MenuTable) (hd : d ∈ t.dishes) (hplan : plan ≠ d.plan) {e : MenuDishRow} (hid : e.id = d.id) :
    (movesOf x t.dishes plan).foldl (fun d move => move.apply d) e = e := by
  refine foldl_apply_of_not fun move hmove hmem => ?_
  obtain ⟨place, -, hmoveOf⟩ := List.mem_filterMap.mp hmove
  rw [ids_of_moveOf hmoveOf] at hmem
  obtain ⟨e', he', hid'⟩ := List.mem_map.mp hmem
  obtain ⟨hrow, hplan'⟩ := mem_rowsOf.mp (List.mem_filter.mp he').1
  rw [eq_of_id t hrow hd (hid'.trans hid)] at hplan'
  exact hplan hplan'.symm

/-- A layout takes every dish to its week's place. -/
theorem layoutMenu_eq (x : Setting) (t : MenuTable) :
    layoutMenu x t.dishes = t.dishes.map fun d => d.inWeek (placeFor x t.dishes d.plan (utcMondayOf d.date)) := by
  rw [layoutMenu, foldl_map_apply]
  refine List.map_congr_left fun d hd => ?_
  rw [planMoves, List.foldl_append]
  cases hplan : d.plan with
  | summer =>
    have hown := @foldl_movesOf_own x d t hd
    rw [hplan] at hown
    rw [hown]
    exact foldl_movesOf_other t hd (by simp [hplan]) rfl
  | winter =>
    have hown := @foldl_movesOf_own x d t hd
    rw [hplan] at hown
    have hother : (movesOf x t.dishes .summer).foldl (fun d move => move.apply d) d = d :=
      foldl_movesOf_other t hd (by simp [hplan]) rfl
    rw [hother, hown]

/-! ### The menu afterwards -/

theorem utcDow_inWeek (hm : utcMondayOf m = m) (d : MenuDishRow) : utcDow (d.inWeek m).date = utcDow d.date := by
  have h := utcMondayOf_inWeek hm d
  simp only [MenuDishRow.inWeek, utcMondayOf] at h ⊢
  omega

section Afterwards
variable (x) (t : MenuTable)

theorem mem_weeksOf_rows (hd : d ∈ rowsOf dishes plan) : utcMondayOf d.date ∈ weeksOf (rowsOf dishes plan) :=
  mem_weeksOf.mpr ⟨d, hd, rfl⟩

theorem rowsOf_layoutMenu (plan : Plan) : rowsOf (layoutMenu x t.dishes) plan =
    (rowsOf t.dishes plan).map fun d => d.inWeek (placeFor x t.dishes plan (utcMondayOf d.date)) := by
  rw [layoutMenu_eq, rowsOf, List.filter_map, rowsOf]
  refine List.map_congr_left fun d hd => ?_
  obtain ⟨-, hplan⟩ := List.mem_filter.mp hd
  simp only [Function.comp_apply, MenuDishRow.inWeek, decide_eq_true_eq] at hplan
  rw [hplan]

theorem weekdaysOf_layoutMenu (plan : Plan) : weekdaysOf (rowsOf (layoutMenu x t.dishes) plan) = weekdaysOf (rowsOf t.dishes plan) := by
  rw [weekdaysOf, rowsOf_layoutMenu, List.map_map, weekdaysOf]
  refine congrArg _ (List.map_congr_left fun d hd => ?_)
  exact utcDow_inWeek (utcMondayOf_placeFor (mem_weeksOf_rows hd)) d

theorem isEmpty_rowsOf_layoutMenu (plan : Plan) : (rowsOf (layoutMenu x t.dishes) plan).isEmpty = (rowsOf t.dishes plan).isEmpty := by
  rw [rowsOf_layoutMenu, List.isEmpty_map]

theorem mem_weeksOf_layoutMenu {plan : Plan} : w ∈ weeksOf (rowsOf (layoutMenu x t.dishes) plan) ↔
    ∃ m ∈ weeksOf (rowsOf t.dishes plan), placeFor x t.dishes plan m = w := by
  rw [rowsOf_layoutMenu]
  constructor
  · intro h
    obtain ⟨moved, hmoved, rfl⟩ := mem_weeksOf.mp h
    obtain ⟨d, hd, rfl⟩ := List.mem_map.mp hmoved
    exact ⟨_, mem_weeksOf_rows hd, (utcMondayOf_inWeek (utcMondayOf_placeFor (mem_weeksOf_rows hd)) d).symm⟩
  · rintro ⟨m, hm, rfl⟩
    obtain ⟨d, hd, rfl⟩ := mem_weeksOf.mp hm
    exact mem_weeksOf.mpr ⟨_, List.mem_map.mpr ⟨d, hd, rfl⟩, utcMondayOf_inWeek (utcMondayOf_placeFor hm) d⟩

/-- With room, the weeks afterwards are the slots. -/
theorem weeksOf_of_room {plan : Plan} (h : hasRoom x t.dishes plan = true) :
    weeksOf (rowsOf (layoutMenu x t.dishes) plan) = slotsOf x t.dishes plan := by
  refine eq_of_pairwise_lt (pairwise_inOrder _) (pairwise_slotsOf x t.dishes plan) fun w => ?_
  rw [mem_weeksOf_layoutMenu, ← map_placeFor h]
  simp [mem_orderOf]

/-- Without, they are what they were. -/
theorem weeksOf_of_no_room {plan : Plan} (h : hasRoom x t.dishes plan = false) :
    weeksOf (rowsOf (layoutMenu x t.dishes) plan) = weeksOf (rowsOf t.dishes plan) := by
  refine eq_of_pairwise_lt (pairwise_inOrder _) (pairwise_inOrder _) fun w => ?_
  rw [mem_weeksOf_layoutMenu]
  simp [placeFor_of_no_room h]

theorem inSeason_layoutMenu (plan : Plan) (monday : ℤ) : inSeason x (layoutMenu x t.dishes) plan monday = inSeason x t.dishes plan monday := by
  rw [inSeason, isEmpty_rowsOf_layoutMenu, inSeason]

theorem opens_layoutMenu (plan : Plan) (monday : ℤ) : opens x (layoutMenu x t.dishes) plan monday = opens x t.dishes plan monday := by
  rw [opens, weekdaysOf_layoutMenu, opens]

theorem laterSlots_layoutMenu (plan : Plan) : laterSlots x (layoutMenu x t.dishes) plan = laterSlots x t.dishes plan := by
  refine List.filter_congr fun monday _ => ?_
  rw [isSlot, inSeason_layoutMenu, opens_layoutMenu, isSlot]

theorem weeksOf_eq_nil (plan : Plan) : weeksOf (rowsOf dishes plan) = [] ↔ rowsOf dishes plan = [] := by
  constructor
  · intro h
    refine List.eq_nil_iff_forall_not_mem.mpr fun d hd => ?_
    have hm := mem_weeksOf_rows hd
    rw [h] at hm
    cases hm
  · intro h
    rw [h]
    rfl

theorem opens_of_nil (h : rowsOf dishes plan = []) (monday : ℤ) : opens x dishes plan monday = false := by
  rw [opens, h]
  rfl

theorem hasThisWeek_of_nil (h : rowsOf dishes plan = []) : hasThisWeek x dishes plan = false := by
  rw [hasThisWeek, h]
  rfl

/-- Whether the plan is on this week afterwards. -/
theorem hasThisWeek_layoutMenu (plan : Plan) : hasThisWeek x (layoutMenu x t.dishes) plan =
    if hasRoom x t.dishes plan then takesThisWeek x t.dishes plan else hasThisWeek x t.dishes plan := by
  cases h : hasRoom x t.dishes plan with
  | false => simp [hasThisWeek, weeksOf_of_no_room x t h]
  | true =>
    by_cases hne : rowsOf t.dishes plan = []
    · have hnil : rowsOf (layoutMenu x t.dishes) plan = [] := by rw [rowsOf_layoutMenu, hne, List.map_nil]
      simp [takesThisWeek, opens_of_nil x hne, hasThisWeek_of_nil x hnil]
    · have hmem := current_mem_slotsOf (x := x) (mt (weeksOf_eq_nil plan).mp hne)
      rw [hasThisWeek, weeksOf_of_room x t h, if_pos rfl, Bool.eq_iff_iff, decide_eq_true_iff, hmem]

end Afterwards

/-! ### Moves left for the next time -/

theorem moveOf_eq_none {place : ℤ × ℤ} : moveOf dishes plan place = none ↔ place.1 = place.2 := by
  simp [moveOf]

theorem movesOf_eq_nil : movesOf x dishes plan = [] ↔
    (hasRoom x dishes plan = true → orderOf x dishes plan = slotsOf x dishes plan) := by
  rw [movesOf, List.filterMap_eq_nil_iff]
  cases hroom : hasRoom x dishes plan with
  | false => simp [placesOf_of_no_room hroom]
  | true =>
    rw [placesOf_of_room hroom, ← forall_mem_zip_iff (length_slotsOf hroom)]
    simp only [moveOf_eq_none, forall_const]

theorem planMoves_eq_nil : planMoves x dishes = [] ↔ ∀ plan, movesOf x dishes plan = [] := by
  rw [planMoves, List.append_eq_nil_iff]
  constructor
  · rintro ⟨hsummer, hwinter⟩ plan
    cases plan
    · exact hsummer
    · exact hwinter
  · intro h
    exact ⟨h .summer, h .winter⟩

/-- The plan is on this week, is closed the whole week, and has room to leave it. -/
def Leaves (x : Setting) (dishes : List MenuDishRow) (plan : Plan) : Prop :=
  hasThisWeek x dishes plan = true ∧ opens x dishes plan x.currentMonday = false ∧
    (weeksOf (rowsOf dishes plan)).length ≤ (laterSlots x dishes plan).length

/-- This week comes free for the plan only while it is laid out: the other plan leaves it, and it is the plan's season, or
the one slot the plan is short of. -/
def ComesFree (x : Setting) (dishes : List MenuDishRow) (plan : Plan) : Prop :=
  Leaves x dishes plan.other ∧ rowsOf dishes plan ≠ [] ∧ opens x dishes plan x.currentMonday = true ∧
    ((inSeason x dishes plan x.currentMonday = true ∧ hasThisWeek x dishes plan = false ∧
        (weeksOf (rowsOf dishes plan)).length ≤ (laterSlots x dishes plan).length + 1) ∨
      (inSeason x dishes plan x.currentMonday = false ∧ hasThisWeek x dishes plan = true ∧
        (weeksOf (rowsOf dishes plan)).length = (laterSlots x dishes plan).length + 1 ∧
        orderOf x dishes plan ≠ x.currentMonday :: laterSlots x dishes plan))

/-- When the plan takes this week only the second time.  `s`, `h`, `o`, `r`: it is its season, it is on this week, it is open, it
has room; `s'`, `h'`, `o'`, `r'`: the same of the other plan. -/
theorem takes_only_later (s h o r s' h' o' r' : Bool) (hseason : h' = true → s' = !s) :
    let takes := o && if s then h || !h' else h && !h'
    let takes' := o' && if s' then h' || !h else h' && !h
    let has := if r then takes else h
    let has' := if r' then takes' else h'
    let again := o && if s then has || !has' else has && !has'
    (takes = false ∧ again = true ↔
      (h' = true ∧ o' = false ∧ r' = true) ∧ o = true ∧ ((s = true ∧ h = false) ∨ (s = false ∧ h = true ∧ r = false))) ∧
    (takes = true → r = true → again = true) := by
  intro takes takes' has has' again
  cases h' with
  | false => cases s <;> cases h <;> cases o <;> cases r <;> simp [takes, takes', has, has', again]
  | true =>
    obtain rfl := hseason rfl
    cases s <;> cases h <;> cases o <;> cases r <;> cases o' <;> simp [takes, takes', has, has', again]

theorem length_orderOf (x : Setting) (dishes : List MenuDishRow) (plan : Plan) :
    (orderOf x dishes plan).length = (weeksOf (rowsOf dishes plan)).length :=
  ((List.perm_ext_iff_of_nodup (nodup_orderOf x dishes plan) (nodup_inOrder _)).mpr fun _ => mem_orderOf).length_eq

theorem length_allSlots (x : Setting) (dishes : List MenuDishRow) (plan : Plan) : (allSlots x dishes plan).length =
    (laterSlots x dishes plan).length + if takesThisWeek x dishes plan then 1 else 0 := by
  cases h : takesThisWeek x dishes plan with
  | false => simp [allSlots_of_not_takes h]
  | true => simp [allSlots_of_takes h]

theorem isInSeason_other (d : ℤ) (plan : Plan) (rule : SeasonRule) : isInSeason d plan.other rule = !isInSeason d plan rule := by
  rw [isInSeason, isInSeason]
  cases seasonOfWeek d rule <;> cases plan <;> rfl

/-- Of two plans, one is in season. -/
theorem inSeason_other (hne : rowsOf dishes plan ≠ []) (hother : rowsOf dishes plan.other ≠ []) (monday : ℤ) :
    inSeason x dishes plan.other monday = !inSeason x dishes plan monday := by
  have hempty : (rowsOf dishes plan).isEmpty = false := List.isEmpty_eq_false_iff.mpr hne
  have hempty' : (rowsOf dishes plan.other).isEmpty = false := List.isEmpty_eq_false_iff.mpr hother
  simp [inSeason, hempty, hempty', isInSeason_other]

section Again
variable (x) (t : MenuTable)

theorem length_orderOf_layoutMenu (plan : Plan) : (orderOf x (layoutMenu x t.dishes) plan).length = (orderOf x t.dishes plan).length := by
  rw [length_orderOf]
  cases h : hasRoom x t.dishes plan with
  | false => rw [weeksOf_of_no_room x t h, length_orderOf]
  | true => rw [weeksOf_of_room x t h, length_slotsOf h]

theorem orderOf_of_room {plan : Plan} (h : hasRoom x t.dishes plan = true) :
    orderOf x (layoutMenu x t.dishes) plan = slotsOf x t.dishes plan := by
  rw [orderOf_of_future, weeksOf_of_room x t h]
  intro m hm
  rw [weeksOf_of_room x t h] at hm
  exact (monday_of_slot hm).2

theorem orderOf_of_no_room {plan : Plan} (h : hasRoom x t.dishes plan = false) :
    orderOf x (layoutMenu x t.dishes) plan = orderOf x t.dishes plan := by
  rw [orderOf, weeksOf_of_no_room x t h, orderOf]

theorem takes_layoutMenu (plan : Plan) (hne : rowsOf t.dishes plan ≠ []) :
    (takesThisWeek x t.dishes plan = false ∧ takesThisWeek x (layoutMenu x t.dishes) plan = true ↔
      (hasThisWeek x t.dishes plan.other = true ∧ opens x t.dishes plan.other x.currentMonday = false ∧
          hasRoom x t.dishes plan.other = true) ∧ opens x t.dishes plan x.currentMonday = true ∧
        ((inSeason x t.dishes plan x.currentMonday = true ∧ hasThisWeek x t.dishes plan = false) ∨
          (inSeason x t.dishes plan x.currentMonday = false ∧ hasThisWeek x t.dishes plan = true ∧ hasRoom x t.dishes plan = false))) ∧
    (takesThisWeek x t.dishes plan = true → hasRoom x t.dishes plan = true → takesThisWeek x (layoutMenu x t.dishes) plan = true) := by
  have hseason : hasThisWeek x t.dishes plan.other = true →
      inSeason x t.dishes plan.other x.currentMonday = !inSeason x t.dishes plan x.currentMonday := by
    intro hhas
    exact inSeason_other hne (fun hnil => by simp [hasThisWeek_of_nil x hnil] at hhas) _
  have htable := takes_only_later (inSeason x t.dishes plan x.currentMonday) (hasThisWeek x t.dishes plan)
    (opens x t.dishes plan x.currentMonday) (hasRoom x t.dishes plan) (inSeason x t.dishes plan.other x.currentMonday)
    (hasThisWeek x t.dishes plan.other) (opens x t.dishes plan.other x.currentMonday) (hasRoom x t.dishes plan.other) hseason
  have hhas := hasThisWeek_layoutMenu x t plan
  have hhas' := hasThisWeek_layoutMenu x t plan.other
  have hagain : takesThisWeek x (layoutMenu x t.dishes) plan = (opens x t.dishes plan x.currentMonday &&
      if inSeason x t.dishes plan x.currentMonday then
        hasThisWeek x (layoutMenu x t.dishes) plan || !hasThisWeek x (layoutMenu x t.dishes) plan.other
      else hasThisWeek x (layoutMenu x t.dishes) plan && !hasThisWeek x (layoutMenu x t.dishes) plan.other) := by
    rw [takesThisWeek, opens_layoutMenu, inSeason_layoutMenu]
  rw [hagain, hhas, hhas']
  simp only [takesThisWeek, Plan.other_other]
  exact htable

/-- Laid out with the same slots as before, a plan has no move left. -/
theorem settled_of_same {plan : Plan} (h : allSlots x (layoutMenu x t.dishes) plan = allSlots x t.dishes plan) :
    movesOf x (layoutMenu x t.dishes) plan = [] := by
  refine movesOf_eq_nil.mpr fun hroom => ?_
  have hslots : slotsOf x (layoutMenu x t.dishes) plan = slotsOf x t.dishes plan := by
    rw [slotsOf_eq, slotsOf_eq, h, length_orderOf_layoutMenu]
  rw [hasRoom_iff, h, length_orderOf_layoutMenu, ← hasRoom_iff] at hroom
  rw [hslots, orderOf_of_room x t hroom]

theorem allSlots_layoutMenu {plan : Plan} (h : takesThisWeek x (layoutMenu x t.dishes) plan = takesThisWeek x t.dishes plan) :
    allSlots x (layoutMenu x t.dishes) plan = allSlots x t.dishes plan := by
  rw [allSlots, h, laterSlots_layoutMenu, allSlots]

theorem movesOf_of_nil {plan : Plan} (h : rowsOf t.dishes plan = []) : movesOf x (layoutMenu x t.dishes) plan = [] := by
  refine movesOf_eq_nil.mpr fun _ => ?_
  have hlength : (orderOf x (layoutMenu x t.dishes) plan).length = 0 := by
    rw [length_orderOf_layoutMenu, length_orderOf, (weeksOf_eq_nil plan).mpr h, List.length_nil]
  rw [slotsOf_eq, hlength, List.take_zero, List.length_eq_zero_iff.mp hlength]

theorem leaves_iff {plan : Plan} : Leaves x t.dishes plan ↔
    hasThisWeek x t.dishes plan = true ∧ opens x t.dishes plan x.currentMonday = false ∧ hasRoom x t.dishes plan = true := by
  refine and_congr_right fun _ => and_congr_right fun hclosed => ?_
  have hnot : takesThisWeek x t.dishes plan = false := by simp [takesThisWeek, hclosed]
  rw [hasRoom_iff, length_orderOf, allSlots_of_not_takes hnot]

theorem comesFree_of_moves {plan : Plan} (h : movesOf x (layoutMenu x t.dishes) plan ≠ []) : ComesFree x t.dishes plan := by
  have hne : rowsOf t.dishes plan ≠ [] := fun hnil => h (movesOf_of_nil x t hnil)
  obtain ⟨hlater, hstays⟩ := takes_layoutMenu x t plan hne
  obtain ⟨hroom', hmoved⟩ : hasRoom x (layoutMenu x t.dishes) plan = true ∧
      orderOf x (layoutMenu x t.dishes) plan ≠ slotsOf x (layoutMenu x t.dishes) plan := by
    simpa [movesOf_eq_nil] using h
  rw [hasRoom_iff, length_orderOf_layoutMenu, length_allSlots, laterSlots_layoutMenu] at hroom'
  cases htakes : takesThisWeek x t.dishes plan with
  | true =>
    cases htakes' : takesThisWeek x (layoutMenu x t.dishes) plan with
    | true => exact absurd (settled_of_same x t (allSlots_layoutMenu x t (htakes'.trans htakes.symm))) h
    | false =>
      -- The plan had no room with this week, and has none without.
      have hroom : hasRoom x t.dishes plan = true := by
        rw [hasRoom_iff, length_allSlots]
        simp only [htakes'] at hroom'
        simp at hroom'
        omega
      rw [hstays htakes hroom] at htakes'
      cases htakes'
  | false =>
    cases htakes' : takesThisWeek x (layoutMenu x t.dishes) plan with
    | false => exact absurd (settled_of_same x t (allSlots_layoutMenu x t (htakes'.trans htakes.symm))) h
    | true =>
      obtain ⟨hleaves, hopen, hcases⟩ := hlater.mp ⟨htakes, htakes'⟩
      simp only [htakes', if_true] at hroom'
      refine ⟨(leaves_iff x t).mpr hleaves, hne, hopen, hcases.imp ?_ ?_⟩
      · rintro ⟨hseason, hhas⟩
        exact ⟨hseason, hhas, length_orderOf x t.dishes plan ▸ hroom'⟩
      · rintro ⟨hseason, hhas, hroom⟩
        have hshort : ¬ (orderOf x t.dishes plan).length ≤ (laterSlots x t.dishes plan).length := by
          intro hle
          have hfits := hasRoom_iff.mpr (allSlots_of_not_takes htakes ▸ hle)
          rw [hroom] at hfits
          cases hfits
        have hexact : (orderOf x t.dishes plan).length = (laterSlots x t.dishes plan).length + 1 := by omega
        refine ⟨hseason, hhas, length_orderOf x t.dishes plan ▸ hexact, ?_⟩
        rw [orderOf_of_no_room x t hroom, slotsOf_eq, allSlots_of_takes htakes', laterSlots_layoutMenu, length_orderOf_layoutMenu, hexact,
          List.take_of_length_le (by simp)] at hmoved
        exact hmoved

theorem moves_of_comesFree {plan : Plan} (h : ComesFree x t.dishes plan) : movesOf x (layoutMenu x t.dishes) plan ≠ [] := by
  obtain ⟨hleaves, hne, hopen, hcases⟩ := h
  have hleaves' := (leaves_iff x t).mp hleaves
  have hlater := (takes_layoutMenu x t plan hne).1
  rw [Ne, movesOf_eq_nil]
  intro hsettled
  rcases hcases with ⟨hseason, hhas, hlength⟩ | ⟨hseason, hhas, hlength, hplaces⟩
  · obtain ⟨htakes, htakes'⟩ := hlater.mpr ⟨hleaves', hopen, .inl ⟨hseason, hhas⟩⟩
    have hroom' : hasRoom x (layoutMenu x t.dishes) plan = true := by
      rw [hasRoom_iff, length_orderOf_layoutMenu, length_orderOf, length_allSlots, laterSlots_layoutMenu, htakes']
      exact hlength
    have hnot : hasThisWeek x (layoutMenu x t.dishes) plan = false := by
      rw [hasThisWeek_layoutMenu, htakes, hhas, ite_self]
    -- This week is the first slot now, and the plan is not on it.
    have hne' : weeksOf (rowsOf (layoutMenu x t.dishes) plan) ≠ [] := by
      rw [Ne, weeksOf_eq_nil, rowsOf_layoutMenu, List.map_eq_nil_iff]
      exact hne
    have hmem := (current_mem_slotsOf (x := x) hne').mpr htakes'
    rw [← hsettled hroom', mem_orderOf] at hmem
    simp [hasThisWeek, hmem] at hnot
  · have hroom : hasRoom x t.dishes plan = false := by
      have htakes : takesThisWeek x t.dishes plan = false := by simp [takesThisWeek, hseason, hleaves.1]
      rw [Bool.eq_false_iff, Ne, hasRoom_iff, allSlots_of_not_takes htakes, length_orderOf]
      omega
    obtain ⟨-, htakes'⟩ := hlater.mpr ⟨hleaves', hopen, .inr ⟨hseason, hhas, hroom⟩⟩
    have hroom' : hasRoom x (layoutMenu x t.dishes) plan = true := by
      rw [hasRoom_iff, length_orderOf_layoutMenu, length_orderOf, length_allSlots, laterSlots_layoutMenu, htakes']
      exact hlength.le
    have hslots := hsettled hroom'
    rw [orderOf_of_no_room x t hroom, slotsOf_eq, allSlots_of_takes htakes', laterSlots_layoutMenu, length_orderOf_layoutMenu,
      length_orderOf, hlength, List.take_of_length_le (by simp)] at hslots
    exact hplaces hslots

end Again

/-! ### All of a layout -/

/-- A plan some of whose weeks the layout moves. -/
def Moved (x : Setting) (dishes : List MenuDishRow) (plan : Plan) : Prop := ∃ move ∈ planMoves x dishes, move.plan = plan

/-- What a layout does: where the weeks of each plan go, and that nothing is left to move. -/
structure LaidOut (x : Setting) (dishes dishes' : List MenuDishRow) (place : Plan → ℤ → ℤ) : Prop where
  dishes_eq : dishes' = dishes.map fun d => d.inWeek (place d.plan (utcMondayOf d.date))
  toMonday : ∀ plan, ∀ m ∈ weeksOf (rowsOf dishes plan), utcMondayOf (place plan m) = place plan m
  different : ∀ plan, ∀ m ∈ weeksOf (rowsOf dishes plan), ∀ m' ∈ weeksOf (rowsOf dishes plan), place plan m = place plan m' → m = m'
  unmoved : ∀ plan, ¬ Moved x dishes plan → ∀ m ∈ weeksOf (rowsOf dishes plan), place plan m = m
  /-- The weeks afterwards are those before, in their order, past ones behind the others. -/
  inOrder : ∀ plan, Moved x dishes plan → weeksOf (rowsOf dishes' plan) = (orderOf x dishes plan).map (place plan)
  inPlace : ∀ plan, Moved x dishes plan → ∀ w ∈ weeksOf (rowsOf dishes' plan), x.currentMonday ≤ w ∧
    (w ≠ x.currentMonday → inSeason x dishes plan w = true ∧ opens x dishes plan w = true)
  oneThisWeek : (∀ plan, hasThisWeek x dishes' plan = true) → ∀ plan, hasThisWeek x dishes plan = true
  settled : planMoves x dishes' = []

theorem plan_of_mem_movesOf {move : WeekMove} (h : move ∈ movesOf x dishes plan) : move.plan = plan := by
  obtain ⟨place, -, hmoveOf⟩ := List.mem_filterMap.mp h
  by_cases hstay : place.1 = place.2
  · rw [moveOf_eq_none.mpr hstay] at hmoveOf
    cases hmoveOf
  · rw [moveOf_of_ne hstay] at hmoveOf
    rw [← Option.some.inj hmoveOf]

theorem moved_iff : Moved x dishes plan ↔ movesOf x dishes plan ≠ [] := by
  constructor
  · rintro ⟨move, hmove, rfl⟩
    rcases List.mem_append.mp hmove with h | h <;> exact List.ne_nil_of_mem (plan_of_mem_movesOf h ▸ h)
  · intro h
    obtain ⟨move, hmove⟩ := List.exists_mem_of_ne_nil _ h
    refine ⟨move, ?_, plan_of_mem_movesOf hmove⟩
    cases plan
    · exact List.mem_append_left _ hmove
    · exact List.mem_append_right _ hmove

theorem Moved.hasRoom (h : Moved x dishes plan) : hasRoom x dishes plan = true := by
  by_contra hroom
  exact moved_iff.mp h (movesOf_eq_nil.mpr fun hroom' => absurd hroom' hroom)

theorem placeFor_of_not_moved (h : ¬ Moved x dishes plan) (hm : m ∈ weeksOf (rowsOf dishes plan)) : placeFor x dishes plan m = m := by
  cases hroom : hasRoom x dishes plan with
  | false => exact placeFor_of_no_room hroom
  | true =>
    have hsame := movesOf_eq_nil.mp (not_not.mp (mt moved_iff.mpr h)) hroom
    have hmap := map_placeFor hroom
    rw [← hsame] at hmap
    exact List.map_inj_left.mp (hmap.trans (List.map_id _).symm) m (mem_orderOf.mpr hm)

/-- Both plans are on this week only when both were. -/
theorem has_of_both (x : Setting) (t : MenuTable) (h : ∀ plan, hasThisWeek x (layoutMenu x t.dishes) plan = true) (plan : Plan) :
    hasThisWeek x t.dishes plan = true := by
  have hne : ∀ plan, rowsOf t.dishes plan ≠ [] := fun plan hnil => by
    have hnone := hasThisWeek_of_nil x (by rw [rowsOf_layoutMenu x t plan, hnil, List.map_nil])
    rw [h plan] at hnone
    cases hnone
  have hhas := hasThisWeek_layoutMenu x t plan
  have hhas' := hasThisWeek_layoutMenu x t plan.other
  rw [h] at hhas hhas'
  simp only [takesThisWeek, inSeason_other (hne plan) (hne plan.other), Plan.other_other] at hhas hhas'
  -- A plan that was not on this week takes it only when the other one was not on it either; that one then cannot take it.
  cases hthis : hasThisWeek x t.dishes plan with
  | true => rfl
  | false =>
    rw [hthis] at hhas hhas'
    cases hseason : inSeason x t.dishes plan x.currentMonday <;> cases hroom : hasRoom x t.dishes plan <;>
      cases hroom' : hasRoom x t.dishes plan.other <;> cases hthis' : hasThisWeek x t.dishes plan.other <;>
      simp [hseason, hroom, hroom', hthis'] at hhas hhas'

/-- A layout leaves both plans in their place, with nothing left to move, exactly when this week comes free for none of them
while it goes on. -/
theorem layout_settles_iff (x : Setting) (t : MenuTable) :
    (∃ place, LaidOut x t.dishes (layoutMenu x t.dishes) place) ↔ ∀ plan, ¬ ComesFree x t.dishes plan := by
  constructor
  · rintro ⟨place, h⟩ plan hfree
    exact moves_of_comesFree x t hfree (planMoves_eq_nil.mp h.settled plan)
  · intro h
    refine ⟨placeFor x t.dishes, layoutMenu_eq x t, fun _ _ => utcMondayOf_placeFor, fun _ _ hm _ hm' => placeFor_injective hm hm',
      fun _ hmoved _ hm => placeFor_of_not_moved hmoved hm, fun plan hmoved => ?_, fun plan hmoved w hw => ?_, has_of_both x t,
      planMoves_eq_nil.mpr fun plan => ?_⟩
    · rw [weeksOf_of_room x t hmoved.hasRoom, map_placeFor hmoved.hasRoom]
    · rw [weeksOf_of_room x t hmoved.hasRoom] at hw
      refine ⟨(monday_of_slot hw).2, fun hne => ?_⟩
      rcases mem_slotsOf hw with ⟨hthis, -⟩ | hlater
      · exact absurd hthis hne
      · simpa [isSlot] using (mem_laterSlots hlater).2.2
    · by_contra hmoves
      exact h plan (comesFree_of_moves x t hmoves)

/-- A Friday off, in a week of the summer. -/
def fridayOff : Setting where
  dayOffOf := menuDayOff .webuntis [] [⟨⟨20260918, 20260918⟩, false⟩]
  rule := .clock
  currentMonday := dayNumber 2026 9 14
  isMonday := by decide +kernel

/-- The winter plan serves on Fridays and is on this week, the summer plan on the next one. -/
def fridayMenu : MenuTable where
  dishes := [⟨"d1", "m1", .winter, dayNumber 2026 9 18⟩, ⟨"d2", "m1", .summer, dayNumber 2026 9 23⟩]
  ids := by decide

/-- The winter plan leaves this week, and only the next layout moves the summer plan onto it. -/
theorem layout_moves_again :
    layoutMenu fridayOff fridayMenu.dishes =
        [⟨"d1", "m1", .winter, dayNumber 2026 10 30⟩, ⟨"d2", "m1", .summer, dayNumber 2026 9 23⟩] ∧
      (planMoves fridayOff (layoutMenu fridayOff fridayMenu.dishes)).map (fun move => (move.plan, move.toMonday)) =
        [(.summer, dayNumber 2026 9 14)] ∧
      ¬ ∃ place, LaidOut fridayOff fridayMenu.dishes (layoutMenu fridayOff fridayMenu.dishes) place := by
  have hmoves : (planMoves fridayOff (layoutMenu fridayOff fridayMenu.dishes)).map (fun move => (move.plan, move.toMonday)) =
      [(.summer, dayNumber 2026 9 14)] := by decide +kernel
  refine ⟨by decide +kernel, hmoves, ?_⟩
  rintro ⟨place, h⟩
  rw [h.settled] at hmoves
  cases hmoves

end Pokyh.Menu

import Pokyh.Menu.Schedule

/-!
# Menu — PublicMenu

What the public sees of a laid-out menu (`publicDishes`, `utils/mensaSchedule.ts`): every week from the plan of its season, no
dishes on days off, and only as far as the weeks run on without a gap.
-/

namespace Pokyh.Menu
open Pokyh.Lib

section
variable {α : Type*} (planOf : α → Plan) (dateOf : α → ℤ) (x : Setting)

/-- The weekdays a plan serves on. -/
def servedWeekdays (dishes : List α) (plan : Plan) : List ℤ :=
  ((dishes.filter (planOf · = plan)).map fun d => utcDow (dateOf d)).dedup

/-- Whether a week is open, by the weekdays of its season's plan or, when that plan has no dish, of the other one. -/
def opensTo (dishes : List α) (monday : ℤ) : Bool :=
  let season := seasonOfWeek monday x.rule
  let weekdays := servedWeekdays planOf dateOf dishes season
  isOpenWeek monday (if weekdays.isEmpty then servedWeekdays planOf dateOf dishes season.other else weekdays) x.dayOffOf

/-- An open week between two others. -/
def gapBetween (isOpen : ℤ → Bool) (shown week : ℤ) : Bool :=
  ((List.range ((week - shown) / 7).toNat).map fun i : ℕ => shown + 7 * (i + 1)).any fun m => m < week && isOpen m

/-- The last week shown, from the one shown so far. -/
def lastShownFrom (isOpen : ℤ → Bool) : ℤ → List ℤ → ℤ
  | lastShown, [] => lastShown
  | lastShown, week :: weeks => if gapBetween isOpen lastShown week then lastShown else lastShownFrom isOpen week weeks

/-- The weeks with served dishes from this one on. -/
def servedWeeks (dishes : List α) : List ℤ :=
  (inOrder ((servedDishes planOf dateOf dishes x.rule).map fun d => utcMondayOf (dateOf d))).filter (x.currentMonday ≤ ·)

def lastShown (dishes : List α) : ℤ :=
  let weeks := servedWeeks planOf dateOf x dishes
  lastShownFrom (opensTo planOf dateOf x dishes) (weeks.head?.getD x.currentMonday) weeks

def publicDishes (dishes : List α) : List α :=
  (servedDishes planOf dateOf dishes x.rule).filter fun d =>
    utcMondayOf (dateOf d) ≤ lastShown planOf dateOf x dishes && !isClosed (x.dayOffOf (dateOf d))

/-- The weeks run on without a gap, as `noGap` understands it, as far as they can. -/
structure LongestRun (served : List ℤ) (noGap : List ℤ → Prop) (shown : List ℤ) : Prop where
  isStart : shown <+: served
  runsOn : noGap shown
  longest : ∀ weeks, weeks <+: served → noGap weeks → weeks.length ≤ shown.length

/-- What the public sees: the served dishes of the weeks shown and of past ones, on open days. -/
structure Public (dishes shown : List α) (weeks : List ℤ) : Prop where
  sublist : shown.Sublist dishes
  open_days : ∀ d ∈ shown, isClosed (x.dayOffOf (dateOf d)) = false
  onePlan : ∀ d ∈ shown, ∀ e ∈ shown, utcMondayOf (dateOf d) = utcMondayOf (dateOf e) → planOf d = planOf e
  season : ∀ d ∈ shown, (∃ e ∈ dishes, utcMondayOf (dateOf e) = utcMondayOf (dateOf d) ∧ planOf e = seasonOfWeek (dateOf d) x.rule) →
    planOf d = seasonOfWeek (dateOf d) x.rule
  exact : shown = (servedDishes planOf dateOf dishes x.rule).filter fun d =>
    (utcMondayOf (dateOf d) < x.currentMonday || utcMondayOf (dateOf d) ∈ weeks) && !isClosed (x.dayOffOf (dateOf d))

end

/-- No open week without a served dish lies before one of the weeks, from `currentMonday` on. -/
def NoGapSince (isOpen : ℤ → Bool) (served : List ℤ) (currentMonday : ℤ) (weeks : List ℤ) : Prop :=
  ∀ w ∈ weeks, ∀ m, utcMondayOf m = m → currentMonday ≤ m → m < w → m ∉ served → isOpen m = false

/-- None lies between two of them. -/
def NoGapBetween (isOpen : ℤ → Bool) (served weeks : List ℤ) : Prop :=
  ∀ v ∈ weeks, ∀ w ∈ weeks, ∀ m, utcMondayOf m = m → v < m → m < w → m ∉ served → isOpen m = false

variable {α : Type*} {planOf : α → Plan} {dateOf : α → ℤ} {x : Setting} {dishes : List α} {isOpen : ℤ → Bool} {weeks : List ℤ}
  {shown week m w : ℤ} {d e : α}

/-! ### The weeks without a gap -/

theorem gapBetween_eq_false (hshown : utcMondayOf shown = shown) :
    gapBetween isOpen shown week = false ↔ ∀ m, utcMondayOf m = m → shown < m → m < week → isOpen m = false := by
  simp only [gapBetween, List.any_eq_false, List.mem_map, List.mem_range]
  constructor
  · intro h m hm hlt hlt'
    obtain ⟨k, rfl⟩ := weeks_between hshown hm
    have hgap := h (shown + 7 * k) ⟨(k - 1).toNat, by omega, by omega⟩
    simpa [hlt'] using hgap
  · rintro h m ⟨i, hi, rfl⟩
    by_cases hlt : shown + 7 * ((i : ℤ) + 1) < week
    · simp [h _ (utcMondayOf_week hshown _) (by omega) hlt]
    · simp [hlt]

/-- The weeks the search goes through. -/
def runFrom (isOpen : ℤ → Bool) : ℤ → List ℤ → List ℤ
  | _, [] => []
  | shown, week :: weeks => if gapBetween isOpen shown week then [] else week :: runFrom isOpen week weeks

theorem lastShownFrom_eq (isOpen : ℤ → Bool) (shown : ℤ) (weeks : List ℤ) :
    lastShownFrom isOpen shown weeks = (runFrom isOpen shown weeks).getLastD shown := by
  induction weeks generalizing shown with
  | nil => rfl
  | cons week weeks ih =>
    simp only [lastShownFrom, runFrom]
    split
    · rfl
    · rw [ih, List.getLastD_cons]

theorem runFrom_isStart (isOpen : ℤ → Bool) (shown : ℤ) (weeks : List ℤ) : runFrom isOpen shown weeks <+: weeks := by
  induction weeks generalizing shown with
  | nil => exact List.prefix_rfl
  | cons week weeks ih =>
    rw [runFrom]
    split
    · exact List.nil_prefix
    · exact List.cons_prefix_cons.mpr ⟨rfl, ih week⟩

/-- No open week without a dish lies between the week shown and one of the run. -/
theorem runFrom_noGap (hshown : utcMondayOf shown = shown) (hweeks : ∀ w ∈ weeks, utcMondayOf w = w)
    (hw : w ∈ runFrom isOpen shown weeks) (hm : utcMondayOf m = m) (hlt : shown < m) (hlt' : m < w) (hserved : m ∉ weeks) :
    isOpen m = false := by
  induction weeks generalizing shown with
  | nil => cases hw
  | cons week weeks ih =>
    rw [runFrom] at hw
    split at hw
    · cases hw
    · rename_i hgap
      have hweek := hweeks week List.mem_cons_self
      have hbetween := (gapBetween_eq_false hshown).mp (Bool.eq_false_iff.mpr hgap)
      simp only [List.mem_cons, not_or] at hserved
      rcases lt_trichotomy m week with hbefore | hsame | hbehind
      · exact hbetween m hm hlt hbefore
      · exact absurd hsame hserved.1
      · rcases List.mem_cons.mp hw with rfl | hw
        · omega
        · exact ih hweek (fun w hw => hweeks w (List.mem_cons_of_mem _ hw)) hw hbehind hserved.2

/-- A start of the weeks without such a week is no longer than the run. -/
theorem length_le_runFrom {starts : List ℤ} (hshown : utcMondayOf shown = shown) (hweeks : ∀ w ∈ weeks, utcMondayOf w = w)
    (hahead : ∀ w ∈ weeks, shown < w) (hsorted : weeks.Pairwise (· < ·)) (hstarts : starts <+: weeks)
    (h : ∀ w ∈ starts, ∀ m, utcMondayOf m = m → shown < m → m < w → m ∉ weeks → isOpen m = false) :
    starts.length ≤ (runFrom isOpen shown weeks).length := by
  induction weeks generalizing shown starts with
  | nil => simp [List.prefix_nil.mp hstarts]
  | cons week weeks ih =>
    cases starts with
    | nil => exact Nat.zero_le _
    | cons start starts =>
      obtain ⟨rfl, hrest⟩ := List.cons_prefix_cons.mp hstarts
      obtain ⟨hbehind, hsorted⟩ := List.pairwise_cons.mp hsorted
      have hstart := hweeks start List.mem_cons_self
      have hnext : ∀ m, m ≤ start → m ∉ weeks := fun m hle hmem => by
        have := hbehind m hmem
        omega
      have hgap : gapBetween isOpen shown start = false := by
        refine (gapBetween_eq_false hshown).mpr fun m hm hlt hlt' => h start List.mem_cons_self m hm hlt hlt' ?_
        exact List.not_mem_cons_of_ne_of_not_mem hlt'.ne (hnext m hlt'.le)
      rw [runFrom, if_neg (by simp [hgap]), List.length_cons, List.length_cons]
      refine Nat.succ_le_succ (ih hstart (fun w hw => hweeks w (List.mem_cons_of_mem _ hw)) hbehind hsorted hrest ?_)
      intro w hw m hm hlt hlt' hserved
      have hshown := hahead start List.mem_cons_self
      exact h w (List.mem_cons_of_mem _ hw) m hm (hshown.trans hlt) hlt' (List.not_mem_cons_of_ne_of_not_mem hlt.ne' hserved)

/-! ### The weeks shown -/

section Shown
variable (planOf dateOf x dishes)

theorem servedWeeks_pairwise : (servedWeeks planOf dateOf x dishes).Pairwise (· < ·) := (pairwise_inOrder _).filter _

theorem mem_servedWeeks : w ∈ servedWeeks planOf dateOf x dishes ↔
    (∃ d ∈ servedDishes planOf dateOf dishes x.rule, utcMondayOf (dateOf d) = w) ∧ x.currentMonday ≤ w := by
  simp [servedWeeks]

theorem utcMondayOf_servedWeek (h : w ∈ servedWeeks planOf dateOf x dishes) : utcMondayOf w = w := by
  obtain ⟨⟨d, -, rfl⟩, -⟩ := (mem_servedWeeks planOf dateOf x dishes).mp h
  exact utcMondayOf_idem _

/-- The weeks from this one on that are shown. -/
def shownWeeks : List ℤ :=
  let weeks := servedWeeks planOf dateOf x dishes
  runFrom (opensTo planOf dateOf x dishes) (weeks.head?.getD x.currentMonday) weeks

theorem gapBetween_self (isOpen : ℤ → Bool) (week : ℤ) : gapBetween isOpen week week = false := by
  simp [gapBetween]

/-- The first served week is shown, whatever lies before it. -/
theorem shownWeeks_cons {rest : List ℤ} (h : servedWeeks planOf dateOf x dishes = week :: rest) :
    shownWeeks planOf dateOf x dishes = week :: runFrom (opensTo planOf dateOf x dishes) week rest := by
  simp [shownWeeks, h, runFrom, gapBetween_self]

theorem shownWeeks_nil (h : servedWeeks planOf dateOf x dishes = []) : shownWeeks planOf dateOf x dishes = [] := by
  simp [shownWeeks, h, runFrom]

theorem shownWeeks_isStart : shownWeeks planOf dateOf x dishes <+: servedWeeks planOf dateOf x dishes := runFrom_isStart _ _ _

theorem shownWeeks_longest : LongestRun (servedWeeks planOf dateOf x dishes)
    (NoGapBetween (opensTo planOf dateOf x dishes) (servedWeeks planOf dateOf x dishes)) (shownWeeks planOf dateOf x dishes) := by
  suffices hruns : NoGapBetween (opensTo planOf dateOf x dishes) (servedWeeks planOf dateOf x dishes) (shownWeeks planOf dateOf x dishes) ∧
      ∀ weeks, weeks <+: servedWeeks planOf dateOf x dishes →
        NoGapBetween (opensTo planOf dateOf x dishes) (servedWeeks planOf dateOf x dishes) weeks →
          weeks.length ≤ (shownWeeks planOf dateOf x dishes).length from
    ⟨shownWeeks_isStart planOf dateOf x dishes, hruns.1, hruns.2⟩
  cases h : servedWeeks planOf dateOf x dishes with
  | nil =>
    rw [shownWeeks_nil planOf dateOf x dishes h]
    exact ⟨fun v hv => absurd hv List.not_mem_nil, fun weeks hweeks _ => List.IsPrefix.length_le hweeks⟩
  | cons week rest =>
    have hmondays : ∀ w ∈ week :: rest, utcMondayOf w = w := fun w hw => utcMondayOf_servedWeek planOf dateOf x dishes (h ▸ hw)
    have hsorted := h ▸ servedWeeks_pairwise planOf dateOf x dishes
    obtain ⟨hahead, hrest⟩ := List.pairwise_cons.mp hsorted
    have hweek := hmondays week List.mem_cons_self
    have hmondays' : ∀ w ∈ rest, utcMondayOf w = w := fun w hw => hmondays w (List.mem_cons_of_mem _ hw)
    rw [shownWeeks_cons planOf dateOf x dishes h]
    constructor
    · intro v hv w hw m hm hlt hlt' hserved
      have hrun : ∀ w ∈ week :: runFrom (opensTo planOf dateOf x dishes) week rest, week ≤ w := by
        intro w hw
        rcases List.mem_cons.mp hw with rfl | hw
        · exact le_rfl
        · exact (hahead w ((runFrom_isStart _ _ _).subset hw)).le
      have hfirst := hrun v hv
      simp only [List.mem_cons, not_or] at hserved
      rcases List.mem_cons.mp hw with rfl | hw
      · omega
      · exact runFrom_noGap hweek hmondays' hw hm (by omega) hlt' hserved.2
    · intro starts hstarts hgap
      cases starts with
      | nil => exact Nat.zero_le _
      | cons start starts =>
        obtain ⟨rfl, hbehind⟩ := List.cons_prefix_cons.mp hstarts
        refine Nat.succ_le_succ (length_le_runFrom hweek hmondays' hahead hrest hbehind ?_)
        intro w hw m hm hlt hlt' hserved
        exact hgap start List.mem_cons_self w (List.mem_cons_of_mem _ hw) m hm hlt hlt'
          (List.not_mem_cons_of_ne_of_not_mem hlt.ne' hserved)

theorem lastShown_eq : lastShown planOf dateOf x dishes =
    (shownWeeks planOf dateOf x dishes).getLastD ((servedWeeks planOf dateOf x dishes).head?.getD x.currentMonday) :=
  lastShownFrom_eq _ _ _

/-- Up to the last week shown lie the past weeks and the weeks shown. -/
theorem le_lastShown_iff (hd : d ∈ servedDishes planOf dateOf dishes x.rule) : utcMondayOf (dateOf d) ≤ lastShown planOf dateOf x dishes ↔
    utcMondayOf (dateOf d) < x.currentMonday ∨ utcMondayOf (dateOf d) ∈ shownWeeks planOf dateOf x dishes := by
  have hmem : x.currentMonday ≤ utcMondayOf (dateOf d) → utcMondayOf (dateOf d) ∈ servedWeeks planOf dateOf x dishes :=
    fun hle => (mem_servedWeeks planOf dateOf x dishes).mpr ⟨⟨d, hd, rfl⟩, hle⟩
  rw [lastShown_eq]
  cases h : servedWeeks planOf dateOf x dishes with
  | nil =>
    rw [h] at hmem
    have hpast : utcMondayOf (dateOf d) < x.currentMonday := not_le.mp fun hle => absurd (hmem hle) List.not_mem_nil
    simp [shownWeeks_nil planOf dateOf x dishes h, hpast, hpast.le]
  | cons week rest =>
    have hshown := shownWeeks_cons planOf dateOf x dishes h
    obtain ⟨rest', hsplit⟩ := shownWeeks_isStart planOf dateOf x dishes
    have hsorted := servedWeeks_pairwise planOf dateOf x dishes
    have hfirst : x.currentMonday ≤ week := ((mem_servedWeeks planOf dateOf x dishes).mp (h ▸ List.mem_cons_self)).2
    have hne : shownWeeks planOf dateOf x dishes ≠ [] := by simp [hshown]
    rw [← hsplit, List.pairwise_append] at hsorted
    have hlast : ∀ w ∈ shownWeeks planOf dateOf x dishes, w ≤ (shownWeeks planOf dateOf x dishes).getLast hne :=
      fun w hw => (hsorted.1.imp le_of_lt).rel_getLast hw
    rw [List.getLastD_eq_getLast?, List.getLast?_eq_some_getLast hne, Option.getD_some]
    constructor
    · intro hle
      by_cases hpast : utcMondayOf (dateOf d) < x.currentMonday
      · exact .inl hpast
      · have hserved := hmem (not_lt.mp hpast)
        rw [← hsplit] at hserved
        rcases List.mem_append.mp hserved with hin | hout
        · exact .inr hin
        · exact absurd (hsorted.2.2 _ (List.getLast_mem hne) _ hout) (not_lt.mpr hle)
    · rintro (hpast | hin)
      · have := hlast week (by simp [hshown])
        omega
      · exact hlast _ hin

end Shown

/-! ### What is served -/

theorem seasonOfWeek_monday (d : ℤ) (rule : SeasonRule) : seasonOfWeek (utcMondayOf d) rule = seasonOfWeek d rule := by
  simp only [seasonOfWeek, utcMondayOf_idem]

theorem seasonOfWeek_congr {d e : ℤ} (h : utcMondayOf d = utcMondayOf e) (rule : SeasonRule) : seasonOfWeek d rule = seasonOfWeek e rule := by
  rw [← seasonOfWeek_monday d, h, seasonOfWeek_monday]

/-- A dish is served in its own season, or when its week has no dish of the season. -/
theorem mem_servedDishes {rule : SeasonRule} : d ∈ servedDishes planOf dateOf dishes rule ↔
    d ∈ dishes ∧ (seasonOfWeek (dateOf d) rule = planOf d ∨
      ∀ e ∈ dishes, utcMondayOf (dateOf e) = utcMondayOf (dateOf d) → seasonOfWeek (dateOf e) rule ≠ planOf e) := by
  simp only [servedDishes, isInSeason, List.mem_filter, Bool.or_eq_true, decide_eq_true_eq, List.mem_map, Function.comp_apply,
    not_exists, not_and, and_imp]
  refine and_congr_right fun _ => or_congr_right ⟨fun h e he hweek hseason => h e he hseason hweek,
    fun h e he hseason hweek => h e he hweek hseason⟩

theorem served_season {rule : SeasonRule} (hd : d ∈ servedDishes planOf dateOf dishes rule) (he : e ∈ dishes)
    (hweek : utcMondayOf (dateOf e) = utcMondayOf (dateOf d)) (hplan : planOf e = seasonOfWeek (dateOf d) rule) :
    planOf d = seasonOfWeek (dateOf d) rule := by
  rcases (mem_servedDishes.mp hd).2 with hin | hnone
  · exact hin.symm
  · exact absurd ((seasonOfWeek_congr hweek rule).trans hplan.symm) (hnone e he hweek)

theorem served_onePlan {rule : SeasonRule} (hd : d ∈ servedDishes planOf dateOf dishes rule)
    (he : e ∈ servedDishes planOf dateOf dishes rule) (hweek : utcMondayOf (dateOf d) = utcMondayOf (dateOf e)) : planOf d = planOf e := by
  have hseason := seasonOfWeek_congr hweek rule
  by_cases hin : planOf d = seasonOfWeek (dateOf d) rule
  · rw [served_season he (mem_servedDishes.mp hd).1 hweek (hin.trans hseason), hin, hseason]
  · by_cases hin' : planOf e = seasonOfWeek (dateOf e) rule
    · exact absurd (served_season hd (mem_servedDishes.mp he).1 hweek.symm (hin'.trans hseason.symm)) hin
    · rw [Plan.ne_iff.mp hin, Plan.ne_iff.mp hin', hseason]

/-- The public sees the served dishes of past weeks and of the longest run of weeks without a gap, on open days. -/
theorem publicDishes_exact (planOf : α → Plan) (dateOf : α → ℤ) (x : Setting) (dishes : List α) :
    ∃ weeks, LongestRun (servedWeeks planOf dateOf x dishes)
        (NoGapBetween (opensTo planOf dateOf x dishes) (servedWeeks planOf dateOf x dishes)) weeks ∧
      Public planOf dateOf x dishes (publicDishes planOf dateOf x dishes) weeks := by
  have hserved : ∀ d ∈ publicDishes planOf dateOf x dishes, d ∈ servedDishes planOf dateOf dishes x.rule :=
    fun d hd => (List.mem_filter.mp hd).1
  refine ⟨_, shownWeeks_longest planOf dateOf x dishes, List.filter_sublist.trans List.filter_sublist, ?_, ?_, ?_, ?_⟩
  · intro d hd
    have hshown := (List.mem_filter.mp hd).2
    simp only [Bool.and_eq_true, Bool.not_eq_true'] at hshown
    exact hshown.2
  · exact fun d hd e he => served_onePlan (hserved d hd) (hserved e he)
  · rintro d hd ⟨e, he, hweek, hplan⟩
    exact served_season (hserved d hd) he hweek hplan
  · refine List.filter_congr fun d hd => ?_
    rw [Bool.eq_iff_iff]
    simp only [Bool.and_eq_true, Bool.or_eq_true, decide_eq_true_eq, le_lastShown_iff planOf dateOf x dishes hd]

theorem openWeek_monday : utcMondayOf (dayNumber 2026 9 14) = dayNumber 2026 9 14 := by
  decide +kernel

/-- A week of the summer with nothing on it. -/
def openWeek : Setting where
  dayOffOf := menuDayOff .webuntis [] []
  rule := .clock
  currentMonday := dayNumber 2026 9 14
  isMonday := openWeek_monday

/-- The only dish is for the week after. -/
def nextWeek : List MenuDishRow := [⟨"d1", "m1", .summer, dayNumber 2026 9 23⟩]

/-- The first served week is shown although this one is open and has nothing. -/
theorem first_week_shown_behind_gap :
    publicDishes (·.plan) (·.date) openWeek nextWeek = nextWeek ∧
      ¬ ∃ weeks, LongestRun (servedWeeks (·.plan) (·.date) openWeek nextWeek)
          (NoGapSince (opensTo (·.plan) (·.date) openWeek nextWeek) (servedWeeks (·.plan) (·.date) openWeek nextWeek)
            openWeek.currentMonday) weeks ∧
        Public (·.plan) (·.date) openWeek nextWeek (publicDishes (·.plan) (·.date) openWeek nextWeek) weeks := by
  have hshown : publicDishes (·.plan) (·.date) openWeek nextWeek = nextWeek := by decide +kernel
  have hweeks : servedWeeks (fun d : MenuDishRow => d.plan) (·.date) openWeek nextWeek = [dayNumber 2026 9 21] := by decide +kernel
  refine ⟨hshown, ?_⟩
  rintro ⟨weeks, hrun, hpublic⟩
  have hexact := hpublic.exact
  rw [hshown] at hexact
  have hmem : (⟨"d1", "m1", .summer, dayNumber 2026 9 23⟩ : MenuDishRow) ∈ nextWeek := List.mem_singleton_self _
  rw [hexact] at hmem
  have hin : dayNumber 2026 9 21 ∈ weeks := by
    have hweek := (List.mem_filter.mp hmem).2
    simp only [Bool.and_eq_true, Bool.or_eq_true, decide_eq_true_eq] at hweek
    rw [show utcMondayOf (dayNumber 2026 9 23) = dayNumber 2026 9 21 by decide +kernel] at hweek
    exact hweek.1.resolve_left (by decide +kernel)
  have hgap := hrun.runsOn _ hin (dayNumber 2026 9 14) (by decide +kernel) (by decide +kernel) (by decide +kernel)
    (by rw [hweeks]; decide +kernel)
  exact absurd hgap (by decide +kernel)

end Pokyh.Menu

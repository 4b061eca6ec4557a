import Mathlib.Data.Nat.Find
import Mathlib.Order.Monotone.Basic
import Pokyh.Account.Activity

/-!
# Account — Recaps

An account's figures in a recap (`services/recaps.ts`, `services/recapRules.ts`), over the rows that are live and the years
that the school-year rollover has archived (`yearSummaries`), for an account that has given its consent.

* `recap_figures_iff`: **the figures are those of the complete history iff no archived day of the period is still there live**,
  as far as it counts.
* `recap_counts_twice`: between the rollover and the clean-up it is.
-/

namespace Pokyh.Account.Recaps
open Pokyh.Lib Pokyh.Account.Activity

/-- The first day of each school year, from the one that the first day lies in. -/
structure Calendar where
  yearStart : ℕ → ℕ
  zero : yearStart 0 = 0
  mono : StrictMono yearStart
  short : ∀ y, yearStart (y + 1) ≤ yearStart y + 366

variable (cal : Calendar)

/-- The school year that a day lies in. -/
def Calendar.year (today : ℕ) : ℕ := Nat.findGreatest (fun y => cal.yearStart y ≤ today) today

def Calendar.inYear (startYear date : ℕ) : Bool :=
  cal.yearStart startYear ≤ date && date < cal.yearStart (startYear + 1)

/-- The last day of a school year. -/
def Calendar.yearEnd (startYear : ℕ) : ℕ := cal.yearStart (startYear + 1) - 1

/-- The first day whose rows are kept: the year before stays until it is archived. -/
def activityCutoffDay (archivedYears : List ℕ) (today : ℕ) : ℕ :=
  let startYear := cal.year today
  if startYear - 1 ∈ archivedYears then cal.yearStart startYear else cal.yearStart (startYear - 1)

/-- At most ten years. -/
def daysBetween (fromDay toDay : ℕ) : List ℕ := List.range' fromDay (min (toDay + 1 - fromDay) 3660)

/-- An account's archived year, as far as its recaps read it. -/
structure YearSummary where
  startYear : ℕ
  days : List ArchivedDay
  deriving DecidableEq, Repr

/-- The active days of a summary. -/
def archiveSummary (startYear : ℕ) (summary : ActivitySummary) : YearSummary :=
  ⟨startYear, (summary.days.filter (·.active)).map fun d => ⟨d.date, d.logins, d.activeSeconds⟩⟩

/-- The rows of an account. -/
structure Rows where
  accountDays : List AccountDay
  sessions : List UsageSession
  deriving DecidableEq, Repr

def Rows.within (r : Rows) (fromDay toDay : ℕ) : Rows :=
  ⟨r.accountDays.filter fun row => fromDay ≤ row.dayKey && row.dayKey ≤ toDay,
    r.sessions.filter fun s => fromDay ≤ s.dayKey && s.dayKey ≤ toDay⟩

/-- The account's year for the archive; none without any activity. -/
def yearSummary (r : Rows) (startYear : ℕ) : Option YearSummary :=
  let fromDay := cal.yearStart startYear
  let toDay := cal.yearEnd startYear
  let own := r.within fromDay toDay
  if own.accountDays = [] ∧ own.sessions = [] then none
  else some (archiveSummary startYear
    (summarizeActivity ⟨daysBetween fromDay toDay, own.accountDays, own.sessions, signInDays own.accountDays, []⟩))

/-- What an account has in the database, and the day it is. -/
structure Store where
  live : Rows
  /-- The days of its sign-ins in the request logs. -/
  logged : List ℕ
  /-- The day on which the account, as it now is, was made. -/
  createdAt : ℕ
  /-- The school years that are closed. -/
  archivedYears : List ℕ
  archives : List YearSummary
  today : ℕ
  deriving DecidableEq, Repr

/-- The archived days of the period whose live rows are gone, each once. -/
def archiveInPeriod (archives : List YearSummary) (fromDay toDay cutoff : ℕ) : List ArchivedDay :=
  archives.foldl (fun days summary => days ++ summary.days.filter fun d =>
    fromDay ≤ d.dayKey && d.dayKey ≤ toDay && d.dayKey < cutoff && !days.any (·.dayKey = d.dayKey)) []

def archivedPart (archives : List YearSummary) (fromDay toDay cutoff : ℕ) : List ArchivedDay :=
  if cutoff ≤ fromDay then archiveInPeriod [] fromDay toDay cutoff else archiveInPeriod archives fromDay toDay cutoff

/-- The days of the period that have come; none before it begins. -/
def coveredPeriod (fromDay toDay today : ℕ) : Option (ℕ × ℕ) :=
  if fromDay ≤ min toDay today then some (fromDay, min toDay today) else none

def Store.cutoff (st : Store) : ℕ := activityCutoffDay cal st.archivedYears st.today

/-- The totals for a period. -/
def recapPokyhFigures (st : Store) (periodFrom periodTo : ℕ) : Option ActivityTotals :=
  (coveredPeriod periodFrom periodTo st.today).map fun (fromDay, toDay) =>
    let own := st.live.within fromDay toDay
    let logged := st.logged.filter fun day => fromDay ≤ day && day ≤ toDay
    (summarizeActivity
      { days := daysBetween fromDay toDay
        accountDays := own.accountDays
        sessions := own.sessions
        signIns := mergeSignIns (signInDays own.accountDays) logged
        archived := archivedPart st.archives fromDay toDay (st.cutoff cal) }).totals

/-! ### The rollover and the clean-up -/

/-- The day lies in a closed school year. -/
def Store.isArchived (st : Store) (day : ℕ) : Bool :=
  st.archivedYears.any fun y => cal.inYear y day

inductive Move where
  /-- A school year is closed; unless the account is an admin's, it is deleted, and comes back under another id. -/
  | rollover (startYear : ℕ) (retained : Bool)
  | deleteRequestLogs (cutoff : ℕ)
  | deleteAccountDays
  | unnameUsageSessions
  /-- A sign-in is logged. -/
  | logSignIn
  /-- Another day. -/
  | nextDay
  deriving DecidableEq, Repr

/-- Years are closed one after the other, and none before its last row.  Only rows of closed years are deleted. -/
def Store.step (st : Store) : Move → Option Store
  | .rollover startYear retained =>
      if st.archivedYears.all (· < startYear) &&
          st.live.accountDays.all (fun row => row.dayKey < cal.yearStart (startYear + 1) → row.dayKey ≤ st.today) &&
          st.live.sessions.all (fun s => s.dayKey < cal.yearStart (startYear + 1) → s.dayKey ≤ st.today) then
        let st := { st with
          archivedYears := startYear :: st.archivedYears
          archives := (yearSummary cal st.live startYear).toList ++ st.archives }
        if retained then some st
        else if st.live.accountDays.all (fun row => row.dayKey ≤ st.today → st.isArchived cal row.dayKey) &&
            st.live.sessions.all (fun s => s.dayKey ≤ st.today → st.isArchived cal s.dayKey) then
          some { st with
            live := ⟨st.live.accountDays.filter fun row => !st.isArchived cal row.dayKey,
              st.live.sessions.filter fun s => !st.isArchived cal s.dayKey⟩
            logged := []
            createdAt := st.today }
        else none
      else none
  | .deleteRequestLogs cutoff => some { st with logged := st.logged.filter fun day => !(day < cutoff) }
  | .deleteAccountDays =>
      if st.live.accountDays.all fun row => row.dayKey < st.cutoff cal → st.isArchived cal row.dayKey then
        some { st with live.accountDays := st.live.accountDays.filter fun row => !(row.dayKey < st.cutoff cal) }
      else none
  | .unnameUsageSessions =>
      if st.live.sessions.all fun s => s.dayKey < st.cutoff cal → st.isArchived cal s.dayKey then
        some { st with live.sessions := st.live.sessions.filter fun s => !(s.dayKey < st.cutoff cal) }
      else none
  | .logSignIn => some { st with logged := st.today :: st.logged }
  | .nextDay => some { st with today := st.today + 1 }

/-- Nothing is archived yet. -/
def Store.complete (h : Rows) (today : ℕ) : Store := ⟨h, [], 0, [], [], today⟩

/-! ### What should hold -/

/-- Active days, sign-ins, active seconds and the longest streak. -/
def figures (t : ActivityTotals) : ℕ × ℕ × ℕ × ℕ := (t.activeDays, t.logins, t.activeSeconds, t.longestStreak)

/-- The totals of a complete history, with the same request logs. -/
def completeFigures (h : Rows) (st : Store) (periodFrom periodTo : ℕ) : Option ActivityTotals :=
  (coveredPeriod periodFrom periodTo st.today).map fun (fromDay, toDay) =>
    let own := h.within fromDay toDay
    let logged := st.logged.filter fun day => fromDay ≤ day && day ≤ toDay
    (summarizeActivity ⟨daysBetween fromDay toDay, own.accountDays, own.sessions,
      mergeSignIns (signInDays own.accountDays) logged, []⟩).totals

/-- What the archive has of a day. -/
def Store.archivedDay (st : Store) (date : ℕ) : Option ArchivedDay :=
  (st.archives.flatMap (·.days)).find? (·.dayKey = date)

/-- Nothing that the archive counts of the day counts again: no time is left live, and no sign-in is left live or logged
where it has some. -/
def Store.countedOnce (st : Store) (date : ℕ) (a : ArchivedDay) : Bool :=
  secondsOn st.live.sessions date = 0 && (a.logins = 0 || signInsOn st.live.accountDays date + st.logged.count date = 0)

/-- All that the archive counts of the day is still live. -/
def Store.stillLive (st : Store) (date : ℕ) (a : ArchivedDay) : Bool :=
  a.seconds ≤ secondsOn st.live.sessions date &&
    a.logins ≤ max (signInsOn st.live.accountDays date) (st.logged.count date) &&
    (st.live.accountDays.any (·.dayKey = date) || 0 < secondsOn st.live.sessions date || date ∈ st.logged)

/-- A recap takes the days before the cutoff from the archive and from what is live, the others from what is live. -/
def Store.settled (st : Store) (date : ℕ) : Bool :=
  (st.archivedDay date).all fun a => if date < st.cutoff cal then st.countedOnce date a else st.stillLive date a

/-! ### Figures day by day -/

/-- What a day adds to the figures: whether it is active, its sign-ins and its seconds. -/
abbrev DayFigures := Bool × ℕ × ℕ

def figuresOf (l : List DayFigures) : ℕ × ℕ × ℕ × ℕ :=
  (l.countP (·.1), (l.map (·.2.1)).sum, (l.map (·.2.2)).sum, longestStreak (l.map (·.1)))

theorem figures_totalsOf (days : List ActivityDay) :
    figures (totalsOf days) = figuresOf (days.map fun d => (d.active, d.logins, d.activeSeconds)) := by
  simp [figures, totalsOf, figuresOf, List.countP_map, List.map_map, Function.comp_def]

/-- A day that adds no more than another one. -/
def DayFigures.Le (x y : DayFigures) : Prop := (x.1 = true → y.1 = true) ∧ x.2.1 ≤ y.2.1 ∧ x.2.2 ≤ y.2.2

theorem DayFigures.le_of_eq {x y : DayFigures} (heq : x = y) : DayFigures.Le x y := by
  subst heq
  exact ⟨id, Nat.le_refl _, Nat.le_refl _⟩

theorem sum_map_le {α : Type} {l : List α} {f g : α → ℕ} (hle : ∀ a ∈ l, f a ≤ g a) : (l.map f).sum ≤ (l.map g).sum := by
  induction l with
  | nil => exact Nat.le_refl 0
  | cons a l ih =>
      have ha := hle a List.mem_cons_self
      have hl := ih fun b hb => hle b (List.mem_cons_of_mem _ hb)
      simp only [List.map_cons, List.sum_cons]
      omega

theorem sum_map_eq_iff {α : Type} {l : List α} {f g : α → ℕ} (hle : ∀ a ∈ l, f a ≤ g a) :
    (l.map f).sum = (l.map g).sum ↔ ∀ a ∈ l, f a = g a := by
  refine ⟨fun h => ?_, fun h => congrArg List.sum (List.map_congr_left h)⟩
  induction l with
  | nil => simp
  | cons a l ih =>
      have ha := hle a List.mem_cons_self
      have hl := sum_map_le fun b hb => hle b (List.mem_cons_of_mem _ hb)
      simp only [List.map_cons, List.sum_cons] at h
      rw [List.forall_mem_cons]
      exact ⟨by omega, ih (fun b hb => hle b (List.mem_cons_of_mem _ hb)) (by omega)⟩

theorem countP_map_eq_sum {α : Type} (l : List α) (p : α → Bool) : l.countP p = (l.map fun a => (p a).toNat).sum := by
  induction l with
  | nil => rfl
  | cons a l ih => cases h : p a <;> simp [h, ih, Nat.add_comm]

/-- **Where no day adds more than the same day does elsewhere, the figures are the same iff every day's are.** -/
theorem figuresOf_eq_iff {l : List ℕ} {f g : ℕ → DayFigures} (hle : ∀ d ∈ l, (f d).Le (g d)) :
    figuresOf (l.map f) = figuresOf (l.map g) ↔ ∀ d ∈ l, f d = g d := by
  refine ⟨fun h d hd => ?_, fun h => by rw [List.map_congr_left h]⟩
  simp only [figuresOf, Prod.mk.injEq, List.map_map, countP_map_eq_sum] at h
  obtain ⟨hactive, hlogins, hseconds, -⟩ := h
  have hactive' := (sum_map_eq_iff fun d hd => ?_).mp hactive d hd
  · have hlogins' := (sum_map_eq_iff fun d hd => (hle d hd).2.1).mp hlogins d hd
    have hseconds' := (sum_map_eq_iff fun d hd => (hle d hd).2.2).mp hseconds d hd
    refine Prod.ext ?_ (Prod.ext hlogins' hseconds')
    simp only [Function.comp_apply] at hactive'
    cases hf : (f d).1 <;> cases hg : (g d).1 <;> simp_all
  · have h := (hle d hd).1
    simp only [Function.comp_apply]
    cases hf : (f d).1 <;> cases hg : (g d).1 <;> simp_all

/-- The day has activity. -/
def Rows.activeOn (r : Rows) (date : ℕ) : Bool :=
  r.accountDays.any (·.dayKey = date) || 0 < secondsOn r.sessions date

/-- What a day adds, from rows, from the log and from the archive. -/
def dayFigures (r : Rows) (logged : List ℕ) (archived : Option ArchivedDay) (date : ℕ) : DayFigures :=
  (r.activeOn date || date ∈ logged || archived.isSome,
    max (signInsOn r.accountDays date) (logged.count date) + (archived.map (·.logins)).getD 0,
    secondsOn r.sessions date + (archived.map (·.seconds)).getD 0)

/-! ### A day's own rows -/

/-- The rows of a day. -/
def Rows.on (r : Rows) (date : ℕ) : Rows :=
  ⟨r.accountDays.filter (·.dayKey = date), r.sessions.filter (·.dayKey = date)⟩

variable {r r' h : Rows} {date fromDay toDay : ℕ} {logged : List ℕ}

theorem signInsOn_eq_sum (rows : List AccountDay) (date : ℕ) :
    signInsOn rows date = ((rows.filter (·.dayKey = date)).map fun row => min 500 row.signIns.toNat).sum := by
  induction rows with
  | nil => rfl
  | cons row rows ih =>
      have hcons : signInsOn (row :: rows) date =
          (List.replicate (min 500 row.signIns.toNat) row.dayKey).count date + signInsOn rows date := by
        simp [signInsOn, signInDays]
      rw [hcons, ih, List.count_replicate]
      by_cases hdate : row.dayKey = date <;> simp [hdate]

theorem signInsOn_on (r : Rows) (date : ℕ) : signInsOn (r.on date).accountDays date = signInsOn r.accountDays date := by
  simp [signInsOn_eq_sum, Rows.on]

theorem secondsOn_on (r : Rows) (date : ℕ) : secondsOn (r.on date).sessions date = secondsOn r.sessions date := by
  simp [secondsOn, Rows.on]

theorem activeOn_on (r : Rows) (date : ℕ) : (r.on date).activeOn date = r.activeOn date := by
  simp only [Rows.activeOn, secondsOn_on]
  simp [Rows.on, List.any_filter]

/-- What a day adds is up to its own rows. -/
theorem dayFigures_congr (hon : r.on date = r'.on date) (archived : Option ArchivedDay) :
    dayFigures r logged archived date = dayFigures r' logged archived date := by
  simp only [dayFigures, ← activeOn_on r, ← signInsOn_on r, ← secondsOn_on r, hon]
  simp only [activeOn_on, signInsOn_on, secondsOn_on]

/-- An inactive day adds nothing. -/
theorem not_activeOn (hactive : r.activeOn date = false) :
    signInsOn r.accountDays date = 0 ∧ secondsOn r.sessions date = 0 := by
  simp only [Rows.activeOn, Bool.or_eq_false_iff, List.any_eq_false, decide_eq_true_eq, decide_eq_false_iff_not,
    Nat.not_lt, Nat.le_zero] at hactive
  refine ⟨?_, hactive.2⟩
  rw [signInsOn_eq_sum, List.filter_eq_nil_iff.mpr fun row hrow => by simpa using hactive.1 row hrow]
  rfl

theorem filter_on {α : Type} {key : α → ℕ} {p : α → Bool} {l : List α} (hp : ∀ a ∈ l, key a = date → p a = true) :
    (l.filter p).filter (fun a => key a = date) = l.filter fun a => key a = date := by
  rw [List.filter_filter]
  refine List.filter_congr fun a ha => ?_
  by_cases hkey : key a = date
  · simp [hkey, hp a ha hkey]
  · simp [hkey]

theorem on_within (hfrom : fromDay ≤ date) (hto : date ≤ toDay) : (r.within fromDay toDay).on date = r.on date := by
  unfold Rows.on Rows.within
  rw [filter_on fun row _ hrow => by simp [hrow, hfrom, hto], filter_on fun s _ hs => by simp [hs, hfrom, hto]]

theorem exists_session_iff (sessions : List UsageSession) (date : ℕ) :
    ((sessions.filter (·.dayKey = date)).any fun s => 0 < s.activeSeconds) = decide (0 < secondsOn sessions date) := by
  induction sessions with
  | nil => rfl
  | cons s sessions ih =>
      by_cases hdate : s.dayKey = date
      · have hcons : secondsOn (s :: sessions) date = s.activeSeconds.toNat + secondsOn sessions date := by
          simp [secondsOn, hdate]
        rw [List.filter_cons_of_pos (by simpa using hdate), List.any_cons, ih, hcons, Bool.eq_iff_iff]
        simp only [Bool.or_eq_true, decide_eq_true_eq]
        omega
      · have hcons : secondsOn (s :: sessions) date = secondsOn sessions date := by simp [secondsOn, hdate]
        rw [List.filter_cons_of_neg (by simpa using hdate), ih, hcons]

/-- What a summary says of a day. -/
theorem onDay_eq {input : ActivityInput} {archived : Option ArchivedDay}
    (hcount : input.signIns.count date = max (signInsOn input.accountDays date) (logged.count date))
    (harchived : archivedOn input.archived date = archived.toList) :
    ((input.onDay date).active, (input.onDay date).logins, (input.onDay date).activeSeconds) =
      dayFigures ⟨input.accountDays, input.sessions⟩ logged archived date := by
  have hany : (input.signIns.any fun day => day = date) =
      decide (0 < max (signInsOn input.accountDays date) (logged.count date)) := by
    rw [← hcount, Bool.eq_iff_iff, decide_eq_true_iff, List.count_pos_iff]
    simp
  have hrows : 0 < signInsOn input.accountDays date → (input.accountDays.any fun row => row.dayKey = date) = true := by
    intro hpos
    by_contra hnone
    rw [signInsOn_eq_sum, List.filter_eq_nil_iff.mpr fun row hrow => ?_] at hpos
    · exact absurd hpos (by simp)
    · simp only [List.any_eq_true, not_exists, not_and] at hnone
      exact hnone row hrow
  have hlogged : 0 < logged.count date ↔ date ∈ logged := List.count_pos_iff
  refine Prod.ext ?_ (Prod.ext ?_ ?_)
  · simp only [ActivityInput.onDay, dayFigures, Rows.activeOn, exists_session_iff, hany, harchived]
    rw [Bool.eq_iff_iff]
    cases archived with
    | some a => simp
    | none =>
        simp only [Option.toList_none, List.isEmpty_nil, Bool.not_true, Bool.or_false, Option.isSome_none,
          Bool.or_eq_true, decide_eq_true_eq]
        rw [← hlogged]
        constructor
        · rintro ((hrow | hsession) | hsignIn)
          · exact .inl (.inl hrow)
          · exact .inl (.inr hsession)
          · rcases Nat.eq_zero_or_pos (signInsOn input.accountDays date) with hzero | hpos
            · exact .inr (by omega)
            · exact .inl (.inl (hrows hpos))
        · rintro ((hrow | hsession) | hlog)
          · exact .inl (.inl hrow)
          · exact .inl (.inr hsession)
          · exact .inr (by omega)
  · simp only [ActivityInput.onDay, dayFigures, hcount, harchived]
    cases archived <;> simp
  · simp only [ActivityInput.onDay, dayFigures, harchived]
    cases archived <;> simp

/-! ### What a recap takes from the archive -/

/-- A day is listed once in its year. -/
def YearSummary.Lists (y : YearSummary) : Prop := (y.days.map (·.dayKey)).Nodup

theorem archivedOn_eq_find? {days : List ArchivedDay} (hdays : (days.map (·.dayKey)).Nodup) :
    archivedOn days date = (days.find? (·.dayKey = date)).toList := by
  induction days with
  | nil => rfl
  | cons d days ih =>
      obtain ⟨hd, hdays⟩ := List.nodup_cons.mp hdays
      by_cases hdate : d.dayKey = date
      · have hnone : archivedOn days date = [] := List.filter_eq_nil_iff.mpr fun e he heq => by
          have hsame : e.dayKey = d.dayKey := by simpa [hdate] using heq
          exact hd (List.mem_map.mpr ⟨e, he, hsame⟩)
        rw [List.find?_cons_of_pos (by simpa using hdate), archivedOn, List.filter_cons_of_pos (by simpa using hdate)]
        exact congrArg _ hnone
      · rw [List.find?_cons_of_neg (by simpa using hdate), ← ih hdays, archivedOn,
          List.filter_cons_of_neg (by simpa using hdate), archivedOn]

/-- Before the cutoff each archived day of the period is taken once. -/
theorem archivedOn_archiveInPeriod {archives : List YearSummary} (hlists : ∀ y ∈ archives, y.Lists) {cutoff : ℕ}
    (hfrom : fromDay ≤ date) (hto : date ≤ toDay) (hcutoff : date < cutoff) :
    archivedOn (archiveInPeriod archives fromDay toDay cutoff) date =
      ((archives.flatMap (·.days)).find? (·.dayKey = date)).toList := by
  refine foldl_splits (P := fun (done : List YearSummary) days =>
    archivedOn days date = ((done.flatMap (·.days)).find? (·.dayKey = date)).toList) rfl ?_
  intro pre y post hsplit ih
  have hy : archivedOn y.days date = (y.days.find? (·.dayKey = date)).toList :=
    archivedOn_eq_find? (hlists y (hsplit ▸ by simp))
  rw [List.flatMap_append, List.find?_append]
  generalize pre.foldl _ [] = days at ih ⊢
  cases hpre : (pre.flatMap (·.days)).find? (·.dayKey = date) with
  | some a =>
      rw [hpre] at ih
      -- seen before: nothing is added
      have hany : days.any (·.dayKey = date) = true := by
        have hmem : a ∈ archivedOn days date := by rw [ih]; exact List.mem_singleton_self a
        exact List.any_eq_true.mpr ⟨a, (List.mem_filter.mp hmem).1, (List.mem_filter.mp hmem).2⟩
      rw [archivedOn, List.filter_append, List.filter_filter]
      have hnone : y.days.filter (fun d => decide (d.dayKey = date) && (decide (fromDay ≤ d.dayKey) &&
          decide (d.dayKey ≤ toDay) && decide (d.dayKey < cutoff) && !days.any (·.dayKey = d.dayKey))) = [] :=
        List.filter_eq_nil_iff.mpr fun d _ hd => by
          simp only [Bool.and_eq_true, decide_eq_true_eq, Bool.not_eq_true'] at hd
          obtain ⟨rfl, -, hseen⟩ := hd
          rw [hany] at hseen
          cases hseen
      rw [hnone, List.append_nil]
      exact ih
  | none =>
      rw [hpre] at ih
      have hseen : days.any (·.dayKey = date) = false := by
        have hnil : days.filter (fun a => decide (a.dayKey = date)) = [] := ih
        simpa [List.filter_eq_nil_iff] using hnil
      rw [archivedOn, List.filter_append]
      have hnew : (y.days.filter fun d => decide (fromDay ≤ d.dayKey) && decide (d.dayKey ≤ toDay) &&
          decide (d.dayKey < cutoff) && !days.any (·.dayKey = d.dayKey)).filter (fun d => d.dayKey = date) =
          archivedOn y.days date :=
        filter_on fun d _ hd => by subst hd; simp [hfrom, hto, hcutoff, hseen]
      rw [hnew, hy, show days.filter (fun a => decide (a.dayKey = date)) = [] from ih]
      simp

/-- From the cutoff on nothing is taken. -/
theorem archivedOn_archiveInPeriod_of_le {archives : List YearSummary} {cutoff : ℕ} (hcutoff : cutoff ≤ date) :
    archivedOn (archiveInPeriod archives fromDay toDay cutoff) date = [] := by
  refine foldl_invariant (P := fun days : List ArchivedDay => archivedOn days date = []) (fun days y _ ih => ?_) rfl
  rw [archivedOn, List.filter_append, show days.filter (fun a => decide (a.dayKey = date)) = [] from ih, List.nil_append]
  refine List.filter_eq_nil_iff.mpr fun d hd heq => ?_
  have hdate : d.dayKey = date := by simpa using heq
  have hlt := (List.mem_filter.mp hd).2
  simp only [Bool.and_eq_true, decide_eq_true_eq] at hlt
  omega

/-- What a recap takes from the archive of a day. -/
def Store.taken (st : Store) (date : ℕ) : Option ArchivedDay :=
  if date < st.cutoff cal then st.archivedDay date else none

theorem archivedOn_archivedPart {st : Store} (hlists : ∀ y ∈ st.archives, y.Lists) (hfrom : fromDay ≤ date) (hto : date ≤ toDay) :
    archivedOn (archivedPart st.archives fromDay toDay (st.cutoff cal)) date = (st.taken cal date).toList := by
  unfold archivedPart Store.taken
  by_cases hcutoff : date < st.cutoff cal
  · rw [if_pos hcutoff, if_neg (by omega)]
    exact archivedOn_archiveInPeriod hlists hfrom hto hcutoff
  · rw [if_neg hcutoff]
    have hle : st.cutoff cal ≤ date := by omega
    split <;> exact archivedOn_archiveInPeriod_of_le hle

theorem mem_daysBetween (hdate : date ∈ daysBetween fromDay toDay) : fromDay ≤ date ∧ date ≤ toDay := by
  rw [daysBetween, List.mem_range'_1] at hdate
  omega

theorem count_filter_within (hfrom : fromDay ≤ date) (hto : date ≤ toDay) :
    dayFigures r (logged.filter fun day => fromDay ≤ day && day ≤ toDay) none date = dayFigures r logged none date ∧
      ∀ a, dayFigures r (logged.filter fun day => fromDay ≤ day && day ≤ toDay) (some a) date =
        dayFigures r logged (some a) date := by
  have hmem : (date ∈ logged.filter fun day => fromDay ≤ day && day ≤ toDay) ↔ date ∈ logged := by
    simp [hfrom, hto]
  have hcount : (logged.filter fun day => fromDay ≤ day && day ≤ toDay).count date = logged.count date :=
    List.count_filter (by simp [hfrom, hto])
  simp [dayFigures, hmem, hcount]

/-- A recap's figures, day by day. -/
theorem figures_recap {st : Store} (hlists : ∀ y ∈ st.archives, y.Lists) (periodFrom periodTo : ℕ) :
    (recapPokyhFigures cal st periodFrom periodTo).map figures =
      (coveredPeriod periodFrom periodTo st.today).map fun (fromDay, toDay) =>
        figuresOf ((daysBetween fromDay toDay).map fun date => dayFigures st.live st.logged (st.taken cal date) date) := by
  unfold recapPokyhFigures
  rw [Option.map_map]
  refine Option.map_congr fun ⟨fromDay, toDay⟩ _ => ?_
  simp only [Function.comp_apply, totals_summarizeActivity, figures_totalsOf, List.map_map]
  refine congrArg figuresOf (List.map_congr_left fun date hdate => ?_)
  obtain ⟨hfrom, hto⟩ := mem_daysBetween hdate
  refine (@onDay_eq _ _ _ (st.taken cal date) (count_mergeSignIns _ _ _) (archivedOn_archivedPart cal hlists hfrom hto)).trans ?_
  refine (dayFigures_congr (on_within hfrom hto) _).trans ?_
  cases st.taken cal date with
  | none => exact (count_filter_within hfrom hto).1
  | some a => exact (count_filter_within hfrom hto).2 a

/-- The complete history's figures, day by day. -/
theorem figures_complete (h : Rows) (st : Store) (periodFrom periodTo : ℕ) :
    (completeFigures h st periodFrom periodTo).map figures =
      (coveredPeriod periodFrom periodTo st.today).map fun (fromDay, toDay) =>
        figuresOf ((daysBetween fromDay toDay).map fun date => dayFigures h st.logged none date) := by
  unfold completeFigures
  rw [Option.map_map]
  refine Option.map_congr fun ⟨fromDay, toDay⟩ _ => ?_
  simp only [Function.comp_apply, totals_summarizeActivity, figures_totalsOf, List.map_map]
  refine congrArg figuresOf (List.map_congr_left fun date hdate => ?_)
  obtain ⟨hfrom, hto⟩ := mem_daysBetween hdate
  refine (@onDay_eq _ _ _ none (count_mergeSignIns _ _ _) rfl).trans ?_
  exact (dayFigures_congr (on_within hfrom hto) _).trans (count_filter_within hfrom hto).1

/-! ### The archive of a year -/

variable {cal}

theorem Calendar.inYear_iff {y : ℕ} : cal.inYear y date = true ↔ cal.yearStart y ≤ date ∧ date < cal.yearStart (y + 1) := by
  simp [Calendar.inYear]

/-- A day lies in one school year. -/
theorem Calendar.inYear_lt {y z date' : ℕ} (hlt : y < z) (hy : cal.inYear y date = true) (hz : cal.inYear z date' = true) :
    date < date' := by
  have hmono : cal.yearStart (y + 1) ≤ cal.yearStart z := cal.mono.monotone hlt
  have h₁ := (Calendar.inYear_iff.mp hy).2
  have h₂ := (Calendar.inYear_iff.mp hz).1
  omega

theorem Calendar.inYear_unique {y z : ℕ} (hy : cal.inYear y date = true) (hz : cal.inYear z date = true) : y = z := by
  rcases lt_trichotomy y z with h | h | h
  · exact absurd (Calendar.inYear_lt h hy hz) (lt_irrefl _)
  · exact h
  · exact absurd (Calendar.inYear_lt h hz hy) (lt_irrefl _)

/-- The days of a year's summary. -/
theorem mem_year (cal : Calendar) (y : ℕ) :
    date ∈ daysBetween (cal.yearStart y) (cal.yearEnd y) ↔ cal.inYear y date = true := by
  have hlt : cal.yearStart y < cal.yearStart (y + 1) := cal.mono (Nat.lt_succ_self y)
  have hshort := cal.short y
  rw [Calendar.inYear_iff, daysBetween, List.mem_range'_1, Calendar.yearEnd]
  omega

theorem find?_map_filter {l : List ℕ} {p : ℕ → Bool} {f : ℕ → ArchivedDay} (hf : ∀ d, (f d).dayKey = d) (date : ℕ) :
    ((l.filter p).map f).find? (fun a => a.dayKey = date) = if date ∈ l ∧ p date = true then some (f date) else none := by
  induction l with
  | nil => simp
  | cons d l ih =>
      cases hp : p d with
      | true =>
          rw [List.filter_cons_of_pos hp, List.map_cons, List.find?_cons]
          by_cases hdate : d = date
          · subst hdate
            simp [hf, hp]
          · simp [hf, hdate, ih, Ne.symm hdate]
      | false =>
          rw [List.filter_cons_of_neg (by simp [hp]), ih]
          by_cases hdate : d = date
          · subst hdate
            simp [hp]
          · simp [Ne.symm hdate]

/-- The rows of an account for the summary of a year. -/
def yearInput (cal : Calendar) (r : Rows) (y : ℕ) : ActivityInput :=
  let own := r.within (cal.yearStart y) (cal.yearEnd y)
  ⟨daysBetween (cal.yearStart y) (cal.yearEnd y), own.accountDays, own.sessions, signInDays own.accountDays, []⟩

theorem days_archiveSummary (y : ℕ) (input : ActivityInput) :
    (archiveSummary y (summarizeActivity input)).days = (input.days.filter fun d => (input.onDay d).active).map fun d =>
      ⟨d, (input.onDay d).logins, (input.onDay d).activeSeconds⟩ := by
  simp [archiveSummary, days_summarizeActivity, List.filter_map, List.map_map, Function.comp_def, ActivityInput.onDay]

theorem onDay_yearInput {y : ℕ} (hdate : cal.inYear y date = true) :
    (((yearInput cal r y).onDay date).active, ((yearInput cal r y).onDay date).logins,
      ((yearInput cal r y).onDay date).activeSeconds) =
      (r.activeOn date, signInsOn r.accountDays date, secondsOn r.sessions date) := by
  obtain ⟨hfrom, hto⟩ := mem_daysBetween ((mem_year cal y).mpr hdate)
  refine (@onDay_eq date [] _ none ?_ rfl).trans ((dayFigures_congr (on_within hfrom hto) _).trans ?_)
  · simp [yearInput, signInsOn]
  · simp [dayFigures]

theorem lists_yearSummary (cal : Calendar) (r : Rows) (y : ℕ) : ∀ a ∈ (yearSummary cal r y).toList, a.Lists := by
  intro a ha
  rw [Option.mem_toList, yearSummary] at ha
  split at ha
  · cases ha
  · obtain rfl := Option.some.inj ha
    have hkeys : ∀ input : ActivityInput, input.days.Nodup → (archiveSummary y (summarizeActivity input)).Lists := by
      intro input hnodup
      rw [YearSummary.Lists, days_archiveSummary, List.map_map]
      have hid : (ArchivedDay.dayKey ∘ fun d => ⟨d, (input.onDay d).logins, (input.onDay d).activeSeconds⟩) = id := rfl
      rw [hid, List.map_id]
      exact hnodup.filter _
    exact hkeys _ List.nodup_range'

/-- **A year's summary has its active days, with their own figures.** -/
theorem find?_yearSummary (cal : Calendar) (r : Rows) (y date : ℕ) :
    ((yearSummary cal r y).toList.flatMap (·.days)).find? (·.dayKey = date) =
      if cal.inYear y date = true ∧ r.activeOn date = true then
        some ⟨date, signInsOn r.accountDays date, secondsOn r.sessions date⟩
      else none := by
  by_cases hempty : (r.within (cal.yearStart y) (cal.yearEnd y)).accountDays = [] ∧
      (r.within (cal.yearStart y) (cal.yearEnd y)).sessions = []
  · have hnone : yearSummary cal r y = none := if_pos hempty
    rw [hnone, if_neg]
    · rfl
    · rintro ⟨hdate, hactive⟩
      obtain ⟨hfrom, hto⟩ := mem_daysBetween ((mem_year cal y).mpr hdate)
      rw [← activeOn_on, ← on_within hfrom hto, activeOn_on] at hactive
      simp [Rows.activeOn, hempty.1, hempty.2, secondsOn] at hactive
  · have hsome : yearSummary cal r y = some (archiveSummary y (summarizeActivity (yearInput cal r y))) := if_neg hempty
    rw [hsome, Option.toList_some, List.flatMap_singleton, days_archiveSummary]
    refine (find?_map_filter (fun _ => rfl) date).trans ?_
    have hmem : date ∈ (yearInput cal r y).days ↔ cal.inYear y date = true := mem_year cal y
    by_cases hdate : cal.inYear y date = true
    · have hday := @onDay_yearInput cal r date y hdate
      simp only [Prod.mk.injEq] at hday
      simp only [hmem, hdate, hday.1, hday.2.1, hday.2.2, true_and]
    · simp [hmem, hdate]

/-! ### What every move keeps -/

/-- **The invariant.**  A row of the complete history is live unless its day is one of those deleted (`keepDays`, `keepVisits`);
the closed years in `left` are those from before the account was last made anew. -/
structure Store.Keeps (cal : Calendar) (h : Rows) (st : Store) (keepDays keepVisits : ℕ → Bool) (left : List ℕ) : Prop where
  accountDays : st.live.accountDays = h.accountDays.filter (keepDays ·.dayKey)
  sessions : st.live.sessions = h.sessions.filter (keepVisits ·.dayKey)
  goneDays : ∀ row ∈ h.accountDays, keepDays row.dayKey = false → st.isArchived cal row.dayKey = true ∧
    (row.dayKey < st.cutoff cal ∨ ∃ y ∈ left, cal.inYear y row.dayKey = true)
  goneVisits : ∀ s ∈ h.sessions, keepVisits s.dayKey = false → st.isArchived cal s.dayKey = true ∧
    (s.dayKey < st.cutoff cal ∨ ∃ y ∈ left, cal.inYear y s.dayKey = true)
  left_archived : ∀ y ∈ left, y ∈ st.archivedYears
  /-- Years closed since are later ones. -/
  left_before : ∀ y ∈ st.archivedYears, y ∉ left → ∀ z ∈ left, z < y
  left_gone : ∀ y ∈ left, ∀ date, cal.inYear y date = true → keepDays date = false ∧ keepVisits date = false
  left_days : ∀ y ∈ left, ∀ row ∈ h.accountDays, cal.inYear y row.dayKey = true → row.dayKey ≤ st.createdAt
  left_visits : ∀ y ∈ left, ∀ s ∈ h.sessions, cal.inYear y s.dayKey = true → s.dayKey ≤ st.createdAt
  created : st.createdAt ≤ st.today
  logged : ∀ day ∈ st.logged, st.createdAt ≤ day
  closed_days : ∀ y ∈ st.archivedYears, ∀ row ∈ h.accountDays, cal.inYear y row.dayKey = true → row.dayKey ≤ st.today
  closed_visits : ∀ y ∈ st.archivedYears, ∀ s ∈ h.sessions, cal.inYear y s.dayKey = true → s.dayKey ≤ st.today
  lists : ∀ y ∈ st.archives, y.Lists
  archivedDay : ∀ date, st.archivedDay date =
    if st.isArchived cal date = true ∧ h.activeOn date = true then
      some ⟨date, signInsOn h.accountDays date, secondsOn h.sessions date⟩
    else none

theorem keeps_complete (cal : Calendar) (h : Rows) (today : ℕ) :
    (Store.complete h today).Keeps cal h (fun _ => true) (fun _ => true) [] where
  accountDays := (List.filter_eq_self.mpr fun _ _ => rfl).symm
  sessions := (List.filter_eq_self.mpr fun _ _ => rfl).symm
  goneDays := nofun
  goneVisits := nofun
  left_archived := nofun
  left_before := nofun
  left_gone := nofun
  left_days := nofun
  left_visits := nofun
  created := Nat.zero_le _
  logged := nofun
  closed_days := nofun
  closed_visits := nofun
  lists := nofun
  archivedDay := fun date => by simp [Store.archivedDay, Store.complete, Store.isArchived]

theorem Store.isArchived_iff {st : Store} : st.isArchived cal date = true ↔ ∃ y ∈ st.archivedYears, cal.inYear y date = true := by
  simp [Store.isArchived]

/-- The cutoff only moves on. -/
theorem cutoff_mono {years years' : List ℕ} {today today' : ℕ} (hyears : ∀ y ∈ years, y ∈ years') (htoday : today ≤ today') :
    activityCutoffDay cal years today ≤ activityCutoffDay cal years' today' := by
  have hyear : cal.year today ≤ cal.year today' := by
    refine Nat.le_findGreatest ((Nat.findGreatest_le today).trans htoday) ?_
    exact (Nat.findGreatest_spec (P := fun y => cal.yearStart y ≤ today) (Nat.zero_le today)
      (by rw [cal.zero]; exact Nat.zero_le _)).trans htoday
  have hmono := cal.mono.monotone
  simp only [activityCutoffDay]
  rcases Nat.eq_or_lt_of_le hyear with heq | hlt
  · rw [heq]
    by_cases hin : cal.year today' - 1 ∈ years
    · rw [if_pos hin, if_pos (hyears _ hin)]
    · rw [if_neg hin]
      split
      · exact hmono (Nat.sub_le _ _)
      · exact Nat.le_refl _
  · have hle : cal.year today ≤ cal.year today' - 1 := by omega
    have hfirst : activityCutoffDay cal years today ≤ cal.yearStart (cal.year today) := by
      simp only [activityCutoffDay]
      split
      · exact Nat.le_refl _
      · exact hmono (Nat.sub_le _ _)
    refine hfirst.trans ((hmono hle).trans ?_)
    split
    · exact hmono (Nat.sub_le _ _)
    · exact Nat.le_refl _

variable {st st' : Store} {keepDays keepVisits : ℕ → Bool} {left : List ℕ}

theorem filter_and {α : Type} {l l' : List α} {p q : α → Bool} (h : l = l'.filter p) :
    l.filter q = l'.filter fun a => p a && q a := by
  rw [h, List.filter_filter]
  exact List.filter_congr fun a _ => Bool.and_comm _ _

/-- A day on which nothing is deleted is as it was. -/
theorem Store.Keeps.on_eq (hk : st.Keeps cal h keepDays keepVisits left)
    (hdays : ∀ row ∈ h.accountDays, row.dayKey = date → keepDays date = true)
    (hvisits : ∀ s ∈ h.sessions, s.dayKey = date → keepVisits date = true) : st.live.on date = h.on date := by
  unfold Rows.on
  rw [hk.accountDays, hk.sessions, filter_on fun row hrow hdate => by rw [hdate]; exact hdays row hrow hdate,
    filter_on fun s hs hdate => by rw [hdate]; exact hvisits s hs hdate]

/-- A day whose year is not closed is as it was. -/
theorem Store.Keeps.on_eq_of_open (hk : st.Keeps cal h keepDays keepVisits left) (hopen : st.isArchived cal date = false) :
    st.live.on date = h.on date := by
  refine hk.on_eq (fun row hrow hdate => ?_) fun s hs hdate => ?_
  · by_contra hgone
    have harchived := (hk.goneDays row hrow (by rw [hdate]; simpa using hgone)).1
    rw [hdate, hopen] at harchived
    cases harchived
  · by_contra hgone
    have harchived := (hk.goneVisits s hs (by rw [hdate]; simpa using hgone)).1
    rw [hdate, hopen] at harchived
    cases harchived

/-- A school year is closed. -/
theorem Store.Keeps.rollover (hk : st.Keeps cal h keepDays keepVisits left) {y : ℕ}
    (hnew : ∀ z ∈ st.archivedYears, z < y)
    (hdays : ∀ row ∈ st.live.accountDays, row.dayKey < cal.yearStart (y + 1) → row.dayKey ≤ st.today)
    (hvisits : ∀ s ∈ st.live.sessions, s.dayKey < cal.yearStart (y + 1) → s.dayKey ≤ st.today) :
    Store.Keeps cal h { st with
      archivedYears := y :: st.archivedYears
      archives := (yearSummary cal st.live y).toList ++ st.archives } keepDays keepVisits left := by
  have hfresh : ∀ date, cal.inYear y date = true → st.isArchived cal date = false := by
    intro date hy
    by_contra harchived
    obtain ⟨z, hz, hzdate⟩ := Store.isArchived_iff.mp (by simpa using harchived)
    have hlt := hnew z hz
    rw [Calendar.inYear_unique hzdate hy] at hlt
    exact lt_irrefl _ hlt
  have hcutoff : st.cutoff cal ≤ activityCutoffDay cal (y :: st.archivedYears) st.today :=
    cutoff_mono (fun z hz => List.mem_cons_of_mem _ hz) (Nat.le_refl _)
  have hgrows : ∀ date, st.isArchived cal date = true →
      Store.isArchived cal { st with
        archivedYears := y :: st.archivedYears
        archives := (yearSummary cal st.live y).toList ++ st.archives } date = true := by
    intro date harchived
    obtain ⟨z, hz, hdate⟩ := Store.isArchived_iff.mp harchived
    exact Store.isArchived_iff.mpr ⟨z, List.mem_cons_of_mem _ hz, hdate⟩
  refine { hk with
    goneDays := fun row hrow hgone => ?_, goneVisits := fun s hs hgone => ?_, left_archived := fun z hz => ?_
    left_before := fun z hz hleft x hx => ?_, closed_days := fun z hz row hrow hdate => ?_
    closed_visits := fun z hz s hs hdate => ?_, lists := fun a ha => ?_, archivedDay := fun date => ?_ }
  · obtain ⟨harchived, hwhy⟩ := hk.goneDays row hrow hgone
    exact ⟨hgrows _ harchived, hwhy.imp_left fun hlt => lt_of_lt_of_le hlt hcutoff⟩
  · obtain ⟨harchived, hwhy⟩ := hk.goneVisits s hs hgone
    exact ⟨hgrows _ harchived, hwhy.imp_left fun hlt => lt_of_lt_of_le hlt hcutoff⟩
  · exact List.mem_cons_of_mem _ (hk.left_archived z hz)
  · rcases List.mem_cons.mp hz with rfl | hz
    · exact hnew x (hk.left_archived x hx)
    · exact hk.left_before z hz hleft x hx
  · rcases List.mem_cons.mp hz with rfl | hz
    · -- the year's rows are all live
      refine hdays row ?_ (Calendar.inYear_iff.mp hdate).2
      rw [hk.accountDays]
      refine List.mem_filter.mpr ⟨hrow, ?_⟩
      by_contra hgone
      have harchived := (hk.goneDays row hrow (by simpa using hgone)).1
      rw [hfresh _ hdate] at harchived
      cases harchived
    · exact hk.closed_days z hz row hrow hdate
  · rcases List.mem_cons.mp hz with rfl | hz
    · refine hvisits s ?_ (Calendar.inYear_iff.mp hdate).2
      rw [hk.sessions]
      refine List.mem_filter.mpr ⟨hs, ?_⟩
      by_contra hgone
      have harchived := (hk.goneVisits s hs (by simpa using hgone)).1
      rw [hfresh _ hdate] at harchived
      cases harchived
    · exact hk.closed_visits z hz s hs hdate
  · rcases List.mem_append.mp ha with ha | ha
    · exact lists_yearSummary cal _ y a ha
    · exact hk.lists a ha
  · simp only [Store.archivedDay, List.flatMap_append, List.find?_append, find?_yearSummary]
    have hold := hk.archivedDay date
    rw [Store.archivedDay] at hold
    rw [hold]
    by_cases hdate : cal.inYear y date = true
    · have hon := hk.on_eq_of_open (hfresh date hdate)
      have hactive : st.live.activeOn date = h.activeOn date := by rw [← activeOn_on, hon, activeOn_on]
      have hsignIns : signInsOn st.live.accountDays date = signInsOn h.accountDays date := by
        rw [← signInsOn_on, hon, signInsOn_on]
      have hseconds : secondsOn st.live.sessions date = secondsOn h.sessions date := by
        rw [← secondsOn_on, hon, secondsOn_on]
      have hin : Store.isArchived cal { st with
          archivedYears := y :: st.archivedYears
          archives := (yearSummary cal st.live y).toList ++ st.archives } date = true :=
        Store.isArchived_iff.mpr ⟨y, List.mem_cons_self, hdate⟩
      rw [hactive, hsignIns, hseconds, hin, hfresh date hdate]
      simp [hdate]
    · have hin : Store.isArchived cal { st with
          archivedYears := y :: st.archivedYears
          archives := (yearSummary cal st.live y).toList ++ st.archives } date = st.isArchived cal date := by
        simp [Store.isArchived, hdate]
      rw [hin]
      simp [hdate]

/-- The account is made anew: what it had in closed years is gone. -/
theorem Store.Keeps.madeAnew (hk : st.Keeps cal h keepDays keepVisits left) :
    Store.Keeps cal h { st with
      live := ⟨st.live.accountDays.filter fun row => !st.isArchived cal row.dayKey,
        st.live.sessions.filter fun s => !st.isArchived cal s.dayKey⟩
      logged := []
      createdAt := st.today } (fun d => keepDays d && !st.isArchived cal d) (fun d => keepVisits d && !st.isArchived cal d)
      st.archivedYears := by
  refine { hk with
    accountDays := filter_and hk.accountDays, sessions := filter_and hk.sessions
    goneDays := fun row hrow hgone => ?_, goneVisits := fun s hs hgone => ?_, left_archived := fun y hy => hy
    left_before := fun y hy hleft => absurd hy hleft, left_gone := fun y hy date hdate => ?_
    left_days := hk.closed_days, left_visits := hk.closed_visits, created := Nat.le_refl _, logged := nofun }
  · rcases Bool.and_eq_false_iff.mp hgone with hgone | harchived
    · obtain ⟨harchived, hwhy⟩ := hk.goneDays row hrow hgone
      exact ⟨harchived, hwhy.imp_right fun ⟨y, hy, hdate⟩ => ⟨y, hk.left_archived y hy, hdate⟩⟩
    · have harchived' : st.isArchived cal row.dayKey = true := by simpa using harchived
      exact ⟨harchived', .inr (Store.isArchived_iff.mp harchived')⟩
  · rcases Bool.and_eq_false_iff.mp hgone with hgone | harchived
    · obtain ⟨harchived, hwhy⟩ := hk.goneVisits s hs hgone
      exact ⟨harchived, hwhy.imp_right fun ⟨y, hy, hdate⟩ => ⟨y, hk.left_archived y hy, hdate⟩⟩
    · have harchived' : st.isArchived cal s.dayKey = true := by simpa using harchived
      exact ⟨harchived', .inr (Store.isArchived_iff.mp harchived')⟩
  · have harchived : st.isArchived cal date = true := Store.isArchived_iff.mpr ⟨y, hy, hdate⟩
    simp [harchived]

theorem Store.Keeps.deleteAccountDays (hk : st.Keeps cal h keepDays keepVisits left)
    (hguard : ∀ row ∈ st.live.accountDays, row.dayKey < st.cutoff cal → st.isArchived cal row.dayKey = true) :
    Store.Keeps cal h
      { st with live.accountDays := st.live.accountDays.filter fun row => !decide (row.dayKey < st.cutoff cal) }
      (fun d => keepDays d && !decide (d < st.cutoff cal)) keepVisits left := by
  refine { hk with
    accountDays := filter_and hk.accountDays, goneDays := fun row hrow hgone => ?_
    left_gone := fun y hy date hdate => ?_ }
  · rcases Bool.eq_false_or_eq_true (keepDays row.dayKey) with hkeep | hgone'
    · have hlt : row.dayKey < st.cutoff cal := by simpa [hkeep] using hgone
      exact ⟨hguard row (by rw [hk.accountDays]; exact List.mem_filter.mpr ⟨hrow, hkeep⟩) hlt, .inl hlt⟩
    · exact hk.goneDays row hrow hgone'
  · obtain ⟨hdays, hvisits⟩ := hk.left_gone y hy date hdate
    exact ⟨by simp [hdays], hvisits⟩

theorem Store.Keeps.unnameUsageSessions (hk : st.Keeps cal h keepDays keepVisits left)
    (hguard : ∀ s ∈ st.live.sessions, s.dayKey < st.cutoff cal → st.isArchived cal s.dayKey = true) :
    Store.Keeps cal h
      { st with live.sessions := st.live.sessions.filter fun s => !decide (s.dayKey < st.cutoff cal) }
      keepDays (fun d => keepVisits d && !decide (d < st.cutoff cal)) left := by
  refine { hk with
    sessions := filter_and hk.sessions, goneVisits := fun s hs hgone => ?_, left_gone := fun y hy date hdate => ?_ }
  · rcases Bool.eq_false_or_eq_true (keepVisits s.dayKey) with hkeep | hgone'
    · have hlt : s.dayKey < st.cutoff cal := by simpa [hkeep] using hgone
      exact ⟨hguard s (by rw [hk.sessions]; exact List.mem_filter.mpr ⟨hs, hkeep⟩) hlt, .inl hlt⟩
    · exact hk.goneVisits s hs hgone'
  · obtain ⟨hdays, hvisits⟩ := hk.left_gone y hy date hdate
    exact ⟨hdays, by simp [hvisits]⟩

/-- **Every move keeps the invariant.** -/
theorem Store.Keeps.step (hk : st.Keeps cal h keepDays keepVisits left) {m : Move} (hstep : st.step cal m = some st') :
    ∃ keepDays' keepVisits' left', st'.Keeps cal h keepDays' keepVisits' left' := by
  cases m with
  | rollover y retained =>
      simp only [Store.step, Option.ite_none_right_eq_some, Bool.and_eq_true, List.all_eq_true, decide_eq_true_eq] at hstep
      obtain ⟨⟨⟨hnew, hdays⟩, hvisits⟩, hstep⟩ := hstep
      have hrolled := hk.rollover hnew hdays hvisits
      split at hstep
      · obtain rfl := Option.some.inj hstep
        exact ⟨_, _, _, hrolled⟩
      · split at hstep
        · obtain rfl := Option.some.inj hstep
          exact ⟨_, _, _, hrolled.madeAnew⟩
        · cases hstep
  | deleteRequestLogs cutoff =>
      obtain rfl := Option.some.inj hstep
      exact ⟨_, _, _, { hk with logged := fun day hday => hk.logged day (List.mem_filter.mp hday).1 }⟩
  | deleteAccountDays =>
      simp only [Store.step, Option.ite_none_right_eq_some, List.all_eq_true, decide_eq_true_eq, Option.some.injEq] at hstep
      obtain ⟨hguard, rfl⟩ := hstep
      exact ⟨_, _, _, hk.deleteAccountDays hguard⟩
  | unnameUsageSessions =>
      simp only [Store.step, Option.ite_none_right_eq_some, List.all_eq_true, decide_eq_true_eq, Option.some.injEq] at hstep
      obtain ⟨hguard, rfl⟩ := hstep
      exact ⟨_, _, _, hk.unnameUsageSessions hguard⟩
  | logSignIn =>
      obtain rfl := Option.some.inj hstep
      refine ⟨_, _, _, { hk with logged := fun day hday => ?_ }⟩
      rcases List.mem_cons.mp hday with rfl | hday
      · exact hk.created
      · exact hk.logged day hday
  | nextDay =>
      obtain rfl := Option.some.inj hstep
      have hcutoff : st.cutoff cal ≤ activityCutoffDay cal st.archivedYears (st.today + 1) :=
        cutoff_mono (fun _ hy => hy) (Nat.le_succ _)
      exact ⟨_, _, _, { hk with
        goneDays := fun row hrow hgone => (hk.goneDays row hrow hgone).imp_right fun hwhy =>
          hwhy.imp_left fun hlt => lt_of_lt_of_le hlt hcutoff
        goneVisits := fun s hs hgone => (hk.goneVisits s hs hgone).imp_right fun hwhy =>
          hwhy.imp_left fun hlt => lt_of_lt_of_le hlt hcutoff
        created := Nat.le_succ_of_le hk.created
        closed_days := fun y hy row hrow hdate => Nat.le_succ_of_le (hk.closed_days y hy row hrow hdate)
        closed_visits := fun y hy s hs hdate => Nat.le_succ_of_le (hk.closed_visits y hy s hs hdate) }⟩

theorem keeps_run {moves : List Move} {today : ℕ} (hrun : run (Store.step cal) (.complete h today) moves = some st) :
    ∃ keepDays keepVisits left, st.Keeps cal h keepDays keepVisits left :=
  run_invariant (P := fun st : Store => ∃ keepDays keepVisits left, st.Keeps cal h keepDays keepVisits left)
    (fun _ _ _ ⟨_, _, _, hk⟩ hstep => hk.step hstep) ⟨_, _, _, keeps_complete cal h today⟩ hrun

/-! ### A day, live and archived -/

theorem Store.Keeps.accountDays_on (hk : st.Keeps cal h keepDays keepVisits left) (date : ℕ) :
    st.live.accountDays.filter (·.dayKey = date) =
      if keepDays date = true then h.accountDays.filter (·.dayKey = date) else [] := by
  rw [hk.accountDays]
  split
  · rename_i hkeep
    exact filter_on fun row _ hrow => by rw [hrow]; exact hkeep
  · rename_i hkeep
    rw [List.filter_filter]
    refine List.filter_eq_nil_iff.mpr fun row _ hrow => hkeep ?_
    simp only [Bool.and_eq_true, decide_eq_true_eq] at hrow
    rw [← hrow.1]
    exact hrow.2

theorem Store.Keeps.sessions_on (hk : st.Keeps cal h keepDays keepVisits left) (date : ℕ) :
    st.live.sessions.filter (·.dayKey = date) =
      if keepVisits date = true then h.sessions.filter (·.dayKey = date) else [] := by
  rw [hk.sessions]
  split
  · rename_i hkeep
    exact filter_on fun s _ hs => by rw [hs]; exact hkeep
  · rename_i hkeep
    rw [List.filter_filter]
    refine List.filter_eq_nil_iff.mpr fun s _ hs => hkeep ?_
    simp only [Bool.and_eq_true, decide_eq_true_eq] at hs
    rw [← hs.1]
    exact hs.2

/-- No day has more left live than it had. -/
theorem Store.Keeps.live_le (hk : st.Keeps cal h keepDays keepVisits left) (date : ℕ) :
    signInsOn st.live.accountDays date ≤ signInsOn h.accountDays date ∧
      secondsOn st.live.sessions date ≤ secondsOn h.sessions date := by
  rw [signInsOn_eq_sum, signInsOn_eq_sum, hk.accountDays_on, secondsOn, secondsOn, hk.sessions_on]
  constructor <;> split <;> simp

theorem Store.Keeps.live_inactive (hk : st.Keeps cal h keepDays keepVisits left) (hactive : h.activeOn date = false) :
    st.live.activeOn date = false := by
  obtain ⟨hany, hseconds⟩ := Bool.or_eq_false_iff.mp hactive
  refine Bool.or_eq_false_iff.mpr ⟨?_, ?_⟩
  · rw [hk.accountDays]
    refine List.any_eq_false.mpr fun row hrow => ?_
    exact List.any_eq_false.mp hany row (List.mem_filter.mp hrow).1
  · have hle := (hk.live_le date).2
    simp only [decide_eq_false_iff_not] at hseconds ⊢
    omega

/-- A day that is not archived, or not active, is taken as it is. -/
theorem Store.Keeps.taken_eq (hk : st.Keeps cal h keepDays keepVisits left) (date : ℕ) :
    st.taken cal date = if date < st.cutoff cal ∧ st.isArchived cal date = true ∧ h.activeOn date = true then
      some ⟨date, signInsOn h.accountDays date, secondsOn h.sessions date⟩ else none := by
  unfold Store.taken
  rw [hk.archivedDay]
  by_cases hcutoff : date < st.cutoff cal <;> simp [hcutoff]

theorem settled_of_none (hnone : st.archivedDay date = none) : st.settled cal date = true := by
  simp [Store.settled, hnone]

/-- A day that counts nothing twice, being all live, or nothing at all. -/
theorem Store.Keeps.same_of_live (hk : st.Keeps cal h keepDays keepVisits left) (hon : st.live.on date = h.on date)
    (hcutoff : h.activeOn date = true → st.isArchived cal date = true → st.cutoff cal ≤ date) :
    dayFigures st.live st.logged (st.taken cal date) date = dayFigures h st.logged none date ∧
      st.settled cal date = true := by
  have htaken : st.taken cal date = none := by
    rw [hk.taken_eq, if_neg]
    rintro ⟨hlt, harchived, hactive⟩
    exact absurd (hcutoff hactive harchived) (by omega)
  rw [htaken]
  refine ⟨dayFigures_congr hon none, ?_⟩
  by_cases hboth : st.isArchived cal date = true ∧ h.activeOn date = true
  · have hday := (hk.archivedDay date).trans (if_pos hboth)
    have hle := hcutoff hboth.2 hboth.1
    have hactive : st.live.activeOn date = true := by rw [← activeOn_on, hon, activeOn_on]; exact hboth.2
    have hsignIns : signInsOn st.live.accountDays date = signInsOn h.accountDays date := by
      rw [← signInsOn_on, hon, signInsOn_on]
    have hseconds : secondsOn st.live.sessions date = secondsOn h.sessions date := by
      rw [← secondsOn_on, hon, secondsOn_on]
    rw [Store.settled, hday, Option.all_some, if_neg (by omega), Store.stillLive, hsignIns, hseconds]
    simp only [Rows.activeOn, hseconds] at hactive
    simp [hactive]
  · exact settled_of_none ((hk.archivedDay date).trans (if_neg hboth))

theorem Store.Keeps.same_of_inactive (hk : st.Keeps cal h keepDays keepVisits left) (hactive : h.activeOn date = false) :
    dayFigures st.live st.logged (st.taken cal date) date = dayFigures h st.logged none date ∧
      st.settled cal date = true := by
  have htaken : st.taken cal date = none := by rw [hk.taken_eq, if_neg]; simp [hactive]
  have hlive := hk.live_inactive hactive
  obtain ⟨hsignIns, hseconds⟩ := not_activeOn hactive
  obtain ⟨hsignIns', hseconds'⟩ := not_activeOn hlive
  rw [htaken]
  refine ⟨?_, settled_of_none ((hk.archivedDay date).trans (if_neg (by simp [hactive])))⟩
  simp only [dayFigures, hactive, hlive, hsignIns, hseconds, hsignIns', hseconds']

/-- **What a day can be**: archived and before the cutoff, the same as ever, or lost from the cutoff on. -/
theorem Store.Keeps.day_cases (hk : st.Keeps cal h keepDays keepVisits left) (date : ℕ) :
    (date < st.cutoff cal ∧ h.activeOn date = true ∧ st.isArchived cal date = true) ∨
      (dayFigures st.live st.logged (st.taken cal date) date = dayFigures h st.logged none date ∧
        st.settled cal date = true) ∨
      (st.cutoff cal ≤ date ∧ h.activeOn date = true ∧ st.isArchived cal date = true ∧
        ∃ y ∈ left, cal.inYear y date = true) := by
  cases hactive : h.activeOn date with
  | false => exact .inr (.inl (hk.same_of_inactive hactive))
  | true =>
      cases harchived : st.isArchived cal date with
      | false =>
          refine .inr (.inl (hk.same_of_live (hk.on_eq_of_open harchived) fun _ h => ?_))
          rw [harchived] at h
          cases h
      | true =>
          rcases Nat.lt_or_ge date (st.cutoff cal) with hlt | hle
          · exact .inl ⟨hlt, rfl, rfl⟩
          · by_cases hleft : ∃ y ∈ left, cal.inYear y date = true
            · exact .inr (.inr ⟨hle, rfl, rfl, hleft⟩)
            · -- from the cutoff on only an account made anew has lost a day
              refine .inr (.inl (hk.same_of_live (hk.on_eq (fun row hrow hdate => ?_) fun s hs hdate => ?_) fun _ _ => hle))
              · by_contra hgone
                rcases (hk.goneDays row hrow (by rw [hdate]; simpa using hgone)).2 with hlt | hin
                · rw [hdate] at hlt
                  omega
                · rw [hdate] at hin
                  exact hleft hin
              · by_contra hgone
                rcases (hk.goneVisits s hs (by rw [hdate]; simpa using hgone)).2 with hlt | hin
                · rw [hdate] at hlt
                  omega
                · rw [hdate] at hin
                  exact hleft hin

/-- Before the cutoff an archived day adds what it had, and what is still live or logged of it once more. -/
theorem Store.Keeps.archived_before (hk : st.Keeps cal h keepDays keepVisits left) (hlt : date < st.cutoff cal)
    (hactive : h.activeOn date = true) (harchived : st.isArchived cal date = true) :
    (dayFigures h st.logged none date).Le (dayFigures st.live st.logged (st.taken cal date) date) ∧
      (dayFigures h st.logged none date = dayFigures st.live st.logged (st.taken cal date) date ↔
        st.settled cal date = true) := by
  have hday := (hk.archivedDay date).trans (if_pos ⟨harchived, hactive⟩)
  have htaken := (hk.taken_eq date).trans (if_pos ⟨hlt, harchived, hactive⟩)
  have hle := (hk.live_le date).1
  rw [htaken, Store.settled, hday, Option.all_some, if_pos hlt, Store.countedOnce]
  simp only [dayFigures, DayFigures.Le, hactive, Option.map_some, Option.map_none, Option.getD_some, Option.getD_none,
    Option.isSome_some, Option.isSome_none, Bool.or_true, Bool.true_or, Prod.mk.injEq, true_and, Nat.add_zero,
    Bool.and_eq_true, Bool.or_eq_true, decide_eq_true_eq, implies_true]
  omega

/-- From the cutoff on a day of an account made anew adds nothing but what is logged of it. -/
theorem Store.Keeps.archived_after (hk : st.Keeps cal h keepDays keepVisits left) (hle : st.cutoff cal ≤ date)
    (hactive : h.activeOn date = true) (harchived : st.isArchived cal date = true) {y : ℕ} (hy : y ∈ left)
    (hdate : cal.inYear y date = true) :
    (dayFigures st.live st.logged (st.taken cal date) date).Le (dayFigures h st.logged none date) ∧
      (dayFigures st.live st.logged (st.taken cal date) date = dayFigures h st.logged none date ↔
        st.settled cal date = true) := by
  have hday := (hk.archivedDay date).trans (if_pos ⟨harchived, hactive⟩)
  have htaken : st.taken cal date = none := (hk.taken_eq date).trans (if_neg fun h => by omega)
  obtain ⟨hdays, hvisits⟩ := hk.left_gone y hy date hdate
  have hrows : st.live.accountDays.filter (·.dayKey = date) = [] := by rw [hk.accountDays_on, hdays]; rfl
  have hsignIns : signInsOn st.live.accountDays date = 0 := by rw [signInsOn_eq_sum, hrows]; rfl
  have hseconds : secondsOn st.live.sessions date = 0 := by rw [secondsOn, hk.sessions_on, hvisits]; rfl
  have hany : (st.live.accountDays.any fun row => row.dayKey = date) = false := by
    simpa [List.filter_eq_nil_iff] using hrows
  have hlogged : st.logged.count date = 0 ↔ date ∉ st.logged := List.count_eq_zero
  rw [htaken, Store.settled, hday, Option.all_some, if_neg (by omega), Store.stillLive]
  simp only [dayFigures, DayFigures.Le, Rows.activeOn, hsignIns, hseconds, hany] at hactive ⊢
  by_cases hin : date ∈ st.logged
  · simp [hin, hactive]
    omega
  · simp [hin, hactive]

/-- An active day of a year closed before the account was made anew is not after that. -/
theorem Store.Keeps.le_createdAt (hk : st.Keeps cal h keepDays keepVisits left) (hactive : h.activeOn date = true) {y : ℕ}
    (hy : y ∈ left) (hdate : cal.inYear y date = true) : date ≤ st.createdAt := by
  rcases Bool.or_eq_true_iff.mp hactive with hrow | hvisit
  · obtain ⟨row, hrow, hon⟩ := List.any_eq_true.mp hrow
    have hon' : row.dayKey = date := by simpa using hon
    have hle := hk.left_days y hy row hrow (by rw [hon']; exact hdate)
    omega
  · rw [← exists_session_iff] at hvisit
    obtain ⟨s, hs, -⟩ := List.any_eq_true.mp hvisit
    obtain ⟨hs, hon⟩ := List.mem_filter.mp hs
    have hon' : s.dayKey = date := by simpa using hon
    have hle := hk.left_visits y hy s hs (by rw [hon']; exact hdate)
    omega

/-- Beside a day that is lost from the cutoff on, an archived day before it counts once. -/
theorem Store.Keeps.settled_before (hk : st.Keeps cal h keepDays keepVisits left) (hlt : date < st.cutoff cal)
    (hactive : h.activeOn date = true) (harchived : st.isArchived cal date = true) {lost z : ℕ}
    (hlost : st.cutoff cal ≤ lost) (hlostActive : h.activeOn lost = true) (hz : z ∈ left)
    (hlostYear : cal.inYear z lost = true) : st.settled cal date = true := by
  obtain ⟨y, hy, hdate⟩ := Store.isArchived_iff.mp harchived
  have hyleft : y ∈ left := by
    by_contra hyleft
    have hafter := Calendar.inYear_lt (hk.left_before y hy hyleft z hz) hlostYear hdate
    omega
  obtain ⟨hdays, hvisits⟩ := hk.left_gone y hyleft date hdate
  have hsignIns : signInsOn st.live.accountDays date = 0 := by rw [signInsOn_eq_sum, hk.accountDays_on, hdays]; rfl
  have hseconds : secondsOn st.live.sessions date = 0 := by rw [secondsOn, hk.sessions_on, hvisits]; rfl
  have hlogged : st.logged.count date = 0 := by
    refine List.count_eq_zero.mpr fun hmem => ?_
    have h₁ := hk.logged date hmem
    have h₂ := hk.le_createdAt hlostActive hz hlostYear
    omega
  have hday := (hk.archivedDay date).trans (if_pos ⟨harchived, hactive⟩)
  rw [Store.settled, hday, Option.all_some, if_pos hlt, Store.countedOnce, hsignIns, hseconds, hlogged]
  simp

/-- **A recap's figures are those of the complete history iff every day of the period is settled**: what the archive has
of it is not there live as well before the cutoff, and still is from the cutoff on. -/
theorem recap_figures_iff (cal : Calendar) (h : Rows) {today : ℕ} {moves : List Move}
    (hrun : run (Store.step cal) (.complete h today) moves = some st) (periodFrom periodTo : ℕ) :
    (recapPokyhFigures cal st periodFrom periodTo).map figures = (completeFigures h st periodFrom periodTo).map figures ↔
      ∀ fromDay toDay, coveredPeriod periodFrom periodTo st.today = some (fromDay, toDay) →
        ∀ date ∈ daysBetween fromDay toDay, st.settled cal date = true := by
  obtain ⟨keepDays, keepVisits, left, hk⟩ := keeps_run hrun
  rw [figures_recap cal hk.lists, figures_complete]
  cases hcovered : coveredPeriod periodFrom periodTo st.today with
  | none => simp
  | some covered =>
      obtain ⟨fromDay, toDay⟩ := covered
      have hperiod : (∀ f t, some (fromDay, toDay) = some (f, t) → ∀ date ∈ daysBetween f t, st.settled cal date = true) ↔
          ∀ date ∈ daysBetween fromDay toDay, st.settled cal date = true :=
        ⟨fun h => h _ _ rfl, fun h f t heq => by cases heq; exact h⟩
      rw [hperiod, Option.map_some, Option.map_some, Option.some.injEq]
      by_cases hearly : ∃ lost, st.cutoff cal ≤ lost ∧ h.activeOn lost = true ∧ ∃ z ∈ left, cal.inYear z lost = true
      · -- an account made anew in a year that is closed already: days are missing, none counts twice
        obtain ⟨lost, hlost, hlostActive, z, hz, hlostYear⟩ := hearly
        have hday : ∀ date,
            (dayFigures st.live st.logged (st.taken cal date) date).Le (dayFigures h st.logged none date) ∧
              (dayFigures st.live st.logged (st.taken cal date) date = dayFigures h st.logged none date ↔
                st.settled cal date = true) := by
          intro date
          rcases hk.day_cases date with ⟨hlt, hactive, harchived⟩ | ⟨heq, hsettled⟩ | ⟨hle, hactive, harchived, y, hy, hdate⟩
          · have hsettled := hk.settled_before hlt hactive harchived hlost hlostActive hz hlostYear
            have heq := ((hk.archived_before hlt hactive harchived).2.mpr hsettled).symm
            exact ⟨DayFigures.le_of_eq heq, iff_of_true heq hsettled⟩
          · exact ⟨DayFigures.le_of_eq heq, iff_of_true heq hsettled⟩
          · exact hk.archived_after hle hactive harchived hy hdate
        rw [figuresOf_eq_iff fun date _ => (hday date).1]
        exact forall₂_congr fun date _ => (hday date).2
      · -- no day is missing
        have hday : ∀ date,
            (dayFigures h st.logged none date).Le (dayFigures st.live st.logged (st.taken cal date) date) ∧
              (dayFigures h st.logged none date = dayFigures st.live st.logged (st.taken cal date) date ↔
                st.settled cal date = true) := by
          intro date
          rcases hk.day_cases date with ⟨hlt, hactive, harchived⟩ | ⟨heq, hsettled⟩ | ⟨hle, hactive, -, y, hy, hdate⟩
          · exact hk.archived_before hlt hactive harchived
          · exact ⟨DayFigures.le_of_eq heq.symm, iff_of_true heq.symm hsettled⟩
          · exact absurd ⟨date, hle, hactive, y, hy, hdate⟩ hearly
        rw [eq_comm, figuresOf_eq_iff fun date _ => (hday date).1]
        exact forall₂_congr fun date _ => (hday date).2

/-- Years of 365 days. -/
def plainYears : Calendar where
  yearStart := fun y => 365 * y
  zero := rfl
  mono := fun a b hab => Nat.mul_lt_mul_of_pos_left hab (by decide)
  short := fun y => by rw [Nat.mul_succ]; omega

/-- An admin has signed in once, and used the app for ten minutes, on a day of the first year. -/
def adminHistory : Rows := ⟨[⟨300, "desktop", "browser", 1⟩], [⟨"visit", 300, 600, 3⟩]⟩

/-- The first year is closed on the first day of the second. -/
def closedInTime : List Move := [.rollover 0 true]

theorem recap_figures_iff_admin :
    ∃ st, run (Store.step plainYears) (.complete adminHistory 365)
        (closedInTime ++ [.deleteAccountDays, .unnameUsageSessions]) = some st ∧
      ((recapPokyhFigures plainYears st 300 300).map figures = (completeFigures adminHistory st 300 300).map figures ↔
        ∀ fromDay toDay, coveredPeriod 300 300 st.today = some (fromDay, toDay) →
          ∀ date ∈ daysBetween fromDay toDay, st.settled plainYears date = true) ∧
      (recapPokyhFigures plainYears st 300 300).map figures = some (1, 1, 600, 1) := by
  have hdecided : (run (Store.step plainYears) (.complete adminHistory 365)
      (closedInTime ++ [.deleteAccountDays, .unnameUsageSessions])).any fun st =>
        (recapPokyhFigures plainYears st 300 300).map figures = some (1, 1, 600, 1) := by decide +kernel
  obtain ⟨st, hrun, hfigures⟩ := (Option.any_eq_true _ _).mp hdecided
  exact ⟨st, hrun, recap_figures_iff plainYears adminHistory hrun 300 300, by simpa using hfigures⟩

/-- Between the rollover and the clean-up its sign-in and its ten minutes count twice. -/
theorem recap_counts_twice :
    ∃ st, run (Store.step plainYears) (.complete adminHistory 365) closedInTime = some st ∧
      (recapPokyhFigures plainYears st 300 300).map figures = some (1, 2, 1200, 1) ∧
      (completeFigures adminHistory st 300 300).map figures = some (1, 1, 600, 1) := by
  have hdecided : (run (Store.step plainYears) (.complete adminHistory 365) closedInTime).any fun st =>
      (recapPokyhFigures plainYears st 300 300).map figures = some (1, 2, 1200, 1) ∧
        (completeFigures adminHistory st 300 300).map figures = some (1, 1, 600, 1) := by decide +kernel
  obtain ⟨st, hrun, hfigures⟩ := (Option.any_eq_true _ _).mp hdecided
  exact ⟨st, hrun, by simpa using hfigures⟩

end Pokyh.Account.Recaps

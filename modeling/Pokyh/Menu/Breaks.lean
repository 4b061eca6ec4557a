import Pokyh.Lib.Json
import Pokyh.Lib.Stretches
import Pokyh.Menu.SchoolCalendar
import Pokyh.Menu.Source

/-!
# Menu — Breaks

The days a menu's canteen is closed (`dayOverridesFrom`, `menuDayOff`) and the breaks they make up
(`menuBreaks`, `utils/mensaSchedule.ts`).  The bounds of holidays and corrections are written dates, `YYYYMMDD`.
-/

namespace Pokyh.Menu
open Pokyh.Lib

inductive MenuCalendar where
  | suedtirol | webuntis
  deriving DecidableEq

/-- Why a menu has nothing that day. -/
inductive DayOff where
  | official (reason : DayOffReason)
  /-- A day off only the school's WebUntis knows about. -/
  | school
  /-- The menu's own correction. -/
  | closed
  deriving DecidableEq

structure HolidayRange where
  start : ℤ
  last : ℤ
  deriving DecidableEq

/-- A menu's own correction: closed although it is school, or open although it is not. -/
structure DayOverride extends HolidayRange where
  isOpen : Bool
  deriving DecidableEq

def HolidayRange.has (h : HolidayRange) (day : ℤ) : Bool := h.start ≤ stampOf day && stampOf day ≤ h.last

def MAX_OVERRIDES : ℕ := 60

/-- A text `YYYY-MM-DD`, as far as `Date.parse` looks: any month has 31 days. -/
def isDay : Option Json → Option ℤ
  | some (.string [y₁, y₂, y₃, y₄, 45, m₁, m₂, 45, d₁, d₂]) => do
    let year ← digitsOf [y₁, y₂, y₃, y₄]
    let month ← digitsOf [m₁, m₂]
    let day ← digitsOf [d₁, d₂]
    if 1 ≤ month ∧ month ≤ 12 ∧ 1 ≤ day ∧ day ≤ 31 then some (year * 10000 + month * 100 + day) else none
  | _ => none

def overrideOf (o : Json) : Option DayOverride := do
  let start ← isDay (o.get "start")
  let last ← isDay (o.get "end")
  match o.get "open" with
  | some (.bool isOpen) => if start ≤ last then some ⟨⟨start, last⟩, isOpen⟩ else none
  | _ => none

/-- The stored corrections, whatever is not one left out. -/
def dayOverridesFrom (parse : String → Option Json) (json : Option String) : List DayOverride :=
  match parse (json.getD "[]") with
  | some (.array list) => (list.filterMap overrideOf).take MAX_OVERRIDES
  | _ => []

/-- No Mensa that day: a break or a holiday, not an ordinary weekend. -/
def isClosed : Option DayOff → Bool
  | none => false
  | some reason => reason ≠ .official .weekend

/-- The days off of a menu: its own corrections, the official calendar when it is the chosen one, and the days all schools
with holidays on record are off. -/
def menuDayOff (calendar : MenuCalendar) (schools : List (List HolidayRange)) (overrides : List DayOverride) (day : ℤ) :
    Option DayOff :=
  let known := schools.filter (!·.isEmpty)
  match overrides.find? (·.has day) with
  | some override => if override.isOpen then none else some .closed
  | none =>
    let official := if calendar = .suedtirol then (suedtirolDayOff day).map .official else none
    if isClosed official then official
    else if !known.isEmpty && known.all (·.any (·.has day)) then some .school
    else if official.isSome then official
    else if dow day = 0 ∨ dow day = 6 then some (.official .weekend)
    else none

def DayOff.weight : DayOff → ℕ
  | .official .weekend => 0
  | .official .bridge => 1
  | .school | .closed => 2
  | .official .holiday => 3
  | .official .allSaints | .official .winter | .official .easter => 4
  | .official .christmas => 5
  | .official .summer => 6

/-- However long a break runs on past the edge of the range asked for. -/
def MAX_BREAK_DAYS : ℤ := 130

/-- Days off one after the other. -/
structure Run where
  start : ℤ
  last : ℤ
  reason : DayOff
  deriving DecidableEq

structure MenuBreak extends Run where
  notWeekend : reason ≠ .official .weekend
  deriving DecidableEq

/-- The break a run is, if it is more than a weekend. -/
def Run.toBreak (run : Run) : Option MenuBreak := if h : run.reason ≠ .official .weekend then some ⟨run, h⟩ else none

/-- The run goes on for another day, or starts with it. -/
def Run.goOn (run : Option Run) (day : ℤ) (reason : DayOff) : Run :=
  let run := run.getD ⟨day, day, reason⟩
  { run with last := day, reason := if run.reason.weight < reason.weight then reason else run.reason }

def scanDay (dayOffOf : ℤ → Option DayOff) (s : List MenuBreak × Option Run) (day : ℤ) : List MenuBreak × Option Run :=
  match dayOffOf day with
  | none => (s.1 ++ (s.2.bind Run.toBreak).toList, none)
  | some reason => (s.1, some (Run.goOn s.2 day reason))

def scan (dayOffOf : ℤ → Option DayOff) (first : ℤ) (n : ℕ) : List MenuBreak × Option Run :=
  ((List.range n).map fun i : ℕ => first + i).foldl (scanDay dayOffOf) ([], none)

/-- The breaks that touch the days from `first` to `last`. -/
def menuBreaks (dayOffOf : ℤ → Option DayOff) (first last : ℤ) : List MenuBreak :=
  (scan dayOffOf (first - MAX_BREAK_DAYS) (last + MAX_BREAK_DAYS + 1 - (first - MAX_BREAK_DAYS)).toNat).1.filter
    fun b => first ≤ b.last ∧ b.start ≤ last

variable {dayOffOf : ℤ → Option DayOff} {first last a b day : ℤ} {run : Run}

/-- A day off of the menu. -/
def IsOff (dayOffOf : ℤ → Option DayOff) (day : ℤ) : Prop := (dayOffOf day).isSome = true

/-- The reason stands for the days from `start` to `last`: it is one of theirs, and none weighs more. -/
structure Run.Heaviest (dayOffOf : ℤ → Option DayOff) (run : Run) : Prop where
  found : ∃ day, run.start ≤ day ∧ day ≤ run.last ∧ dayOffOf day = some run.reason
  most : ∀ day reason, run.start ≤ day → day ≤ run.last → dayOffOf day = some reason → reason.weight ≤ run.reason.weight

/-- Some stretch of days off around the day touches the days from `first` to `last`. -/
def Touching (dayOffOf : ℤ → Option DayOff) (first last day : ℤ) : Prop :=
  ∃ s e, Stretch (IsOff dayOffOf) s e ∧ s ≤ day ∧ day ≤ e ∧ s ≤ last ∧ first ≤ e

/-- The breaks are the whole ones that touch the days from `first` to `last`, each with its reason, and all of them. -/
structure FoundWhole (dayOffOf : ℤ → Option DayOff) (first last : ℤ) (breaks : List MenuBreak) : Prop where
  inOrder : breaks.Pairwise fun b b' => b.last < b'.start
  whole : ∀ b ∈ breaks, WholeStretch (IsOff dayOffOf) b.start b.last ∧ b.toRun.Heaviest dayOffOf ∧ first ≤ b.last ∧ b.start ≤ last
  complete : ∀ day, isClosed (dayOffOf day) = true → Touching dayOffOf first last day → ∃ b ∈ breaks, b.start ≤ day ∧ day ≤ b.last

/-- No stretch of days off with more than weekends in it that touches the days from `first` to `last` begins more than
`MAX_BREAK_DAYS` before them, or goes on for as long after them. -/
def ScanReaches (dayOffOf : ℤ → Option DayOff) (first last : ℤ) : Prop :=
  ∀ s e, Stretch (IsOff dayOffOf) s e → (∃ day, s ≤ day ∧ day ≤ e ∧ isClosed (dayOffOf day) = true) → s ≤ last → first ≤ e →
    first - MAX_BREAK_DAYS ≤ s ∧ e < last + MAX_BREAK_DAYS

/-- A run of the scan that started on day `a`. -/
structure Run.Scanned (dayOffOf : ℤ → Option DayOff) (a : ℤ) (run : Run) : Prop where
  start_le : a ≤ run.start
  nonempty : run.start ≤ run.last
  inside : Stretch (IsOff dayOffOf) run.start run.last
  before : run.start = a ∨ ¬ IsOff dayOffOf (run.start - 1)
  heaviest : run.Heaviest dayOffOf

/-- What the scan knows before day `b`. -/
structure ScannedTo (dayOffOf : ℤ → Option DayOff) (a b : ℤ) (s : List MenuBreak × Option Run) : Prop where
  inOrder : s.1.Pairwise fun b b' => b.last < b'.start
  breaks : ∀ k ∈ s.1, k.toRun.Scanned dayOffOf a ∧ k.last + 1 < b ∧ ¬ IsOff dayOffOf (k.last + 1)
  run : ∀ run ∈ s.2, run.Scanned dayOffOf a ∧ run.last + 1 = b
  apart : ∀ k ∈ s.1, ∀ run ∈ s.2, k.last < run.start
  noRun : s.2 = none → a = b ∨ ¬ IsOff dayOffOf (b - 1)
  complete : ∀ day, a ≤ day → day < b → isClosed (dayOffOf day) = true →
    (∃ k ∈ s.1, k.start ≤ day ∧ day ≤ k.last) ∨ ∃ run ∈ s.2, run.start ≤ day

theorem scannedTo_start : ScannedTo dayOffOf a a ([], none) where
  inOrder := .nil
  breaks := by simp
  run := by simp
  apart := by simp
  noRun := by simp
  complete := fun day ha hb => by omega

/-- The run goes on, or starts, with one more day off. -/
theorem Run.scanned_goOn {o : Option Run} {reason : DayOff} (hrun : ∀ run ∈ o, run.Scanned dayOffOf a ∧ run.last + 1 = b)
    (hnone : o = none → a = b ∨ ¬ IsOff dayOffOf (b - 1)) (hab : a ≤ b) (hoff : dayOffOf b = some reason) :
    (Run.goOn o b reason).Scanned dayOffOf a := by
  cases o with
  | none =>
    refine ⟨hab, le_rfl, Stretch.single (by simp [Run.goOn, IsOff, hoff]), (hnone rfl).imp Eq.symm id, ⟨b, le_rfl, le_rfl, ?_⟩, ?_⟩
    · simpa [Run.goOn] using hoff
    · intro day reason' hs he hday
      have heq : day = b := le_antisymm he hs
      rw [heq, hoff, Option.some.injEq] at hday
      simp [Run.goOn, hday]
  | some run =>
    obtain ⟨hs, hlast⟩ := hrun run rfl
    refine ⟨hs.start_le, ?_, ?_, hs.before, ?_, ?_⟩
    · have := hs.nonempty
      simp only [Run.goOn, Option.getD_some]
      omega
    · have hgoes : Stretch (IsOff dayOffOf) run.start (run.last + 1) := hs.inside.extend (by simp [IsOff, hlast, hoff])
      rwa [hlast] at hgoes
    · simp only [Run.goOn, Option.getD_some]
      split
      · exact ⟨b, by have := hs.nonempty; omega, le_rfl, hoff⟩
      · obtain ⟨day, hstart, hend, hday⟩ := hs.heaviest.found
        exact ⟨day, hstart, by omega, hday⟩
    · intro day reason' hstart hend hday
      simp only [Run.goOn, Option.getD_some] at hstart hend ⊢
      by_cases heq : day = b
      · rw [heq, hoff, Option.some.injEq] at hday
        subst hday
        split <;> omega
      · have := hs.heaviest.most day reason' hstart (by omega) hday
        split <;> omega

theorem Run.toBreak_eq_some {k : MenuBreak} (h : run.toBreak = some k) : k.toRun = run := by
  simp only [Run.toBreak] at h
  split at h <;> simp at h
  rw [← h]

/-- A day other than a weekend gives its run a reason other than a weekend. -/
theorem Run.Scanned.toBreak_isSome (h : run.Scanned dayOffOf a) (hstart : run.start ≤ day) (hlast : day ≤ run.last)
    (hclosed : isClosed (dayOffOf day) = true) : ∃ k, run.toBreak = some k := by
  have hne : run.reason ≠ .official .weekend := by
    intro hweekend
    cases hoff : dayOffOf day with
    | none => simp [hoff, isClosed] at hclosed
    | some reason =>
      have hle := h.heaviest.most day reason hstart hlast hoff
      rw [hweekend] at hle
      rw [hoff] at hclosed
      revert hle hclosed
      cases reason with
      | official reason => cases reason <;> simp [DayOff.weight, isClosed]
      | school | closed => simp [DayOff.weight]
  exact ⟨⟨run, hne⟩, by simp [Run.toBreak, hne]⟩

/-- One more day. -/
theorem ScannedTo.step {s : List MenuBreak × Option Run} (h : ScannedTo dayOffOf a b s) (hab : a ≤ b) :
    ScannedTo dayOffOf a (b + 1) (scanDay dayOffOf s b) := by
  cases hoff : dayOffOf b with
  | none =>
    have hnot : ¬ IsOff dayOffOf b := by simp [IsOff, hoff]
    have hclosing : ∀ k ∈ (s.2.bind Run.toBreak).toList, ∃ run ∈ s.2, run.toBreak = some k := fun k hk =>
      Option.bind_eq_some_iff.mp (Option.mem_toList.mp hk)
    simp only [scanDay, hoff]
    refine ⟨?_, ?_, by simp, by simp, fun _ => .inr (by simpa using hnot), ?_⟩
    · refine List.pairwise_append.mpr ⟨h.inOrder, ?_, ?_⟩
      · cases s.2.bind Run.toBreak <;> simp
      · intro k hk k' hk'
        obtain ⟨run, hrun, hbreak⟩ := hclosing k' hk'
        rw [Run.toBreak_eq_some hbreak]
        exact h.apart k hk run hrun
    · intro k hk
      rcases List.mem_append.mp hk with hk | hk
      · obtain ⟨hscanned, hlt, hafter⟩ := h.breaks k hk
        exact ⟨hscanned, by omega, hafter⟩
      · obtain ⟨run, hrun, hbreak⟩ := hclosing k hk
        obtain ⟨hscanned, hlast⟩ := h.run run hrun
        rw [Run.toBreak_eq_some hbreak, hlast]
        exact ⟨hscanned, by omega, hnot⟩
    · intro day ha hb hclosed
      have hday : day ≠ b := by
        rintro rfl
        simp [hoff, isClosed] at hclosed
      rcases h.complete day ha (by omega) hclosed with ⟨k, hk, hin⟩ | ⟨run, hrun, hstart⟩
      · exact .inl ⟨k, List.mem_append_left _ hk, hin⟩
      · obtain ⟨hscanned, hlast⟩ := h.run run hrun
        obtain ⟨k, hbreak⟩ := hscanned.toBreak_isSome hstart (by omega) hclosed
        refine .inl ⟨k, List.mem_append_right _ ?_, ?_⟩
        · simpa [Option.mem_def.mp hrun] using hbreak
        · rw [Run.toBreak_eq_some hbreak]
          omega
  | some reason =>
    have hgoes := Run.scanned_goOn h.run h.noRun hab hoff
    have hstart : ∀ run ∈ s.2, (Run.goOn s.2 b reason).start = run.start := by
      intro run hrun
      simp [Option.mem_def.mp hrun, Run.goOn]
    simp only [scanDay, hoff]
    refine ⟨h.inOrder, ?_, ?_, ?_, by simp, ?_⟩
    · intro k hk
      obtain ⟨hscanned, hlt, hafter⟩ := h.breaks k hk
      exact ⟨hscanned, by omega, hafter⟩
    · intro run hrun
      obtain rfl : Run.goOn s.2 b reason = run := by simpa using hrun
      exact ⟨hgoes, rfl⟩
    · intro k hk run hrun
      obtain rfl : Run.goOn s.2 b reason = run := by simpa using hrun
      cases hopen : s.2 with
      | none =>
        obtain ⟨-, hlt, -⟩ := h.breaks k hk
        simp only [Run.goOn, Option.getD_none]
        omega
      | some run =>
        have happart := h.apart k hk run hopen
        rwa [← hopen, hstart run hopen]
    · intro day ha hb hclosed
      by_cases hday : day = b
      · exact .inr ⟨_, rfl, by have := hgoes.nonempty; simp only [Run.goOn] at this ⊢; omega⟩
      · rcases h.complete day ha (by omega) hclosed with hk | ⟨run, hrun, hle⟩
        · exact .inl hk
        · exact .inr ⟨_, rfl, by rw [hstart run hrun]; exact hle⟩

theorem scannedTo_scan (n : ℕ) : ScannedTo dayOffOf a (a + n) (scan dayOffOf a n) := by
  induction n with
  | zero => simpa [scan] using scannedTo_start
  | succ n ih =>
    have hstep := ih.step (by omega)
    simp only [scan, List.range_succ, List.map_append, List.map_cons, List.map_nil, List.foldl_append, List.foldl_cons,
      List.foldl_nil] at hstep ⊢
    rw [Nat.cast_succ, ← add_assoc]
    exact hstep

theorem mem_menuBreaks {k : MenuBreak} :
    k ∈ menuBreaks dayOffOf first last ↔
      k ∈ (scan dayOffOf (first - MAX_BREAK_DAYS) (last + MAX_BREAK_DAYS + 1 - (first - MAX_BREAK_DAYS)).toNat).1 ∧
        first ≤ k.last ∧ k.start ≤ last := by
  simp [menuBreaks]

/-- A break that was found whole shows how far the scan had to reach. -/
theorem scanReaches_of_found (h : FoundWhole dayOffOf first last (menuBreaks dayOffOf first last)) :
    ScanReaches dayOffOf first last := by
  rintro s e hstretch ⟨day, hs, he, hclosed⟩ hlast hfirst
  obtain ⟨k, hk, hin⟩ := h.complete day hclosed ⟨s, e, hstretch, hs, he, hlast, hfirst⟩
  have hholds := (h.whole k hk).1.holds hstretch hin ⟨hs, he⟩
  obtain ⟨hscanned, hlt, -⟩ := (scannedTo_scan _).breaks k (mem_menuBreaks.mp hk).1
  have hstart := hscanned.start_le
  have hnonempty := hscanned.nonempty
  omega

theorem found_of_scanReaches (h : ScanReaches dayOffOf first last) :
    FoundWhole dayOffOf first last (menuBreaks dayOffOf first last) := by
  have hscan := @scannedTo_scan dayOffOf (first - MAX_BREAK_DAYS) (last + MAX_BREAK_DAYS + 1 - (first - MAX_BREAK_DAYS)).toNat
  refine ⟨hscan.inOrder.filter _, ?_, ?_⟩
  · intro k hk
    obtain ⟨hk, hfirst, hlast⟩ := mem_menuBreaks.mp hk
    obtain ⟨hscanned, hlt, hafter⟩ := hscan.breaks k hk
    refine ⟨⟨hscanned.nonempty, hscanned.inside, ?_, hafter⟩, hscanned.heaviest, hfirst, hlast⟩
    rcases hscanned.before with hstart | hbefore
    · -- The scan began inside the run, which then reaches too far back.
      intro hoff
      obtain ⟨day, hs, he, hday⟩ := hscanned.heaviest.found
      have hclosed : isClosed (dayOffOf day) = true := by
        rw [hday]
        exact decide_eq_true k.notWeekend
      have hreach := h _ _ (hscanned.inside.extend_left hoff) ⟨day, by omega, he, hclosed⟩ (by omega) hfirst
      omega
    · exact hbefore
  · rintro day hclosed ⟨s, e, hstretch, hs, he, hlast, hfirst⟩
    obtain ⟨hback, hahead⟩ := h s e hstretch ⟨day, hs, he, hclosed⟩ hlast hfirst
    rcases hscan.complete day (by omega) (by omega) hclosed with ⟨k, hk, hin⟩ | ⟨run, hrun, hstart⟩
    · obtain ⟨hscanned, -, hafter⟩ := hscan.breaks k hk
      have hends := hstretch.lt_of_not (x := k.last + 1) (by omega) hafter
      have hbegins : k.start ≤ s := by
        rcases hscanned.before with hstart | hbefore
        · omega
        · have := hstretch.gt_of_not (x := k.start - 1) (by omega) hbefore
          omega
      exact ⟨k, mem_menuBreaks.mpr ⟨hk, by omega, by omega⟩, hin⟩
    · -- The run is still open where the scan ends, so the stretch goes on too long.
      obtain ⟨hscanned, hopen⟩ := hscan.run run hrun
      have hboth := hscanned.inside.union hstretch ⟨hstart, by omega⟩ ⟨hs, he⟩
      have hreach := h _ _ hboth ⟨day, by omega, by omega, hclosed⟩ (by omega) (by omega)
      omega

/-- The breaks are found whole and none is missed exactly when the scan reaches far enough for all of them. -/
theorem menuBreaks_found_iff (dayOffOf : ℤ → Option DayOff) (first last : ℤ) :
    FoundWhole dayOffOf first last (menuBreaks dayOffOf first last) ↔ ScanReaches dayOffOf first last :=
  ⟨scanReaches_of_found, found_of_scanReaches⟩

/-- A canteen that is rebuilt all year. -/
def rebuilding : List DayOverride := [⟨⟨20260101, 20261231⟩, false⟩]

/-- The Monday of the first week of 2026. -/
def newYear : ℤ := dayNumber 2026 1 5

/-- The canteen is closed the whole time, and no break is shown. -/
theorem break_of_the_year_missed :
    menuBreaks (menuDayOff .webuntis [] rebuilding) newYear (newYear + 200) = [] ∧
      ¬ FoundWhole (menuDayOff .webuntis [] rebuilding) newYear (newYear + 200)
        (menuBreaks (menuDayOff .webuntis [] rebuilding) newYear (newYear + 200)) := by
  have hnone : menuBreaks (menuDayOff .webuntis [] rebuilding) newYear (newYear + 200) = [] := by decide +kernel
  refine ⟨hnone, fun h => ?_⟩
  have hclosed : isClosed (menuDayOff .webuntis [] rebuilding newYear) = true := by decide +kernel
  have hoff : IsOff (menuDayOff .webuntis [] rebuilding) newYear := by
    unfold IsOff
    decide +kernel
  obtain ⟨k, hk, -⟩ := h.complete _ hclosed ⟨_, _, .single hoff, le_rfl, le_rfl, by decide +kernel, le_rfl⟩
  rw [hnone] at hk
  exact absurd hk (List.not_mem_nil)

end Pokyh.Menu

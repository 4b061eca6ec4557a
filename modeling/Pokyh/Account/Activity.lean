import Mathlib.Algebra.GroupWithZero.Nat
import Mathlib.Data.List.Dedup
import Mathlib.Data.List.Count
import Mathlib.Data.Int.Basic
import Pokyh.Lib.Runs

/-!
# Account — Activity

An account's use of the app in figures (`services/accountActivitySummary.ts`, `mergeSignIns` of
`services/accountActivity.ts`): `summarizeActivity` goes through the rows of a window, kind by kind, and adds each to its
day.

* `days_summarizeActivity`: **each day's figures are what its own rows add up to**.

Days are counted from a first one, which keeps the order of their keys.  Weekdays, hours and devices are left out: no
total reads them.
-/

namespace Pokyh.Account.Activity
open Pokyh.Lib

structure ActivityDay where
  date : ℕ
  active : Bool
  logins : ℕ
  activeSeconds : ℕ
  visits : ℕ
  screens : ℕ
  deriving DecidableEq, Repr

/-- A row of `request_account_days`. -/
structure AccountDay where
  dayKey : ℕ
  device : String
  client : String
  signIns : ℤ
  deriving DecidableEq, Repr

/-- A row of `usage_sessions`. -/
structure UsageSession where
  id : String
  dayKey : ℕ
  activeSeconds : ℤ
  screens : ℤ
  deriving DecidableEq, Repr

/-- An active day of an archived year. -/
structure ArchivedDay where
  dayKey : ℕ
  logins : ℕ
  seconds : ℕ
  deriving DecidableEq, Repr

structure ActivityInput where
  /-- Every day of the window, oldest first. -/
  days : List ℕ
  accountDays : List AccountDay
  sessions : List UsageSession
  signIns : List ℕ
  archived : List ArchivedDay
  deriving DecidableEq, Repr

structure ActivityTotals where
  activeDays : ℕ
  logins : ℕ
  activeSeconds : ℕ
  visits : ℕ
  screens : ℕ
  currentStreak : ℕ
  longestStreak : ℕ
  deriving DecidableEq, Repr

structure ActivitySummary where
  days : List ActivityDay
  totals : ActivityTotals
  deriving DecidableEq, Repr

/-- The day with that key is changed, if the window has it. -/
def onDay (date : ℕ) (change : ActivityDay → ActivityDay) (byDay : List ActivityDay) : List ActivityDay :=
  byDay.map fun day => if day.date = date then change day else day

def addAccountDay (day : ActivityDay) : ActivityDay := { day with active := true }

def addSession (s : UsageSession) (day : ActivityDay) : ActivityDay :=
  { day with
    visits := day.visits + 1
    activeSeconds := day.activeSeconds + s.activeSeconds.toNat
    screens := day.screens + s.screens.toNat
    active := day.active || 0 < s.activeSeconds }

def addSignIn (day : ActivityDay) : ActivityDay := { day with logins := day.logins + 1, active := true }

def addArchived (a : ArchivedDay) (day : ActivityDay) : ActivityDay :=
  { day with active := true, logins := day.logins + a.logins, activeSeconds := day.activeSeconds + a.seconds }

/-- The current run of active days, and the longest one so far. -/
def streakStep (t : ℕ × ℕ) (active : Bool) : ℕ × ℕ :=
  if active then (t.1 + 1, max t.2 (t.1 + 1)) else (0, t.2)

def longestStreak (active : List Bool) : ℕ := (active.foldl streakStep (0, 0)).2

/-- A quiet last day does not end the streak: it is not over. -/
def currentStreak (active : List Bool) : ℕ :=
  match active.reverse with
  | [] => 0
  | last :: before => if last then 1 + (before.takeWhile id).length else (before.takeWhile id).length

def totalsOf (days : List ActivityDay) : ActivityTotals :=
  { activeDays := days.countP (·.active)
    logins := (days.map (·.logins)).sum
    activeSeconds := (days.map (·.activeSeconds)).sum
    visits := (days.map (·.visits)).sum
    screens := (days.map (·.screens)).sum
    currentStreak := currentStreak (days.map (·.active))
    longestStreak := longestStreak (days.map (·.active)) }

def summarizeActivity (input : ActivityInput) : ActivitySummary :=
  let byDay := input.days.map fun date => (⟨date, false, 0, 0, 0, 0⟩ : ActivityDay)
  let byDay := input.accountDays.foldl (fun byDay row => onDay row.dayKey addAccountDay byDay) byDay
  let byDay := input.sessions.foldl (fun byDay s => onDay s.dayKey (addSession s) byDay) byDay
  let byDay := input.signIns.foldl (fun byDay dayKey => onDay dayKey addSignIn byDay) byDay
  let byDay := input.archived.foldl (fun byDay a => onDay a.dayKey (addArchived a) byDay) byDay
  ⟨byDay, totalsOf byDay⟩

/-- One day key for each sign-in that the rows count, at most 500 a row. -/
def signInDays (rows : List AccountDay) : List ℕ :=
  rows.flatMap fun row => List.replicate (min 500 row.signIns.toNat) row.dayKey

/-- For each day the sign-ins counted, or those logged where they are more. -/
def mergeSignIns (counted logged : List ℕ) : List ℕ :=
  (counted ++ logged).dedup.flatMap fun day => List.replicate (max (counted.count day) (logged.count day)) day

/-! ### A day's own figures -/

variable {rows : List AccountDay} {sessions : List UsageSession} {archived : List ArchivedDay} {date : ℕ}

def secondsOn (sessions : List UsageSession) (date : ℕ) : ℕ :=
  ((sessions.filter (·.dayKey = date)).map (·.activeSeconds.toNat)).sum

def signInsOn (rows : List AccountDay) (date : ℕ) : ℕ := (signInDays rows).count date

def archivedOn (archived : List ArchivedDay) (date : ℕ) : List ArchivedDay := archived.filter (·.dayKey = date)

/-- What the rows of a day add up to. -/
def ActivityInput.onDay (input : ActivityInput) (date : ℕ) : ActivityDay :=
  let sessions := input.sessions.filter (·.dayKey = date)
  let archived := archivedOn input.archived date
  { date := date
    active := input.accountDays.any (·.dayKey = date) || sessions.any (0 < ·.activeSeconds) ||
      input.signIns.any (· = date) || !archived.isEmpty
    logins := input.signIns.count date + (archived.map (·.logins)).sum
    activeSeconds := secondsOn input.sessions date + (archived.map (·.seconds)).sum
    visits := sessions.length
    screens := (sessions.map (·.screens.toNat)).sum }

/-! ### One loop after the other -/

theorem foldl_addAccountDay (day : ActivityDay) (rows : List AccountDay) :
    rows.foldl (fun day row => if day.date = row.dayKey then addAccountDay day else day) day =
      { day with active := day.active || rows.any (·.dayKey = day.date) } := by
  induction rows generalizing day with
  | nil => simp
  | cons row rows ih =>
      rw [List.foldl_cons, ih]
      by_cases h : day.date = row.dayKey
      · simp [h, addAccountDay]
      · simp [h, Ne.symm h]

theorem foldl_addSession (day : ActivityDay) (sessions : List UsageSession) :
    sessions.foldl (fun day s => if day.date = s.dayKey then addSession s day else day) day =
      { day with
        visits := day.visits + (sessions.filter (·.dayKey = day.date)).length
        activeSeconds := day.activeSeconds + secondsOn sessions day.date
        screens := day.screens + ((sessions.filter (·.dayKey = day.date)).map (·.screens.toNat)).sum
        active := day.active || (sessions.filter (·.dayKey = day.date)).any (0 < ·.activeSeconds) } := by
  induction sessions generalizing day with
  | nil => simp [secondsOn]
  | cons s sessions ih =>
      rw [List.foldl_cons, ih]
      by_cases h : day.date = s.dayKey
      · simp [h, addSession, secondsOn, Nat.add_assoc, Nat.add_comm 1, Bool.or_assoc]
      · simp [h, Ne.symm h, secondsOn]

theorem foldl_addSignIn (day : ActivityDay) (signIns : List ℕ) :
    signIns.foldl (fun day dayKey => if day.date = dayKey then addSignIn day else day) day =
      { day with
        logins := day.logins + signIns.count day.date
        active := day.active || signIns.any (· = day.date) } := by
  induction signIns generalizing day with
  | nil => simp
  | cons dayKey signIns ih =>
      rw [List.foldl_cons, ih]
      by_cases h : day.date = dayKey
      · simp [h, addSignIn, Nat.add_assoc, Nat.add_comm 1]
      · simp [h, Ne.symm h]

theorem foldl_addArchived (day : ActivityDay) (archived : List ArchivedDay) :
    archived.foldl (fun day a => if day.date = a.dayKey then addArchived a day else day) day =
      { day with
        active := day.active || !(archivedOn archived day.date).isEmpty
        logins := day.logins + ((archivedOn archived day.date).map (·.logins)).sum
        activeSeconds := day.activeSeconds + ((archivedOn archived day.date).map (·.seconds)).sum } := by
  induction archived generalizing day with
  | nil => simp [archivedOn]
  | cons a archived ih =>
      rw [List.foldl_cons, ih]
      by_cases h : day.date = a.dayKey
      · simp [h, addArchived, archivedOn, Nat.add_assoc]
      · simp [h, Ne.symm h, archivedOn]

/-- **Each day's figures are what its own rows add up to.** -/
theorem days_summarizeActivity (input : ActivityInput) :
    (summarizeActivity input).days = input.days.map input.onDay := by
  unfold summarizeActivity Activity.onDay
  simp only [foldl_map_rows, List.map_map]
  refine List.map_congr_left fun date _ => ?_
  simp only [Function.comp_apply, foldl_addAccountDay, foldl_addSession, foldl_addSignIn, foldl_addArchived]
  simp [ActivityInput.onDay]

theorem totals_summarizeActivity (input : ActivityInput) :
    (summarizeActivity input).totals = totalsOf (input.days.map input.onDay) := by
  rw [← days_summarizeActivity]
  rfl

/-! ### Merged sign-ins -/

theorem count_flatMap_replicate {l : List ℕ} (hl : l.Nodup) (n : ℕ → ℕ) (date : ℕ) :
    (l.flatMap fun day => List.replicate (n day) day).count date = if date ∈ l then n date else 0 := by
  induction l with
  | nil => simp
  | cons day l ih =>
      obtain ⟨hday, hl⟩ := List.nodup_cons.mp hl
      rw [List.flatMap_cons, List.count_append, List.count_replicate, ih hl]
      by_cases h : day = date
      · subst h
        simp [hday]
      · simp [h, Ne.symm h]

/-- A day has the sign-ins counted, or those logged where they are more. -/
theorem count_mergeSignIns (counted logged : List ℕ) (date : ℕ) :
    (mergeSignIns counted logged).count date = max (counted.count date) (logged.count date) := by
  rw [mergeSignIns, count_flatMap_replicate (List.nodup_dedup _)]
  split
  · rfl
  · rename_i h
    rw [List.mem_dedup, List.mem_append, not_or] at h
    rw [List.count_eq_zero_of_not_mem h.1, List.count_eq_zero_of_not_mem h.2, Nat.max_self]

end Pokyh.Account.Activity

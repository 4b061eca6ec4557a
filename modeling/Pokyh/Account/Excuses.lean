import Mathlib.Data.List.MinMax
import Mathlib.Data.List.Sort
import Mathlib.Data.Prod.Lex
import Mathlib.Order.Bounds.Basic
import Pokyh.Lib.Calendar
import Pokyh.Lib.Patterns
import Pokyh.Lib.Texts

/-!
# Account — Excuses

The message that excuses absences (`webuntis/excuseMessage.ts`).  Its subject names the span from the absence that starts first to
the one that ends last, with their times where one of the two has any, and is read back by two patterns to find the message again.

* `subject_dates`, `subject_times`: what the two patterns read of a subject, in each of its four forms.
* `compose_subject`: the absences a subject is made of.
* `excuse_found_iff`: **an excuse is found again by its subject** exactly when the absence that ends last has times or the one that
  starts first has none.
* `wholeDayLast_lost`: behind a lesson missed, a whole day is written as ending when it begins.
-/

namespace Pokyh.Account.Excuses
open Pokyh.Lib

/-! ### Wording -/

inductive ExcuseLocale where
  | de
  | it
  | en
  deriving DecidableEq

/-- One absence: dates as YYYYMMDD, times as HHMM. -/
structure ExcuseAbsence where
  startDate : ℕ
  startTime : ℕ
  endDate : ℕ
  endTime : ℕ
  deriving DecidableEq

structure ExcuseInput where
  absences : List ExcuseAbsence
  locale : ExcuseLocale
  reasonName : Option String
  note : Option String
  childName : Option String
  signature : Option String

structure Wording where
  prefixText : String
  sep : Char
  weekdays : List String
  hello : String
  one : String → String
  many : String
  oneChild : String → String → String
  manyChild : String → String
  onDay : String → Option (String × String) → String
  atTime : String → String → String
  range : String → String → String
  reason : String
  note : String
  bye : String

def TEXT : ExcuseLocale → Wording
  | .de =>
    { prefixText := "Entschuldigung"
      sep := '.'
      weekdays := ["Sonntag", "Montag", "Dienstag", "Mittwoch", "Donnerstag", "Freitag", "Samstag"]
      hello := "Guten Tag,"
      one := fun w => "hiermit entschuldige ich meine Abwesenheit " ++ w ++ "."
      many := "hiermit entschuldige ich meine folgenden Abwesenheiten:"
      oneChild := fun child w => "hiermit entschuldige ich die Abwesenheit meines Kindes " ++ child ++ " " ++ w ++ "."
      manyChild := fun child => "hiermit entschuldige ich die folgenden Abwesenheiten meines Kindes " ++ child ++ ":"
      onDay := fun day times =>
        "am " ++ day ++ times.elim " (ganztägig)" fun t => ", von " ++ t.1 ++ " bis " ++ t.2
      atTime := fun day time => day ++ ", " ++ time
      range := fun start stop => "vom " ++ start ++ " bis " ++ stop
      reason := "Grund"
      note := "Bemerkung"
      bye := "Mit freundlichen Grüßen" }
  | .it =>
    { prefixText := "Giustificazione"
      sep := '/'
      weekdays := ["domenica", "lunedì", "martedì", "mercoledì", "giovedì", "venerdì", "sabato"]
      hello := "Buongiorno,"
      one := fun w => "con la presente giustifico la mia assenza " ++ w ++ "."
      many := "con la presente giustifico le mie seguenti assenze:"
      oneChild := fun child w => "con la presente giustifico l’assenza di mio/a figlio/a " ++ child ++ " " ++ w ++ "."
      manyChild := fun child => "con la presente giustifico le seguenti assenze di mio/a figlio/a " ++ child ++ ":"
      onDay := fun day times =>
        "di " ++ day ++ times.elim " (tutto il giorno)" fun t => " dalle " ++ t.1 ++ " alle " ++ t.2
      atTime := fun day time => day ++ " ore " ++ time
      range := fun start stop => "dal " ++ start ++ " al " ++ stop
      reason := "Motivo"
      note := "Nota"
      bye := "Cordiali saluti" }
  | .en =>
    { prefixText := "Absence excuse"
      sep := '/'
      weekdays := ["Sunday", "Monday", "Tuesday", "Wednesday", "Thursday", "Friday", "Saturday"]
      hello := "Hello,"
      one := fun w => "I am writing to excuse my absence " ++ w ++ "."
      many := "I am writing to excuse my following absences:"
      oneChild := fun child w => "I am writing to excuse the absence of my child " ++ child ++ " " ++ w ++ "."
      manyChild := fun child => "I am writing to excuse the following absences of my child " ++ child ++ ":"
      onDay := fun day times =>
        "on " ++ day ++ times.elim " (all day)" fun t => ", from " ++ t.1 ++ " to " ++ t.2
      atTime := fun day time => day ++ ", " ++ time
      range := fun start stop => "from " ++ start ++ " to " ++ stop
      reason := "Reason"
      note := "Note"
      bye := "Kind regards" }

/-! ### Writing -/

/-- HHMM or minutes of the day, as minutes of the day. -/
def minutesOf (t : ℕ) : ℕ :=
  if t = 0 then 0
  else if t > 2359 ∨ t % 100 > 59 then t
  else t / 100 * 60 + t % 100

/-- The decimal digits of a number, at least two. -/
def pad (n : ℕ) : String := String.ofList ((Nat.toDigits 10 n).leftpad 2 '0')

def clock (t : ℕ) : String := pad (minutesOf t / 60) ++ ":" ++ pad (minutesOf t % 60)

def date (d : ℕ) (locale : ExcuseLocale) : String :=
  let sep := String.ofList [(TEXT locale).sep]
  pad (d % 100) ++ sep ++ pad (d / 100 % 100) ++ sep ++ String.ofList (Nat.toDigits 10 (d / 10000))

/-- The weekday of a date, from Sunday on; years with two digits are those of the twentieth century. -/
def weekdayIndex (d : ℕ) : ℕ :=
  let year := if d / 10000 ≤ 99 then 1900 + d / 10000 else d / 10000
  ((dayNumber year (d / 100 % 100 : ℕ) (d % 100 : ℕ) + 4) % 7).toNat

def day (d : ℕ) (locale : ExcuseLocale) : String :=
  let weekday := (TEXT locale).weekdays.getD (weekdayIndex d) ""
  if locale = .it then weekday ++ " " ++ date d locale else weekday ++ ", " ++ date d locale

def hasTimes (a : ExcuseAbsence) : Bool := a.startTime > 0 || a.endTime > 0

/-- A span of time as YYYYMMDDHHMM. -/
structure ExcuseSpan where
  start : ℕ
  stop : ℕ
  deriving DecidableEq

def absenceSpan (a : ExcuseAbsence) : ExcuseSpan :=
  let s := minutesOf a.startTime
  let e := if hasTimes a then minutesOf a.endTime else 23 * 60 + 59
  ⟨a.startDate * 10000 + s / 60 * 100 + s % 60, a.endDate * 10000 + e / 60 * 100 + e % 60⟩

/-- One absence in words. -/
def inWords (a : ExcuseAbsence) (locale : ExcuseLocale) : String :=
  let t := TEXT locale
  if a.startDate = a.endDate then
    t.onDay (day a.startDate locale) (if hasTimes a then some (clock a.startTime, clock a.endTime) else none)
  else if hasTimes a then
    t.range (t.atTime (day a.startDate locale) (clock a.startTime)) (t.atTime (day a.endDate locale) (clock a.endTime))
  else t.range (day a.startDate locale) (day a.endDate locale)

def subjectSpan (first last : ExcuseAbsence) (locale : ExcuseLocale) : String :=
  let times := hasTimes first || hasTimes last
  if first.startDate = last.endDate then
    if times then date first.startDate locale ++ ", " ++ clock first.startTime ++ "-" ++ clock last.endTime
    else date first.startDate locale
  else if times then
    date first.startDate locale ++ ", " ++ clock first.startTime ++ " - " ++ date last.endDate locale ++ ", " ++ clock last.endTime
  else date first.startDate locale ++ " - " ++ date last.endDate locale

structure Excuse where
  subject : String
  text : String

/-- A text without the white space around it, where that leaves something. -/
def trimmed (text : Option String) : Option String :=
  (text.map fun t => String.ofList (trim t.toList)).filter (· ≠ "")

def byStart (a b : ExcuseAbsence) : Prop := (absenceSpan a).start ≤ (absenceSpan b).start

instance : DecidableRel byStart := fun _ _ => Nat.decLe _ _

/-- The subject and the body; without an absence there is nothing to write. -/
def composeExcuse (input : ExcuseInput) : Option Excuse :=
  let t := TEXT input.locale
  match input.absences.insertionSort byStart with
  | [] => none
  | first :: others =>
    let absences := first :: others
    let last := absences.foldl (fun max a => if (absenceSpan a).stop > (absenceSpan max).stop then a else max) first
    let subject := t.prefixText ++ ": " ++ subjectSpan first last input.locale
    let child := trimmed input.childName
    let whens := absences.map fun a => inWords a input.locale
    let lines := if others = [] then
        let w := inWords first input.locale
        [child.elim (t.one w) fun child => t.oneChild child w]
      else child.elim t.many t.manyChild :: whens.map fun w => "- " ++ w
    let reason := (trimmed input.reasonName).map fun reason => t.reason ++ ": " ++ reason
    let note := (trimmed input.note).map fun note => t.note ++ ": " ++ note
    let given := reason.toList ++ note.toList
    let body := [t.hello, ""] ++ lines ++ (if given = [] then [] else "" :: given) ++ ["", t.bye] ++ (trimmed input.signature).toList
    some ⟨subject, "\n".intercalate body⟩

/-! ### Reading -/

def PREFIXES : List (List Char) :=
  [ExcuseLocale.de, .it, .en].map fun locale => (TEXT locale).prefixText.toList.map Char.toLower ++ [':']

/-- The number of some digits. -/
def number (digits : List Char) : ℕ := digits.foldl (fun n d => 10 * n + (d.toNat - 48)) 0

/-- `(\d{1,2})[./](\d{1,2})[./](\d{4})`, as YYYYMMDD. -/
def datePattern : Pattern Char ℕ :=
  .bind (.many Char.isDigit 1 2) fun dayOfMonth => .bind (.one fun c => c = '.' || c = '/') fun _ =>
  .bind (.many Char.isDigit 1 2) fun month => .bind (.one fun c => c = '.' || c = '/') fun _ =>
  .bind (.many Char.isDigit 4 4) fun year =>
  .give (number year * 10000 + number month * 100 + number dayOfMonth)

def joinsTime (c : Char) : Bool := c.isDigit || c = '.' || c = ':' || c = '/'

/-- `(\d{1,2}):(\d{2})(?![\d.:/])`, as HHMM. -/
def clockPattern : Pattern Char ℕ :=
  .bind (.many Char.isDigit 1 2) fun hour => .bind (.one fun c => c = ':') fun _ =>
  .bind (.many Char.isDigit 2 2) fun minute => .bind (.notAhead joinsTime) fun _ =>
  .give (number hour * 100 + number minute)

/-- `(?<![\d.:/])` and a time. -/
def timePattern : Pattern Char ℕ := .bind (.notBehind joinsTime) fun _ => clockPattern

/-- The span from the first of the dates and times to the last. -/
def spanOf (dates times : List ℕ) : Option ExcuseSpan :=
  match dates.head?, dates.getLast? with
  | some firstDate, some lastDate =>
    let startTime := if times.length ≥ 2 then times.headD 0 else 0
    let endTime := if times.length ≥ 2 then times.getLastD 0 else 2359
    let start := firstDate * 10000 + startTime
    let stop := lastDate * 10000 + endTime
    if stop > start then some ⟨start, stop⟩ else none
  | _, _ => none

/-- The span that a subject names, if it is an excuse's. -/
def parseExcuseSubject (unicode : List Char → List Char) (subject : List Char) : Option ExcuseSpan :=
  let s := trim subject
  if PREFIXES.all fun p => ¬ p.isPrefixOf (toLowerCase unicode s) then none
  else spanOf (Pattern.matchAll datePattern s) ((Pattern.matchAll timePattern s).filter fun t => t / 100 < 24 && t % 100 < 60)

/-! ### Digits -/

/-- The last decimal digit of a number. -/
def dg (n : ℕ) : Char := Nat.digitChar (n % 10)

theorem dg_cases (n : ℕ) : (dg n).isDigit = true ∧ (dg n).toNat - 48 = n % 10 := by
  have hall : ∀ k < 10, (Nat.digitChar k).isDigit = true ∧ (Nat.digitChar k).toNat - 48 = k := by decide
  exact hall (n % 10) (Nat.mod_lt n (by decide))

@[simp] theorem isDigit_dg (n : ℕ) : (dg n).isDigit = true := (dg_cases n).1

@[simp] theorem value_dg (n : ℕ) : (dg n).toNat - 48 = n % 10 := (dg_cases n).2

theorem dg_ne {c : Char} (hc : c.isDigit = false) (n : ℕ) : dg n ≠ c := by
  rintro rfl
  rw [isDigit_dg] at hc
  cases hc

theorem pad_eq {n : ℕ} (h : n < 100) : (pad n).toList = [dg (n / 10), dg n] := by
  have hall : ∀ n < 100, (Nat.toDigits 10 n).leftpad 2 '0' = [dg (n / 10), dg n] := by decide +kernel
  rw [pad, String.toList_ofList, hall n h]

theorem year_eq {n : ℕ} (h : 1000 ≤ n) (h' : n < 10000) :
    Nat.toDigits 10 n = [dg (n / 1000), dg (n / 100), dg (n / 10), dg n] := by
  have hlast : n / 10 / 10 / 10 < 10 := by omega
  have hfirst : n / 10 / 10 / 10 = n / 1000 := by omega
  have hsecond : n / 10 / 10 = n / 100 := by omega
  rw [Nat.toDigits_of_base_le (by decide) (by omega), Nat.toDigits_of_base_le (by decide) (by omega),
    Nat.toDigits_of_base_le (by decide) (by omega), Nat.toDigits_of_lt_base hlast, hfirst, hsecond]
  have hmod : n / 1000 % 10 = n / 1000 := Nat.mod_eq_of_lt (by omega)
  simp [dg, hmod]

/-- A date as it is written. -/
def dateChars (sep : Char) (dayOfMonth month year : ℕ) : List Char :=
  [dg (dayOfMonth / 10), dg dayOfMonth, sep, dg (month / 10), dg month, sep,
    dg (year / 1000), dg (year / 100), dg (year / 10), dg year]

/-- A time as it is written. -/
def timeChars (hour minute : ℕ) : List Char := [dg (hour / 10), dg hour, ':', dg (minute / 10), dg minute]

variable {before after : List Char}

theorem datePattern_hit {sep : Char} (hsep : sep = '.' ∨ sep = '/') {dayOfMonth month year : ℕ} (hday : dayOfMonth < 100)
    (hmonth : month < 100) (hyear : year < 10000) :
    (datePattern ⟨before, dateChars sep dayOfMonth month year ++ after⟩).head? =
      some (year * 10000 + month * 100 + dayOfMonth, ⟨(dateChars sep dayOfMonth month year).reverse ++ before, after⟩) := by
  have hvalue : number [dg (year / 1000), dg (year / 100), dg (year / 10), dg year] * 10000 + number [dg (month / 10), dg month] * 100 +
      number [dg (dayOfMonth / 10), dg dayOfMonth] = year * 10000 + month * 100 + dayOfMonth := by
    simp only [number, List.foldl_cons, List.foldl_nil, value_dg]
    omega
  rw [← hvalue]
  simp [datePattern, dateChars, Pattern.bind, Pattern.many, Pattern.one, Pattern.give, hsep]

theorem datePattern_miss {c : Char} (hc : c.isDigit = false) : datePattern ⟨before, c :: after⟩ = [] := by
  simp [datePattern, Pattern.bind, Pattern.many, hc]

theorem timePattern_miss {c : Char} (hc : c.isDigit = false) : timePattern ⟨before, c :: after⟩ = [] :=
  Pattern.bind_notBehind_miss joinsTime (by simp [clockPattern, Pattern.bind, Pattern.many, hc])

theorem timePattern_hit {hour minute : ℕ} (hhour : hour < 100) (hminute : minute < 100) (hbefore : before.head?.any joinsTime = false)
    (hafter : after.head?.any joinsTime = false) :
    (timePattern ⟨before, timeChars hour minute ++ after⟩).head? =
      some (hour * 100 + minute, ⟨(timeChars hour minute).reverse ++ before, after⟩) := by
  have hvalue : number [dg (hour / 10), dg hour] * 100 + number [dg (minute / 10), dg minute] = hour * 100 + minute := by
    simp only [number, List.foldl_cons, List.foldl_nil, value_dg]
    omega
  rw [← hvalue]
  simp [timePattern, clockPattern, timeChars, Pattern.bind, Pattern.notBehind, Pattern.notAhead, Pattern.many, Pattern.one,
    Pattern.give, hbefore, hafter]

/-- What may stand behind a date or a time. -/
def Closed (after : List Char) : Prop := ∀ c ∈ after.head?, c = ' ' ∨ c = '-' ∨ c = ','

theorem Closed.cases (h : Closed after) : after = [] ∨ ∃ c rest, after = c :: rest ∧ c.isDigit = false ∧ c ≠ '.' ∧ c ≠ '/' ∧ c ≠ ':' := by
  cases after with
  | nil => exact .inl rfl
  | cons c rest =>
      have hc := h c rfl
      exact .inr ⟨c, rest, rfl, by rcases hc with rfl | rfl | rfl <;> decide⟩

theorem datePattern_blocked (h : ∀ c ∈ (after.dropWhile Char.isDigit).head?, c ≠ '.' ∧ c ≠ '/') : datePattern ⟨before, after⟩ = [] := by
  refine Pattern.many_one_miss (fun c hc => ?_) fun c hc => by simpa using h c hc
  have hdot : c ≠ '.' := by rintro rfl; cases hc
  have hslash : c ≠ '/' := by rintro rfl; cases hc
  simp [hdot, hslash]

theorem timePattern_blocked (h : ∀ c ∈ (after.dropWhile Char.isDigit).head?, c ≠ ':') : timePattern ⟨before, after⟩ = [] := by
  refine Pattern.bind_notBehind_miss joinsTime (Pattern.many_one_miss (fun c hc => ?_) fun c hc => by simpa using h c hc)
  have hcolon : c ≠ ':' := by rintro rfl; cases hc
  simp [hcolon]

/-- No date is read from a time. -/
theorem dates_pass_time (hour minute : ℕ) (hafter : Closed after) :
    Pattern.matchesFrom datePattern before (timeChars hour minute ++ after) =
      Pattern.matchesFrom datePattern ((timeChars hour minute).reverse ++ before) after := by
  have hclosed : ∀ c ∈ (after.dropWhile Char.isDigit).head?, c ≠ '.' ∧ c ≠ '/' := by
    rcases hafter.cases with rfl | ⟨c, rest, rfl, hc⟩
    · simp
    · simp [hc]
  simp only [timeChars, List.cons_append, List.nil_append]
  iterate 5 rw [Pattern.matches_miss]
  · rfl
  all_goals exact datePattern_blocked (by simpa using hclosed)

/-- No time is read from a date. -/
theorem times_pass_date {sep : Char} (hsep : sep = '.' ∨ sep = '/') (dayOfMonth month year : ℕ) (hafter : Closed after) :
    Pattern.matchesFrom timePattern before (dateChars sep dayOfMonth month year ++ after) =
      Pattern.matchesFrom timePattern ((dateChars sep dayOfMonth month year).reverse ++ before) after := by
  have hdigit : sep.isDigit = false := by rcases hsep with rfl | rfl <;> rfl
  have hcolon : sep ≠ ':' := by rcases hsep with rfl | rfl <;> decide
  have hclosed : ∀ c ∈ (after.dropWhile Char.isDigit).head?, c ≠ ':' := by
    rcases hafter.cases with rfl | ⟨c, rest, rfl, hc⟩
    · simp
    · simp [hc]
  simp only [dateChars, List.cons_append, List.nil_append]
  iterate 10 rw [Pattern.matches_miss]
  · rfl
  all_goals exact timePattern_blocked (by simpa [hdigit, hcolon] using hclosed)

/-! ### Subjects -/

/-- A date of the calendar with a year of four digits. -/
structure IsDate (d : ℕ) : Prop where
  year_ge : 1000 ≤ d / 10000
  year_lt : d / 10000 < 10000
  real : (⟨(d / 10000 : ℕ), (d / 100 % 100 : ℕ), (d % 100 : ℕ)⟩ : Civil).Real

/-- A time of the clock as HHMM. -/
def IsClock (t : ℕ) : Prop := t / 100 < 24 ∧ t % 100 < 60

/-- An absence with real dates and times, or none, that ends after it starts. -/
structure ExcuseAbsence.Sound (a : ExcuseAbsence) : Prop where
  startDate : IsDate a.startDate
  startTime : IsClock a.startTime
  endDate : IsDate a.endDate
  endTime : IsClock a.endTime
  ends : (absenceSpan a).start < (absenceSpan a).stop

theorem minutesOf_clock {t : ℕ} (h : IsClock t) : minutesOf t / 60 = t / 100 ∧ minutesOf t % 60 = t % 100 := by
  obtain ⟨hhour, hminute⟩ := h
  unfold minutesOf
  split
  · rename_i hzero
    rw [hzero]
    exact ⟨rfl, rfl⟩
  · rw [if_neg (by omega)]
    omega

theorem clock_toList {t : ℕ} (h : IsClock t) : (clock t).toList = timeChars (t / 100) (t % 100) := by
  obtain ⟨hhour, hminute⟩ := minutesOf_clock h
  have hsmall := h.1
  have hsmall' := h.2
  rw [clock, hhour, hminute, String.toList_append, String.toList_append, pad_eq (by omega), pad_eq (by omega)]
  rfl

theorem date_toList {d : ℕ} (h : IsDate d) (locale : ExcuseLocale) :
    (date d locale).toList = dateChars (TEXT locale).sep (d % 100) (d / 100 % 100) (d / 10000) := by
  simp only [date, String.toList_append, String.toList_ofList, pad_eq (n := d % 100) (by omega),
    pad_eq (n := d / 100 % 100) (by omega), year_eq h.year_ge h.year_lt]
  rfl

theorem sep_cases (locale : ExcuseLocale) : (TEXT locale).sep = '.' ∨ (TEXT locale).sep = '/' := by cases locale <;> simp [TEXT]

theorem start_eq {a : ExcuseAbsence} (h : a.Sound) : (absenceSpan a).start = a.startDate * 10000 + a.startTime := by
  obtain ⟨hhour, hminute⟩ := minutesOf_clock h.startTime
  simp only [absenceSpan, hhour, hminute]
  omega

theorem stop_eq {a : ExcuseAbsence} (h : a.Sound) :
    (absenceSpan a).stop = a.endDate * 10000 + if hasTimes a then a.endTime else 2359 := by
  obtain ⟨hhour, hminute⟩ := minutesOf_clock h.endTime
  cases htimes : hasTimes a with
  | true =>
      simp only [absenceSpan, htimes, if_true, hhour, hminute]
      omega
  | false => simp [absenceSpan, htimes]

/-! ### Reading a subject -/

/-- Nothing is read from a stretch without digits. -/
theorem matches_plain {stretch : List Char} (h : (stretch.all fun c => !c.isDigit) = true) :
    Pattern.matchesFrom datePattern before (stretch ++ after) = Pattern.matchesFrom datePattern (stretch.reverse ++ before) after ∧
      Pattern.matchesFrom timePattern before (stretch ++ after) =
        Pattern.matchesFrom timePattern (stretch.reverse ++ before) after := by
  have hdigit : ∀ done c rest, stretch = done ++ c :: rest → c.isDigit = false := fun done c rest heq => by
    simpa using List.all_eq_true.mp h c (by simp [heq])
  exact ⟨Pattern.matches_pass fun done c rest heq => datePattern_miss (hdigit done c rest heq),
    Pattern.matches_pass fun done c rest heq => timePattern_miss (hdigit done c rest heq)⟩

/-- The value that a date is read as. -/
theorem dates_read {d : ℕ} (h : IsDate d) (locale : ExcuseLocale) :
    Pattern.matchesFrom datePattern before ((date d locale).toList ++ after) =
      d :: Pattern.matchesFrom datePattern ((date d locale).toList.reverse ++ before) after := by
  have hday : d % 100 < 100 := Nat.mod_lt _ (by decide)
  have hmonth : d / 100 % 100 < 100 := Nat.mod_lt _ (by decide)
  have hhit := @datePattern_hit before after _ (sep_cases locale) _ _ _ hday hmonth h.year_lt
  have hvalue : d / 10000 * 10000 + d / 100 % 100 * 100 + d % 100 = d := by omega
  rw [hvalue] at hhit
  rw [date_toList h]
  exact Pattern.matches_hit (List.cons_ne_nil _ _) hhit

theorem times_read {t : ℕ} (h : IsClock t) (hbefore : before.head?.any joinsTime = false) (hafter : after.head?.any joinsTime = false) :
    Pattern.matchesFrom timePattern before ((clock t).toList ++ after) =
      t :: Pattern.matchesFrom timePattern ((clock t).toList.reverse ++ before) after := by
  have hhour : t / 100 < 100 := h.1.trans (by decide)
  have hminute : t % 100 < 100 := h.2.trans (by decide)
  have hhit := timePattern_hit hhour hminute hbefore hafter
  have hvalue : t / 100 * 100 + t % 100 = t := by omega
  rw [hvalue] at hhit
  rw [clock_toList h]
  exact Pattern.matches_hit (List.cons_ne_nil _ _) hhit

theorem dates_pass_clock {t : ℕ} (h : IsClock t) (hafter : Closed after) :
    Pattern.matchesFrom datePattern before ((clock t).toList ++ after) =
      Pattern.matchesFrom datePattern ((clock t).toList.reverse ++ before) after := by
  rw [clock_toList h]
  exact dates_pass_time _ _ hafter

theorem times_pass_dateText {d : ℕ} (h : IsDate d) (locale : ExcuseLocale) (hafter : Closed after) :
    Pattern.matchesFrom timePattern before ((date d locale).toList ++ after) =
      Pattern.matchesFrom timePattern ((date d locale).toList.reverse ++ before) after := by
  rw [date_toList h]
  exact times_pass_date (sep_cases locale) _ _ _ hafter

theorem matches_nil : Pattern.matchesFrom datePattern before [] = [] ∧ Pattern.matchesFrom timePattern before [] = [] := by
  constructor
  · rfl
  · have hmiss : timePattern ⟨before, []⟩ = [] := Pattern.bind_notBehind_miss joinsTime rfl
    simp [Pattern.matchesFrom, Pattern.piecesFrom, hmiss]

theorem closed_nil : Closed [] := by simp [Closed]

theorem closed_cons {c : Char} (hc : c = ' ' ∨ c = '-' ∨ c = ',') (rest : List Char) : Closed (c :: rest) := by
  simpa [Closed] using hc

theorem dates_end {d : ℕ} (h : IsDate d) (locale : ExcuseLocale) : Pattern.matchesFrom datePattern before (date d locale).toList = [d] := by
  have hread := @dates_read before [] _ h locale
  rwa [List.append_nil, matches_nil.1] at hread

theorem dates_end_clock {t : ℕ} (h : IsClock t) : Pattern.matchesFrom datePattern before (clock t).toList = [] := by
  have hpass := @dates_pass_clock before _ _ h closed_nil
  rwa [List.append_nil, matches_nil.1] at hpass

theorem times_end {t : ℕ} (h : IsClock t) (hbefore : before.head?.any joinsTime = false) :
    Pattern.matchesFrom timePattern before (clock t).toList = [t] := by
  have hread := @times_read before [] _ h hbefore rfl
  rwa [List.append_nil, matches_nil.2] at hread

theorem times_end_dateText {d : ℕ} (h : IsDate d) (locale : ExcuseLocale) :
    Pattern.matchesFrom timePattern before (date d locale).toList = [] := by
  have hpass := @times_pass_dateText before _ _ h locale closed_nil
  rwa [List.append_nil, matches_nil.2] at hpass

theorem pass_comma : Pattern.matchesFrom datePattern before (", ".toList ++ after) =
      Pattern.matchesFrom datePattern (' ' :: ',' :: before) after ∧
    Pattern.matchesFrom timePattern before (", ".toList ++ after) = Pattern.matchesFrom timePattern (' ' :: ',' :: before) after :=
  matches_plain (by decide)

theorem pass_dash : Pattern.matchesFrom datePattern before ("-".toList ++ after) = Pattern.matchesFrom datePattern ('-' :: before) after ∧
    Pattern.matchesFrom timePattern before ("-".toList ++ after) = Pattern.matchesFrom timePattern ('-' :: before) after :=
  matches_plain (by decide)

theorem pass_spaced : Pattern.matchesFrom datePattern before (" - ".toList ++ after) =
      Pattern.matchesFrom datePattern (' ' :: '-' :: ' ' :: before) after ∧
    Pattern.matchesFrom timePattern before (" - ".toList ++ after) =
      Pattern.matchesFrom timePattern (' ' :: '-' :: ' ' :: before) after :=
  matches_plain (by decide)

variable {first last : ExcuseAbsence}

/-- **The dates that are read of a subject.** -/
theorem subject_dates (hfirst : first.Sound) (hlast : last.Sound) (locale : ExcuseLocale) (before : List Char) :
    Pattern.matchesFrom datePattern before (subjectSpan first last locale).toList =
      if first.startDate = last.endDate then [first.startDate] else [first.startDate, last.endDate] := by
  have hdash : ∀ rest, Closed ("-".toList ++ rest) := closed_cons (.inr (.inl rfl))
  have hspaced : ∀ rest, Closed (" - ".toList ++ rest) := fun rest => closed_cons (c := ' ') (.inl rfl) _
  unfold subjectSpan
  dsimp only
  split
  · split
    · simp only [String.toList_append, List.append_assoc]
      rw [dates_read hfirst.startDate, pass_comma.1, dates_pass_clock hfirst.startTime (hdash _), pass_dash.1,
        dates_end_clock hlast.endTime]
    · exact dates_end hfirst.startDate locale
  · split
    · simp only [String.toList_append, List.append_assoc]
      rw [dates_read hfirst.startDate, pass_comma.1, dates_pass_clock hfirst.startTime (hspaced _), pass_spaced.1,
        dates_read hlast.endDate, pass_comma.1, dates_end_clock hlast.endTime]
    · simp only [String.toList_append, List.append_assoc]
      rw [dates_read hfirst.startDate, pass_spaced.1, dates_end hlast.endDate]

/-- **The times that are read of a subject.** -/
theorem subject_times (hfirst : first.Sound) (hlast : last.Sound) (locale : ExcuseLocale) (before : List Char) :
    Pattern.matchesFrom timePattern before (subjectSpan first last locale).toList =
      if hasTimes first || hasTimes last then [first.startTime, last.endTime] else [] := by
  have hcomma : ∀ rest, Closed (", ".toList ++ rest) := fun rest => closed_cons (c := ',') (.inr (.inr rfl)) _
  have hspaced : ∀ rest, Closed (" - ".toList ++ rest) := fun rest => closed_cons (c := ' ') (.inl rfl) _
  unfold subjectSpan
  dsimp only
  split
  · split
    · simp only [String.toList_append, List.append_assoc]
      rw [times_pass_dateText hfirst.startDate locale (hcomma _), pass_comma.2, times_read hfirst.startTime rfl rfl, pass_dash.2,
        times_end hlast.endTime rfl]
    · exact times_end_dateText hfirst.startDate locale
  · split
    · simp only [String.toList_append, List.append_assoc]
      rw [times_pass_dateText hfirst.startDate locale (hcomma _), pass_comma.2, times_read hfirst.startTime rfl rfl, pass_spaced.2,
        times_pass_dateText hlast.endDate locale (hcomma _), pass_comma.2, times_end hlast.endTime rfl]
    · simp only [String.toList_append, List.append_assoc]
      rw [times_pass_dateText hfirst.startDate locale (hspaced _), pass_spaced.2, times_end_dateText hlast.endDate]

/-- What stands before the span in a subject. -/
def opening (locale : ExcuseLocale) : List Char := (TEXT locale).prefixText.toList ++ ": ".toList

theorem opening_eq (locale : ExcuseLocale) (span : String) :
    ((TEXT locale).prefixText ++ ": " ++ span).toList = opening locale ++ span.toList := by
  rw [String.toList_append, String.toList_append, opening]

theorem opening_plain (locale : ExcuseLocale) : ((opening locale).all fun c => !c.isDigit) = true := by cases locale <;> decide +kernel

theorem opening_ascii (locale : ExcuseLocale) : (opening locale).all (·.toNat < 128) = true := by cases locale <;> decide +kernel

theorem opening_read (locale : ExcuseLocale) :
    ((TEXT locale).prefixText.toList.map Char.toLower ++ [':']).isPrefixOf ((opening locale).map Char.toLower) = true := by
  cases locale <;> decide +kernel

theorem dg_ascii (n : ℕ) : (dg n).toNat < 128 ∧ isSpace (dg n) = false := by
  have hall : ∀ k < 10, (Nat.digitChar k).toNat < 128 ∧ isSpace (Nat.digitChar k) = false := by decide +kernel
  exact hall (n % 10) (Nat.mod_lt n (by decide))

/-- What a subject may end with. -/
def Plain (text : List Char) : Prop := text.all (·.toNat < 128) = true ∧ ∃ n, text.getLast? = some (dg n)

theorem Plain.append {text : List Char} (pre : List Char) (hpre : pre.all (·.toNat < 128) = true) (h : Plain text) : Plain (pre ++ text) := by
  obtain ⟨hascii, n, hlast⟩ := h
  refine ⟨by rw [List.all_append, hpre, hascii]; rfl, n, ?_⟩
  rw [List.getLast?_append, hlast]
  rfl

theorem plain_date {d : ℕ} (h : IsDate d) (locale : ExcuseLocale) : Plain (date d locale).toList := by
  rw [date_toList h]
  have hsep : (TEXT locale).sep.toNat < 128 := by cases locale <;> decide
  exact ⟨by simp [dateChars, dg_ascii, hsep], _, rfl⟩

theorem plain_clock {t : ℕ} (h : IsClock t) : Plain (clock t).toList := by
  rw [clock_toList h]
  exact ⟨by simp [timeChars, dg_ascii], _, rfl⟩

theorem plain_subject (hfirst : first.Sound) (hlast : last.Sound) (locale : ExcuseLocale) :
    Plain (subjectSpan first last locale).toList := by
  have hdate := (plain_date hfirst.startDate locale).1
  have hdate' := (plain_date hlast.endDate locale).1
  have hclock := (plain_clock hfirst.startTime).1
  unfold subjectSpan
  dsimp only
  split
  · split
    · simp only [String.toList_append]
      exact (plain_clock hlast.endTime).append _ (by simp only [List.all_append, hdate, hclock]; rfl)
    · exact plain_date hfirst.startDate locale
  · split
    · simp only [String.toList_append]
      exact (plain_clock hlast.endTime).append _ (by simp only [List.all_append, hdate, hdate', hclock]; rfl)
    · simp only [String.toList_append]
      exact (plain_date hlast.endDate locale).append _ (by simp only [List.all_append, hdate]; rfl)

theorem isPrefixOf_append {p text : List Char} (h : p.isPrefixOf text = true) (rest : List Char) : p.isPrefixOf (text ++ rest) = true := by
  rw [List.isPrefixOf_iff_prefix] at h ⊢
  exact h.trans (List.prefix_append text rest)

/-- A subject is read as it is. -/
theorem parse_opening (unicode : List Char → List Char) (locale : ExcuseLocale) {span : List Char} (h : Plain span) :
    parseExcuseSubject unicode (opening locale ++ span) =
      spanOf (Pattern.matchAll datePattern (opening locale ++ span))
        ((Pattern.matchAll timePattern (opening locale ++ span)).filter fun t => t / 100 < 24 && t % 100 < 60) := by
  obtain ⟨hascii, n, hend⟩ := h.append (opening locale) (opening_ascii locale)
  have htrim : trim (opening locale ++ span) = opening locale ++ span := by
    obtain ⟨c, hc, hhead⟩ : ∃ c, isSpace c = false ∧ (opening locale).head? = some c := by
      cases locale
      · exact ⟨'E', by decide, rfl⟩
      · exact ⟨'G', by decide, rfl⟩
      · exact ⟨'A', by decide, rfl⟩
    exact trim_eq_self hc (dg_ascii n).2 (by rw [List.head?_append, hhead]; rfl) hend
  have hlower : toLowerCase unicode (opening locale ++ span) = (opening locale).map Char.toLower ++ span.map Char.toLower := by
    rw [toLowerCase, if_pos hascii, List.map_append]
  have hprefix : (PREFIXES.all fun p => ¬ p.isPrefixOf (toLowerCase unicode (opening locale ++ span))) = false := by
    rw [hlower]
    have hread := isPrefixOf_append (opening_read locale) (span.map Char.toLower)
    refine List.all_eq_false.mpr ⟨_, List.mem_map.mpr ⟨locale, by cases locale <;> simp, rfl⟩, ?_⟩
    simp [hread]
  rw [parseExcuseSubject, htrim, hprefix]
  rfl

/-! ### The absences of a subject -/

/-- The absence that starts first, of several the first in the list. -/
def earliest (absences : List ExcuseAbsence) : Option ExcuseAbsence := absences.argmin fun a => (absenceSpan a).start

/-- Higher for the absence that ends later, or at the same time and starts earlier. -/
def rank (a : ExcuseAbsence) : ℕ ×ₗ ℕᵒᵈ := toLex ((absenceSpan a).stop, OrderDual.toDual (absenceSpan a).start)

/-- The absence that ends last, of several the one that starts first, of several of these the first in the list. -/
def latest (absences : List ExcuseAbsence) : Option ExcuseAbsence := absences.argmax rank

theorem rank_lt_iff (a b : ExcuseAbsence) :
    rank a < rank b ↔ (absenceSpan a).stop < (absenceSpan b).stop ∨
      ((absenceSpan a).stop = (absenceSpan b).stop ∧ (absenceSpan b).start < (absenceSpan a).start) := by
  rw [rank, rank, Prod.Lex.toLex_lt_toLex]
  rfl

/-- The first of the sorted absences is the one that starts first. -/
theorem head_sorted (absences : List ExcuseAbsence) : (absences.insertionSort byStart).head? = earliest absences := by
  induction absences with
  | nil => rfl
  | cons a absences ih =>
      rw [earliest] at ih ⊢
      rw [List.argmin_cons, ← ih, List.insertionSort_cons]
      cases hsorted : absences.insertionSort byStart with
      | nil => rfl
      | cons b rest =>
          by_cases hle : byStart a b
          · have hlt : ¬ (absenceSpan b).start < (absenceSpan a).start := Nat.not_lt.mpr hle
            simp [hle, hlt]
          · have hlt : (absenceSpan b).start < (absenceSpan a).start := Nat.lt_of_not_le hle
            simp [hle, hlt]

theorem latest_insert (a : ExcuseAbsence) {sorted : List ExcuseAbsence} (hsorted : sorted.Pairwise byStart) :
    (sorted.orderedInsert byStart a).argmax (fun b => (absenceSpan b).stop) =
      match sorted.argmax (fun b => (absenceSpan b).stop) with
      | none => some a
      | some c => if rank a < rank c then some c else some a := by
  induction sorted with
  | nil => rfl
  | cons b sorted ih =>
      obtain ⟨hb, hrest⟩ := List.pairwise_cons.mp hsorted
      by_cases hle : byStart a b
      · -- `a` starts before all the others, so it is later only when it ends later
        rw [List.orderedInsert_cons_of_le _ _ hle, List.argmax_cons]
        cases hmax : (b :: sorted).argmax fun b => (absenceSpan b).stop with
        | none => rfl
        | some c =>
            have hc : byStart a c := by
              rcases List.mem_cons.mp (List.argmax_mem hmax) with rfl | hc
              · exact hle
              · exact Nat.le_trans hle (hb c hc)
            have hstart : ¬ (absenceSpan c).start < (absenceSpan a).start := Nat.not_lt.mpr hc
            simp [rank_lt_iff, hstart]
      · have hlt : (absenceSpan b).start < (absenceSpan a).start := Nat.lt_of_not_le hle
        rw [List.orderedInsert_cons, if_neg hle, List.argmax_cons, ih hrest, List.argmax_cons]
        cases hmax : sorted.argmax fun b => (absenceSpan b).stop with
        | none =>
            by_cases hba : (absenceSpan b).stop < (absenceSpan a).stop
            · have hab : ¬ rank a < rank b := by rw [rank_lt_iff]; omega
              simp [hba, hab]
            · have hab : rank a < rank b := by rw [rank_lt_iff]; omega
              simp [hba, hab]
        | some c =>
            have hc : (absenceSpan b).start ≤ (absenceSpan c).start := hb c (List.argmax_mem hmax)
            dsimp only
            by_cases hac : rank a < rank c
            · by_cases hbc : (absenceSpan b).stop < (absenceSpan c).stop
              · simp [hac, hbc]
              · have hab : rank a < rank b := by rw [rank_lt_iff] at hac ⊢; omega
                simp [hac, hbc, hab]
            · by_cases hbc : (absenceSpan b).stop < (absenceSpan c).stop
              · have hba : (absenceSpan b).stop < (absenceSpan a).stop := by rw [rank_lt_iff] at hac; omega
                simp [hac, hbc, hba]
              · by_cases hba : (absenceSpan b).stop < (absenceSpan a).stop
                · have hab : ¬ rank a < rank b := by rw [rank_lt_iff]; omega
                  simp [hac, hbc, hba, hab]
                · have hab : rank a < rank b := by rw [rank_lt_iff]; omega
                  simp [hac, hbc, hba, hab]

theorem pairwise_sorted (absences : List ExcuseAbsence) : (absences.insertionSort byStart).Pairwise byStart := by
  have htotal : Std.Total byStart := ⟨fun a b => Nat.le_total _ _⟩
  have htrans : IsTrans ExcuseAbsence byStart := ⟨fun _ _ _ => Nat.le_trans⟩
  exact List.pairwise_insertionSort byStart absences

theorem argmax_sorted (absences : List ExcuseAbsence) :
    (absences.insertionSort byStart).argmax (fun a => (absenceSpan a).stop) = latest absences := by
  induction absences with
  | nil => rfl
  | cons a absences ih =>
      rw [latest] at ih ⊢
      rw [List.argmax_cons, ← ih, List.insertionSort_cons, latest_insert a (pairwise_sorted absences)]
      cases (absences.insertionSort byStart).argmax fun a => (absenceSpan a).stop <;> rfl

/-- The absence that is left of a run through them ends last. -/
theorem foldl_later (a : ExcuseAbsence) (others : List ExcuseAbsence) :
    (a :: others).argmax (fun a => (absenceSpan a).stop) =
      some ((a :: others).foldl (fun max b => if (absenceSpan b).stop > (absenceSpan max).stop then b else max) a) := by
  have hrun : ∀ (others : List ExcuseAbsence) (max : ExcuseAbsence),
      others.foldl (List.argAux fun b c => (absenceSpan c).stop < (absenceSpan b).stop) (some max) =
        some (others.foldl (fun max b => if (absenceSpan b).stop > (absenceSpan max).stop then b else max) max) := by
    intro others
    induction others with
    | nil => exact fun _ => rfl
    | cons b others ih =>
        intro max
        rw [List.foldl_cons, List.foldl_cons, ← ih, List.argAux]
        dsimp only
        split <;> rfl
  rw [List.foldl_cons, if_neg (Nat.lt_irrefl _), ← hrun]
  rfl

/-- **The subject names the absence that starts first and the one that ends last.** -/
theorem compose_subject (input : ExcuseInput) (hne : input.absences ≠ []) :
    ∃ first last e, earliest input.absences = some first ∧ latest input.absences = some last ∧ composeExcuse input = some e ∧
      e.subject = (TEXT input.locale).prefixText ++ ": " ++ subjectSpan first last input.locale := by
  have hhead := head_sorted input.absences
  have hlast := argmax_sorted input.absences
  cases hsorted : input.absences.insertionSort byStart with
  | nil =>
      have hlength := congrArg List.length hsorted
      rw [List.length_insertionSort] at hlength
      exact absurd (List.length_eq_zero_iff.mp hlength) hne
  | cons first others =>
      rw [hsorted] at hhead hlast
      rw [foldl_later] at hlast
      cases hcompose : composeExcuse input with
      | none => simp [composeExcuse, hsorted] at hcompose
      | some e =>
          refine ⟨first, _, e, hhead.symm, hlast.symm, rfl, ?_⟩
          rw [composeExcuse, hsorted] at hcompose
          rw [← Option.some.inj hcompose]

/-! ### Finding an excuse again -/

/-- The subject of an excuse is read as the span from the least start of its absences to the greatest end. -/
def Found (unicode : List Char → List Char) (input : ExcuseInput) : Prop :=
  ∃ e s, composeExcuse input = some e ∧ parseExcuseSubject unicode e.subject.toList = some s ∧
    IsLeast {t | ∃ a ∈ input.absences, (absenceSpan a).start = t} s.start ∧
    IsGreatest {t | ∃ a ∈ input.absences, (absenceSpan a).stop = t} s.stop

theorem earliest_least {absences : List ExcuseAbsence} (h : earliest absences = some first) :
    IsLeast {t | ∃ a ∈ absences, (absenceSpan a).start = t} (absenceSpan first).start := by
  refine ⟨⟨first, List.argmin_mem h, rfl⟩, ?_⟩
  rintro t ⟨a, ha, rfl⟩
  exact List.le_of_mem_argmin (f := fun a => (absenceSpan a).start) ha h

theorem latest_greatest {absences : List ExcuseAbsence} (h : latest absences = some last) :
    IsGreatest {t | ∃ a ∈ absences, (absenceSpan a).stop = t} (absenceSpan last).stop := by
  refine ⟨⟨last, List.argmax_mem h, rfl⟩, ?_⟩
  rintro t ⟨a, ha, rfl⟩
  have hle := List.not_lt_of_mem_argmax ha h
  rw [rank_lt_iff] at hle
  omega

/-- The end that is read of a subject. -/
def readStop (first last : ExcuseAbsence) : ℕ :=
  last.endDate * 10000 + if hasTimes first || hasTimes last then last.endTime else 2359

/-- **What is read of a subject**: the start of its first absence and, of its last one, the day and maybe the time. -/
theorem parse_subject (unicode : List Char → List Char) (hfirst : first.Sound) (hlast : last.Sound) (locale : ExcuseLocale) :
    parseExcuseSubject unicode (opening locale ++ (subjectSpan first last locale).toList) =
      if readStop first last > (absenceSpan first).start then some ⟨(absenceSpan first).start, readStop first last⟩ else none := by
  obtain ⟨hdates, htimes⟩ := @matches_plain [] (subjectSpan first last locale).toList _ (opening_plain locale)
  rw [subject_dates hfirst hlast] at hdates
  rw [subject_times hfirst hlast] at htimes
  rw [parse_opening unicode locale (plain_subject hfirst hlast locale), Pattern.matchAll, Pattern.matchAll, hdates, htimes,
    start_eq hfirst, readStop]
  have hstart := hfirst.startTime
  have hend := hlast.endTime
  have hnone : hasTimes first = false → first.startTime = 0 := by simp [hasTimes]; omega
  cases ht : hasTimes first || hasTimes last with
  | true =>
      by_cases hday : first.startDate = last.endDate <;>
        simp [spanOf, hday, hstart.1, hstart.2, hend.1, hend.2]
  | false =>
      have hzero := hnone (Bool.or_eq_false_iff.mp ht).1
      by_cases hday : first.startDate = last.endDate <;> simp [spanOf, hday, hzero]

/-- **An excuse is found again by its subject** exactly when the absence that ends last has times or the one that starts first has
none. -/
theorem excuse_found_iff (unicode : List Char → List Char) (input : ExcuseInput) (hne : input.absences ≠ [])
    (hsound : ∀ a ∈ input.absences, a.Sound) :
    Found unicode input ↔ ∀ a ∈ earliest input.absences, ∀ b ∈ latest input.absences, hasTimes a = true → hasTimes b = true := by
  obtain ⟨first, last, e, hearliest, hlatest, hcompose, hsubject⟩ := compose_subject input hne
  have hfirst := hsound first (List.argmin_mem hearliest)
  have hlast := hsound last (List.argmax_mem hlatest)
  have hleast := earliest_least hearliest
  have hgreatest := latest_greatest hlatest
  have hparse := parse_subject unicode hfirst hlast input.locale
  rw [← opening_eq, ← hsubject] at hparse
  have hbound : (absenceSpan first).stop ≤ (absenceSpan last).stop := hgreatest.2 ⟨first, List.argmin_mem hearliest, rfl⟩
  have hstop := stop_eq hlast
  rw [hearliest, hlatest]
  constructor
  · rintro ⟨e', s, hcompose', hs, -, hs'⟩ a ha b hb hta
    cases ha
    cases hb
    cases hcompose.symm.trans hcompose'
    by_contra hnone
    have hread : s.stop = readStop first last := by
      rw [hparse] at hs
      split at hs
      · exact congrArg ExcuseSpan.stop (Option.some.inj hs).symm
      · cases hs
    have hzero : last.endTime = 0 := by
      simp [hasTimes] at hnone
      exact hnone.2
    have heq := IsGreatest.unique hs' hgreatest
    rw [hread, readStop, hta, Bool.true_or, if_pos rfl, hzero, hstop, if_neg hnone] at heq
    omega
  · intro h
    have hread : readStop first last = (absenceSpan last).stop := by
      rw [hstop, readStop]
      cases ht : hasTimes last with
      | true => simp
      | false =>
          have hf : hasTimes first = false := by
            cases hf : hasTimes first with
            | false => rfl
            | true => exact absurd (h first rfl last rfl hf) (by simp [ht])
          simp [hf]
    rw [hread, if_pos (Nat.lt_of_lt_of_le hfirst.ends hbound)] at hparse
    exact ⟨e, _, hcompose, hparse, hleast, hgreatest⟩

/-! ### A whole day at the end -/

/-- A lesson missed on a Wednesday, and the whole Friday. -/
def wholeDayLast : ExcuseInput := ⟨[⟨20251217, 750, 20251217, 1305⟩, ⟨20251219, 0, 20251219, 0⟩], .de, none, none, none, none⟩

def oneLesson : ExcuseInput := ⟨[⟨20251217, 750, 20251217, 1305⟩], .it, none, none, none, none⟩

theorem isDate_december {d : ℕ} (h : d = 20251217 ∨ d = 20251219) : IsDate d := by
  rcases h with rfl | rfl <;> exact ⟨by decide, by decide, ⟨by decide, by decide, by decide, by decide⟩⟩

theorem sound_december {a : ExcuseAbsence} (h : a ∈ wholeDayLast.absences) : a.Sound := by
  simp only [wholeDayLast, List.mem_cons, List.not_mem_nil, or_false] at h
  rcases h with rfl | rfl
  · exact ⟨isDate_december (.inl rfl), ⟨by decide, by decide⟩, isDate_december (.inl rfl), ⟨by decide, by decide⟩, by decide⟩
  · exact ⟨isDate_december (.inr rfl), ⟨by decide, by decide⟩, isDate_december (.inr rfl), ⟨by decide, by decide⟩, by decide⟩

theorem oneLesson_found : Found id oneLesson := by
  refine (excuse_found_iff id oneLesson (by simp [oneLesson]) fun a ha => sound_december ?_).mpr fun a _ b hb _ => ?_
  · exact List.mem_cons.mpr (.inl (List.mem_singleton.mp ha))
  · have hmem := List.argmax_mem hb
    rw [List.mem_singleton.mp hmem]
    rfl

/-- Excused with a lesson before it, a whole day at the end is not found again. -/
theorem wholeDayLast_lost : ¬ ∀ (unicode : List Char → List Char) (input : ExcuseInput), input.absences ≠ [] →
    (∀ a ∈ input.absences, a.Sound) → Found unicode input := by
  intro h
  obtain ⟨e, s, hcompose, hparse, -, hstop⟩ := h id wholeDayLast (by simp [wholeDayLast]) fun a ha => sound_december ha
  have hread : (composeExcuse wholeDayLast).bind (fun e => parseExcuseSubject id e.subject.toList) =
      some ⟨202512170750, 202512190000⟩ := by decide +kernel
  rw [hcompose, Option.bind_some, hparse] at hread
  have hday : (202512192359 : ℕ) ≤ s.stop := hstop.2 ⟨⟨20251219, 0, 20251219, 0⟩, by simp [wholeDayLast], by decide⟩
  rw [Option.some.inj hread] at hday
  exact absurd hday (by decide)

end Pokyh.Account.Excuses

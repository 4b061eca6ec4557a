import Mathlib.Data.List.Perm.Subperm
import Mathlib.Data.List.Induction
import Mathlib.Data.List.Pairwise
import Mathlib.Data.List.Sort
import Mathlib.Data.Rat.Floor
import Pokyh.Lib.Calendar
import Pokyh.Lib.Json

/-!
# School — Holidays

The school's holidays as WebUntis lists them (`webuntis/holidays.ts`): overlapping and adjoining entries merged into one break, and
what of it is kept for the school's menu.  Dates are eight digits; whether they are in the calendar is only looked at where one is
read as a day.
-/

namespace Pokyh.School
open Pokyh.Lib

structure Holiday where
  /-- First day off. -/
  start : ℤ
  /-- Last day off. -/
  last : ℤ
  /-- The names WebUntis gives the merged entries, the most telling first. -/
  names : List Units
  deriving DecidableEq

/-- Eight digits. -/
def ymd : Number → Option ℤ
  | .finite n => if n = ⌊n⌋ ∧ 10000000 ≤ n ∧ n ≤ 99999999 then some ⌊n⌋ else none
  | _ => none

/-- 31 December 9999. -/
def LAST_DATE : ℤ := 99991231

/-- The first ten characters of a day from `toISOString`.  A year after 9999 gets a sign, which is before every digit: 0 here. -/
def isoDate (day : ℤ) : ℤ := if stampOf day ≤ LAST_DATE then stampOf day else 0

/-- `none`: what is no day has no next one, and `toISOString` throws. -/
def nextDay (date : ℤ) : Option ℤ := (readDate date).map fun day => isoDate (day + 1)

def PLACEHOLDERS : List String := ["ferien", "feiertag", "holiday", "vacanza", "vacanze", "frei"]

def isDigitUnit (u : UInt16) : Bool := (digitOf u).isSome

/-- "Ferien3", "Feiertag", "8.12.": a placeholder, not a name. -/
def isPlaceholderName (name : Units) : Bool :=
  let n := trimUnits name
  n.isEmpty ||
    PLACEHOLDERS.any (fun word => (units word).isPrefixOf (n.map lowerUnit) &&
      ((n.drop (units word).length).dropWhile isSpaceUnit).all isDigitUnit) ||
    n.all fun u => isDigitUnit u || u ∈ units "./-" || isSpaceUnit u

/-- The telling names of an entry. -/
def namesOf (item : Json) : List Units :=
  let texts := [item.get "longName", item.get "name"].filterMap fun v => match v with
    | some (.string name) => some (trimUnits name)
    | _ => none
  (texts.filter fun name => !name.isEmpty && !isPlaceholderName name).reverse.dedup.reverse

/-- What `Number(v)` gives, `none` being `undefined`. -/
abbrev NumberOf := Option Json → Number

/-- An entry, if its dates are eight digits each and the last is not before the first. -/
def entryOf (x : NumberOf) (item : Json) : Option Holiday := do
  let start ← ymd (x (item.get "startDate"))
  let last ← ymd (x (item.get "endDate"))
  if start ≤ last then some ⟨start, last, namesOf item⟩ else none

def Holiday.before (a b : Holiday) : Prop := a.start < b.start ∨ (a.start = b.start ∧ a.last ≤ b.last)

instance : DecidableRel Holiday.before := fun _ _ => inferInstanceAs (Decidable (_ ∨ _))

/-- The entries that end on `fromDay` or later, in order. -/
def entriesFrom (x : NumberOf) (items : List Json) (fromDay : ℤ) : List Holiday :=
  ((items.filterMap (entryOf x)).filter (fromDay ≤ ·.last)).insertionSort Holiday.before

/-- The break with an entry that overlaps or adjoins it. -/
def Holiday.with (last h : Holiday) : Holiday where
  start := last.start
  last := if last.last < h.last then h.last else last.last
  names := h.names.foldl (fun names name => if name ∈ names then names else names ++ [name]) last.names

/-- The breaks from `last` on; `none` when a date throws. -/
def mergeFrom (last : Holiday) : List Holiday → Option (List Holiday)
  | [] => some [last]
  | h :: entries => do
    let next ← nextDay last.last
    if h.start ≤ next then mergeFrom (last.with h) entries else (last :: ·) <$> mergeFrom h entries

def merge : List Holiday → Option (List Holiday)
  | [] => some []
  | h :: entries => mergeFrom h entries

def itemsOf : Option Json → Option (List Json)
  | some (.array items) => some items
  | _ => none

def readHolidays (x : NumberOf) (result : Option Json) (fromDay : ℤ) : Option (List Holiday) :=
  match itemsOf result with
  | none => some []
  | some items => merge (entriesFrom x items fromDay)

/-- The summer holidays are about 12 weeks. -/
def MAX_BREAK_DAYS : ℤ := 120

def MAX_BREAKS : ℕ := 200

/-- `none` is `NaN`. -/
def lengthInDays (start last : ℤ) : Option ℤ := do return (← readDate last) - (← readDate start)

def isShort (start last : ℤ) : Bool := (lengthInDays start last).any (· < MAX_BREAK_DAYS)

/-- A break not longer than any real one. -/
def isBelievable (x : NumberOf) (item : Json) : Bool :=
  match ymd (x (item.get "startDate")), ymd (x (item.get "endDate")) with
  | some start, some last => isShort start last
  | _, _ => false

/-- What is kept of a school's holidays for its menu. -/
def storableHolidays (x : NumberOf) (result : Option Json) (fromDay : ℤ) : Option (List Holiday) :=
  match itemsOf result with
  | none => some []
  | some items => do
    let holidays ← readHolidays x (some (.array (items.filter (isBelievable x)))) fromDay
    return ((holidays.filter fun h => isShort h.start h.last).take MAX_BREAKS).map fun h =>
      { h with names := (h.names.take 5).map (·.take 80) }

/-! ### Groups of entries -/

/-- The entries that count: of all with eight-digit dates, those that end on `fromDay` or later. -/
def acceptedEntries (x : NumberOf) (result : Option Json) (fromDay : ℤ) : List Holiday :=
  entriesFrom x ((itemsOf result).getD []) fromDay

/-- Of these, the ones not longer than any real break. -/
def believableEntries (x : NumberOf) (result : Option Json) (fromDay : ℤ) : List Holiday :=
  entriesFrom x (((itemsOf result).getD []).filter (isBelievable x)) fromDay

def Holiday.has (h : Holiday) (day : ℤ) : Prop := h.start ≤ stampOf day ∧ stampOf day ≤ h.last

/-- The latest end. -/
def latest (entries : List Holiday) : ℤ := entries.foldl (fun m h => max m h.last) 0

def earliest (entries : List Holiday) : ℤ := (entries.head?.map Holiday.start).getD 0

/-- The entry starts no later than on the day after `last`. -/
def Joins (last : ℤ) (h : Holiday) : Prop := ∃ next ∈ nextDay last, h.start ≤ next

instance (last : ℤ) (h : Holiday) : Decidable (Joins last h) :=
  match hnext : nextDay last with
  | none => isFalse (by simp [Joins, hnext])
  | some next => decidable_of_iff (h.start ≤ next) (by simp [Joins, hnext])

/-- The groups of entries that follow one another without a gap, the first of them begun. -/
def groupsFrom (group : List Holiday) : List Holiday → List (List Holiday)
  | [] => [group]
  | h :: entries => if Joins (latest group) h then groupsFrom (group ++ [h]) entries else group :: groupsFrom [h] entries

def groups : List Holiday → List (List Holiday)
  | [] => []
  | h :: entries => groupsFrom [h] entries

/-- Every day from the first date to the last is one of an entry. -/
def Covered (entries : List Holiday) (start last : ℤ) : Prop :=
  ∀ day, start ≤ stampOf day → stampOf day ≤ last → ∃ e ∈ entries, e.has day

/-- No day is left out between the entries of a group. -/
def Filled (entries group : List Holiday) : Prop := Covered entries (earliest group) (latest group)

/-- Wherever another entry follows, the latest end so far can be read as a day before the last one. -/
def Readable (entries : List Holiday) : Prop :=
  ∀ seen h rest, entries = seen ++ h :: rest → seen ≠ [] → ∃ day ∈ readDate (latest seen), stampOf day < LAST_DATE

/-- A day lies between one break and the next. -/
def Apart (breaks : List Holiday) : Prop := breaks.Pairwise fun b b' => ∃ day, b.last < stampOf day ∧ stampOf day < b'.start

/-- The breaks are in order, disjoint and not adjoining, and cover exactly the days of the entries; an entry that is `beyond` them may
be missing. -/
structure Whole (entries breaks : List Holiday) (beyond : Holiday → Prop) : Prop where
  nonempty : ∀ b ∈ breaks, b.start ≤ b.last
  apart : Apart breaks
  onlyDays : ∀ b ∈ breaks, ∀ day, b.has day → ∃ e ∈ entries, e.has day
  allEntries : ∀ e ∈ entries, (∃ b ∈ breaks, b.start ≤ e.start ∧ e.last ≤ b.last) ∨ beyond e

def ReadsWhole (x : NumberOf) (result : Option Json) (fromDay : ℤ) : Prop :=
  ∃ breaks, readHolidays x result fromDay = some breaks ∧ Whole (acceptedEntries x result fromDay) breaks fun _ => False

/-- The first `MAX_BREAKS` breaks are kept. -/
def StoresWhole (x : NumberOf) (result : Option Json) (fromDay : ℤ) : Prop :=
  ∃ breaks, storableHolidays x result fromDay = some breaks ∧ breaks.length ≤ MAX_BREAKS ∧
    Whole (believableEntries x result fromDay) breaks fun e => breaks.length = MAX_BREAKS ∧ ∀ b ∈ breaks, b.last < e.start

variable {x : NumberOf} {result : Option Json} {fromDay m next day : ℤ} {items : List Json} {h last b : Holiday}
  {entries seen group breaks : List Holiday}

/-! ### Days and entries -/

/-- The last day that a date of four digits for the year can be. -/
def lastDay : ℤ := dayNumber 9999 12 31

theorem stampOf_lastDay : stampOf lastDay = LAST_DATE := by decide +kernel

theorem stampOf_lt_last {day : ℤ} : stampOf day < LAST_DATE ↔ day < lastDay := by
  rw [← stampOf_lastDay, stampOf_lt_iff]

theorem nextDay_eq {day : ℤ} (hday : readDate m = some day) :
    nextDay m = some (if day < lastDay then stampOf (day + 1) else 0) := by
  have hnext : stampOf (day + 1) ≤ LAST_DATE ↔ day < lastDay := by
    rw [← stampOf_lastDay, stampOf_le_iff]
    omega
  simp only [nextDay, hday, Option.map_some, isoDate, hnext]

theorem readDate_last {day : ℤ} (hday : readDate m = some day) (hm : m ≤ 99999999) (hlate : lastDay ≤ day) : m = LAST_DATE :=
  eq_of_readDate_last hday (by omega) hlate

/-- No day lies behind the last one. -/
theorem not_between (day : ℤ) : ¬(LAST_DATE < stampOf day ∧ stampOf day < 99999999) := by
  rintro ⟨hlt, hlt'⟩
  obtain ⟨-, hmonth, hday⟩ := stampOf_bounds day
  have hreal := civilOf_real day
  have hlong := monthLength_le (isLeap (civilOf day).year) hreal.month_pos hreal.month_le
  have h₁₂ := hreal.month_le
  have hle := hreal.day_le
  simp only [LAST_DATE] at hlt
  omega

theorem latest_append (entries : List Holiday) (h : Holiday) : latest (entries ++ [h]) = max (latest entries) h.last := by
  simp [latest]

theorem le_latest (hmem : h ∈ entries) : h.last ≤ latest entries := by
  induction entries using List.reverseRecOn with
  | nil => cases hmem
  | append_singleton entries e ih =>
    rw [latest_append]
    rcases List.mem_append.mp hmem with hmem | hmem
    · exact (ih hmem).trans (le_max_left _ _)
    · rw [List.mem_singleton.mp hmem]
      exact le_max_right _ _

theorem ymd_digits {n : Number} (h : ymd n = some m) : 0 < m ∧ m ≤ 99999999 := by
  cases n with
  | finite n =>
    simp only [ymd] at h
    split at h
    · rename_i hdigits
      obtain rfl := Option.some.inj h
      have hle : (10000000 : ℤ) ≤ ⌊n⌋ := Int.le_floor.mpr (by exact_mod_cast hdigits.2.1)
      have hfits : ⌊n⌋ ≤ (99999999 : ℤ) := by exact_mod_cast (Int.floor_le n).trans hdigits.2.2
      omega
    · cases h
  | infinite | notANumber => cases h

theorem entriesFrom_valid (hmem : h ∈ entriesFrom x items fromDay) :
    h.start ≤ h.last ∧ 0 < h.start ∧ h.last ≤ 99999999 := by
  rw [entriesFrom, List.mem_insertionSort, List.mem_filter, List.mem_filterMap] at hmem
  obtain ⟨⟨item, -, hentry⟩, -⟩ := hmem
  simp only [entryOf, Option.bind_eq_bind, Option.bind_eq_some_iff] at hentry
  obtain ⟨start, hstart, last, hlast, hentry⟩ := hentry
  split at hentry
  · rename_i hle
    obtain rfl := Option.some.inj hentry
    exact ⟨hle, (ymd_digits hstart).1, (ymd_digits hlast).2⟩
  · cases hentry

theorem before_trans {a b c : Holiday} (hab : a.before b) (hbc : b.before c) : a.before c := by
  simp only [Holiday.before] at *
  omega

theorem before_total (a b : Holiday) : a.before b ∨ b.before a := by
  simp only [Holiday.before]
  omega

instance : IsTrans Holiday Holiday.before := ⟨fun _ _ _ => before_trans⟩

instance : Std.Total Holiday.before := ⟨before_total⟩

/-- The entries are in order of their starts. -/
theorem entriesFrom_pairwise (x : NumberOf) (items : List Json) (fromDay : ℤ) :
    (entriesFrom x items fromDay).Pairwise fun a b => a.start ≤ b.start := by
  refine (List.pairwise_insertionSort Holiday.before _).imp fun h => ?_
  simp only [Holiday.before] at h
  omega

/-! ### Merging -/

theorem last_with (last h : Holiday) : (last.with h).last = max last.last h.last := by
  simp only [Holiday.with]
  split <;> omega

/-- After the entries `seen`, every other one follows a date that can be read as a day before the last one. -/
def ReadableFrom (seen entries : List Holiday) : Prop :=
  ∀ more h rest, entries = more ++ h :: rest → ∃ day ∈ readDate (latest (seen ++ more)), stampOf day < LAST_DATE

theorem readableFrom_cons : ReadableFrom seen (h :: entries) ↔
    (∃ day ∈ readDate (latest seen), stampOf day < LAST_DATE) ∧ ReadableFrom (seen ++ [h]) entries := by
  constructor
  · intro hall
    refine ⟨by simpa using hall [] h entries rfl, fun more h' rest heq => ?_⟩
    simpa using hall (h :: more) h' rest (by rw [heq, List.cons_append])
  · rintro ⟨hfirst, hall⟩ more h' rest heq
    cases more with
    | nil => simpa using hfirst
    | cons e more =>
      obtain ⟨rfl, hbehind⟩ := List.cons.inj heq
      simpa using hall more h' rest hbehind

theorem readable_cons : Readable (h :: entries) ↔ ReadableFrom [h] entries := by
  constructor
  · intro hall more h' rest heq
    exact hall (h :: more) h' rest (by rw [heq, List.cons_append]) (by simp)
  · intro hall seen h' rest heq hne
    cases seen with
    | nil => exact absurd rfl hne
    | cons e seen =>
      obtain ⟨rfl, hbehind⟩ := List.cons.inj heq
      exact hall seen h' rest hbehind

/-- What follows a day before the last one. -/
theorem nextDay_of_readable (hread : ∃ day ∈ readDate m, stampOf day < LAST_DATE) :
    ∃ day, nextDay m = some (stampOf day) ∧ m < stampOf day := by
  obtain ⟨day, hday, hlt⟩ := hread
  refine ⟨day + 1, by rw [nextDay_eq hday, if_pos (stampOf_lt_last.mp hlt)], ?_⟩
  have hle := le_stampOf_readDate hday
  have hnext : stampOf day < stampOf (day + 1) := stampOf_lt_iff.mpr (by omega)
  omega

theorem latest_with (hlast : last.last = latest seen) (h : Holiday) : (last.with h).last = latest (seen ++ [h]) := by
  rw [last_with, hlast, latest_append]

/-- Behind a gap, the latest end is the next entry's. -/
theorem last_behind_gap (hvalid : h.start ≤ h.last) (hlt : latest seen < next) (hgap : ¬h.start ≤ next) :
    h.last = latest (seen ++ [h]) := by
  rw [latest_append]
  omega

theorem mergeFrom_isSome (hlast : last.last = latest seen) (hvalid : ∀ h ∈ entries, h.start ≤ h.last)
    (hread : ReadableFrom seen entries) : (mergeFrom last entries).isSome = true := by
  induction entries generalizing last seen with
  | nil => rfl
  | cons h entries ih =>
    obtain ⟨hfirst, hrest⟩ := readableFrom_cons.mp hread
    obtain ⟨day, hnext, hlt⟩ := nextDay_of_readable hfirst
    have hvalid' : ∀ h ∈ entries, h.start ≤ h.last := fun e he => hvalid e (List.mem_cons_of_mem _ he)
    rw [mergeFrom, hlast, hnext]
    simp only [Option.bind_eq_bind, Option.bind_some]
    split
    · exact ih (latest_with hlast h) hvalid' hrest
    · rename_i hgap
      rw [Option.map_eq_map, Option.isSome_map]
      exact ih (last_behind_gap (hvalid h List.mem_cons_self) hlt hgap) hvalid' hrest

/-- A break begins where its first entry does. -/
theorem mergeFrom_starts (hmerge : mergeFrom last entries = some breaks) (hsorted : ∀ h ∈ entries, last.start ≤ h.start)
    (hpair : entries.Pairwise fun a b => a.start ≤ b.start) : ∀ b ∈ breaks, last.start ≤ b.start := by
  induction entries generalizing last breaks with
  | nil =>
    obtain rfl : [last] = breaks := by simpa [mergeFrom] using hmerge
    simp
  | cons h entries ih =>
    obtain ⟨hbehind, hrest⟩ := List.pairwise_cons.mp hpair
    obtain ⟨next, hnext, hmerge⟩ := Option.bind_eq_some_iff.mp hmerge
    split at hmerge
    · have hwith := ih hmerge (fun e he => hsorted e (List.mem_cons_of_mem _ he)) hrest
      exact hwith
    · obtain ⟨breaks', hrestMerge, rfl⟩ := Option.map_eq_some_iff.mp hmerge
      intro b hb
      rcases List.mem_cons.mp hb with rfl | hb
      · exact le_rfl
      · exact (hsorted h List.mem_cons_self).trans (ih hrestMerge hbehind hrest b hb)

/-- Merged, the entries are apart. -/
theorem mergeFrom_apart (hmerge : mergeFrom last entries = some breaks) (hlast : last.last = latest seen)
    (hvalid : ∀ h ∈ entries, h.start ≤ h.last) (hread : ReadableFrom seen entries)
    (hpair : entries.Pairwise fun a b => a.start ≤ b.start) : Apart breaks := by
  induction entries generalizing last seen breaks with
  | nil =>
    obtain rfl : [last] = breaks := by simpa [mergeFrom] using hmerge
    simp [Apart]
  | cons h entries ih =>
    obtain ⟨hfirst, hreadRest⟩ := readableFrom_cons.mp hread
    obtain ⟨day, hnext, hlt⟩ := nextDay_of_readable hfirst
    have hvalid' : ∀ h ∈ entries, h.start ≤ h.last := fun e he => hvalid e (List.mem_cons_of_mem _ he)
    obtain ⟨hbehind, hrest⟩ := List.pairwise_cons.mp hpair
    rw [mergeFrom, hlast, hnext] at hmerge
    simp only [Option.bind_eq_bind, Option.bind_some] at hmerge
    split at hmerge
    · exact ih hmerge (latest_with hlast h) hvalid' hreadRest hrest
    · rename_i hgap
      obtain ⟨breaks', hrestMerge, rfl⟩ := Option.map_eq_some_iff.mp hmerge
      have hgapLast := last_behind_gap (hvalid h List.mem_cons_self) hlt hgap
      refine .cons (fun b hb => ⟨day, by rwa [hlast], ?_⟩) (ih hrestMerge hgapLast hvalid' hreadRest hrest)
      have hstart := mergeFrom_starts hrestMerge hbehind hrest b hb
      omega

/-- Merged, every entry lies in a break, and each break is in order. -/
theorem mergeFrom_holds (hmerge : mergeFrom last entries = some breaks) (hvalid : ∀ h ∈ entries, h.start ≤ h.last)
    (hsorted : ∀ h ∈ entries, last.start ≤ h.start) (hpair : entries.Pairwise fun a b => a.start ≤ b.start)
    (hlast : last.start ≤ last.last) :
    (∀ b ∈ breaks, b.start ≤ b.last) ∧ (∃ b ∈ breaks, b.start = last.start ∧ last.last ≤ b.last) ∧
      ∀ h ∈ entries, ∃ b ∈ breaks, b.start ≤ h.start ∧ h.last ≤ b.last := by
  induction entries generalizing last breaks with
  | nil =>
    obtain rfl : [last] = breaks := by simpa [mergeFrom] using hmerge
    simpa using hlast
  | cons h entries ih =>
    obtain ⟨hbehind, hrest⟩ := List.pairwise_cons.mp hpair
    have hvalid' : ∀ h ∈ entries, h.start ≤ h.last := fun e he => hvalid e (List.mem_cons_of_mem _ he)
    have hstart := hsorted h List.mem_cons_self
    obtain ⟨next, -, hmerge⟩ := Option.bind_eq_some_iff.mp hmerge
    split at hmerge
    · have hwith := last_with last h
      obtain ⟨hnonempty, ⟨b, hb, hbstart, hblast⟩, hall⟩ := ih hmerge hvalid' (fun e he => hsorted e (List.mem_cons_of_mem _ he)) hrest
        (by rw [hwith]; exact hlast.trans (le_max_left _ _))
      rw [hwith] at hblast
      have hbstart : b.start = last.start := hbstart
      refine ⟨hnonempty, ⟨b, hb, hbstart, by omega⟩, fun e he => ?_⟩
      rcases List.mem_cons.mp he with rfl | he
      · exact ⟨b, hb, by omega, by omega⟩
      · exact hall e he
    · obtain ⟨breaks', hrestMerge, rfl⟩ := Option.map_eq_some_iff.mp hmerge
      obtain ⟨hnonempty, ⟨b, hb, hbstart, hblast⟩, hall⟩ := ih hrestMerge hvalid' hbehind hrest (hvalid h List.mem_cons_self)
      refine ⟨?_, ⟨last, List.mem_cons_self, rfl, le_rfl⟩, fun e he => ?_⟩
      · intro b hb
        rcases List.mem_cons.mp hb with rfl | hb
        · exact hlast
        · exact hnonempty b hb
      · rcases List.mem_cons.mp he with rfl | he
        · exact ⟨b, List.mem_cons_of_mem _ hb, hbstart.le, hblast⟩
        · obtain ⟨b, hb, hin⟩ := hall e he
          exact ⟨b, List.mem_cons_of_mem _ hb, hin⟩

/-- The breaks are the spans of the groups. -/
theorem mergeFrom_spans (hmerge : mergeFrom last entries = some breaks) (hstart : last.start = earliest group)
    (hlast : last.last = latest group) (hne : group ≠ []) (hpos : ∀ h ∈ entries, 0 < h.last) :
    breaks.map (fun b => (b.start, b.last)) = (groupsFrom group entries).map fun g => (earliest g, latest g) := by
  induction entries generalizing last group breaks with
  | nil =>
    obtain rfl : [last] = breaks := by simpa [mergeFrom] using hmerge
    simp [groupsFrom, hstart, hlast]
  | cons h entries ih =>
    have hpos' : ∀ h ∈ entries, 0 < h.last := fun e he => hpos e (List.mem_cons_of_mem _ he)
    obtain ⟨next, hnext, hmerge⟩ := Option.bind_eq_some_iff.mp hmerge
    rw [hlast] at hnext
    have hjoins : Joins (latest group) h ↔ h.start ≤ next := by simp [Joins, hnext]
    rw [groupsFrom]
    split at hmerge
    · rename_i hle
      rw [if_pos (hjoins.mpr hle)]
      refine ih hmerge ?_ (by rw [last_with, hlast, latest_append]) (by simp) hpos'
      simp only [Holiday.with, hstart, earliest]
      rw [List.head?_append_of_ne_nil _ hne]
    · rename_i hgap
      rw [if_neg (mt hjoins.mp hgap)]
      obtain ⟨breaks', hrestMerge, rfl⟩ := Option.map_eq_some_iff.mp hmerge
      have hfirst : h.last = latest [h] := by
        have := hpos h List.mem_cons_self
        simp only [latest, List.foldl_cons, List.foldl_nil]
        omega
      rw [List.map_cons, List.map_cons, hstart, hlast, ih hrestMerge rfl hfirst (by simp) hpos']

/-- A break begins with an entry. -/
theorem mergeFrom_begins (hmerge : mergeFrom last entries = some breaks) (hb : b ∈ breaks) :
    (b.start = last.start ∧ last.last ≤ b.last) ∨ ∃ h ∈ entries, b.start = h.start ∧ h.last ≤ b.last := by
  induction entries generalizing last breaks with
  | nil =>
    obtain rfl : [last] = breaks := by simpa [mergeFrom] using hmerge
    rw [List.mem_singleton.mp hb]
    exact .inl ⟨rfl, le_rfl⟩
  | cons h entries ih =>
    obtain ⟨next, -, hmerge⟩ := Option.bind_eq_some_iff.mp hmerge
    split at hmerge
    · rcases ih hmerge hb with ⟨hstart, hlast⟩ | ⟨e, he, hin⟩
      · rw [last_with] at hlast
        exact .inl ⟨hstart, (le_max_left _ _).trans hlast⟩
      · exact .inr ⟨e, List.mem_cons_of_mem _ he, hin⟩
    · obtain ⟨breaks', hrestMerge, rfl⟩ := Option.map_eq_some_iff.mp hmerge
      rcases List.mem_cons.mp hb with rfl | hb
      · exact .inl ⟨rfl, le_rfl⟩
      · rcases ih hrestMerge hb with hin | ⟨e, he, hin⟩
        · exact .inr ⟨h, List.mem_cons_self, hin⟩
        · exact .inr ⟨e, List.mem_cons_of_mem _ he, hin⟩

/-- The breaks are apart only where every other entry follows a day before the last one. -/
theorem mergeFrom_readable (hmerge : mergeFrom last entries = some breaks) (hlast : last.last = latest seen)
    (hvalid : ∀ h ∈ entries, h.start ≤ h.last) (hdigits : ∀ h ∈ last :: entries, 0 < h.start ∧ h.last ≤ 99999999)
    (hsorted : ∀ h ∈ entries, last.start ≤ h.start) (hpair : entries.Pairwise fun a b => a.start ≤ b.start) (hapart : Apart breaks) :
    ReadableFrom seen entries := by
  induction entries generalizing last seen breaks with
  | nil => simp [ReadableFrom]
  | cons h entries ih =>
    have hvalid' : ∀ h ∈ entries, h.start ≤ h.last := fun e he => hvalid e (List.mem_cons_of_mem _ he)
    have hstart := hsorted h List.mem_cons_self
    have hh := hvalid h List.mem_cons_self
    obtain ⟨hlastPos, hlastFits⟩ := hdigits last List.mem_cons_self
    obtain ⟨hpos, hfits⟩ := hdigits h (by simp)
    obtain ⟨hbehind, hrest⟩ := List.pairwise_cons.mp hpair
    obtain ⟨next, hnext, hmerge⟩ := Option.bind_eq_some_iff.mp hmerge
    obtain ⟨day, hday, -⟩ := Option.map_eq_some_iff.mp hnext
    rw [readableFrom_cons]
    rw [hlast] at hday hnext hlastFits
    by_cases hlate : day < lastDay
    · have hread : ∃ day ∈ readDate (latest seen), stampOf day < LAST_DATE := ⟨day, hday, stampOf_lt_last.mpr hlate⟩
      obtain ⟨day', hnext', hlt⟩ := nextDay_of_readable hread
      obtain rfl : stampOf day' = next := Option.some.inj (hnext'.symm.trans hnext)
      refine ⟨hread, ?_⟩
      split at hmerge
      · refine ih hmerge (latest_with hlast h) hvalid' (fun e he => ?_) (fun e he => hsorted e (List.mem_cons_of_mem _ he)) hrest hapart
        rcases List.mem_cons.mp he with rfl | he
        · rw [last_with]
          exact ⟨hlastPos, by omega⟩
        · exact hdigits e (by simp [he])
      · rename_i hgap
        obtain ⟨breaks', hrestMerge, rfl⟩ := Option.map_eq_some_iff.mp hmerge
        exact ih hrestMerge (last_behind_gap hh hlt hgap) hvalid' (fun e he => hdigits e (List.mem_cons_of_mem _ he)) hbehind hrest
          (List.pairwise_cons.mp hapart).2
    · -- After the last day, no entry joins the break before it.
      have hend := readDate_last hday hlastFits (by omega)
      rw [nextDay_eq hday, if_neg hlate] at hnext
      obtain rfl := Option.some.inj hnext
      rw [if_neg (by omega)] at hmerge
      obtain ⟨breaks', hrestMerge, rfl⟩ := Option.map_eq_some_iff.mp hmerge
      obtain ⟨-, ⟨b, hb, hbstart, -⟩, -⟩ := mergeFrom_holds hrestMerge hvalid' hbehind hrest hh
      obtain ⟨between, hlt, hlt'⟩ := (List.pairwise_cons.mp hapart).1 b hb
      exact absurd ⟨by omega, by omega⟩ (not_between between)

/-- Entries in order of their starts, as they are read. -/
structure InOrder (entries : List Holiday) : Prop where
  valid : ∀ h ∈ entries, h.start ≤ h.last
  digits : ∀ h ∈ entries, 0 < h.start ∧ h.last ≤ 99999999
  sorted : entries.Pairwise fun a b => a.start ≤ b.start

theorem InOrder.pos (hin : InOrder entries) (hmem : h ∈ entries) : 0 < h.last :=
  (hin.digits h hmem).1.trans_le (hin.valid h hmem)

theorem inOrder_entriesFrom (x : NumberOf) (items : List Json) (fromDay : ℤ) : InOrder (entriesFrom x items fromDay) where
  valid := fun _ h => (entriesFrom_valid h).1
  digits := fun _ h => (entriesFrom_valid h).2
  sorted := entriesFrom_pairwise x items fromDay

theorem latest_single (hpos : 0 < h.last) : latest [h] = h.last := by
  simp only [latest, List.foldl_cons, List.foldl_nil]
  omega

theorem merge_isSome (hin : InOrder entries) (hread : Readable entries) : (merge entries).isSome = true := by
  cases entries with
  | nil => rfl
  | cons h entries =>
    have hsingle := latest_single (hin.pos List.mem_cons_self)
    exact mergeFrom_isSome hsingle.symm (fun e he => hin.valid e (List.mem_cons_of_mem _ he)) (readable_cons.mp hread)

theorem merge_readable (hin : InOrder entries) (hmerge : merge entries = some breaks) (hapart : Apart breaks) : Readable entries := by
  cases entries with
  | nil =>
    intro seen h rest heq
    simp at heq
  | cons h entries =>
    obtain ⟨hbehind, hsorted⟩ := List.pairwise_cons.mp hin.sorted
    have hsingle := latest_single (hin.pos List.mem_cons_self)
    exact readable_cons.mpr (mergeFrom_readable hmerge hsingle.symm (fun e he => hin.valid e (List.mem_cons_of_mem _ he)) hin.digits
      hbehind hsorted hapart)

/-- What merging gives. -/
structure Merged (entries breaks : List Holiday) : Prop where
  nonempty : ∀ b ∈ breaks, b.start ≤ b.last
  apart : Apart breaks
  all : ∀ h ∈ entries, ∃ b ∈ breaks, b.start ≤ h.start ∧ h.last ≤ b.last
  begins : ∀ b ∈ breaks, ∃ h ∈ entries, b.start = h.start ∧ h.last ≤ b.last
  spans : breaks.map (fun b => (b.start, b.last)) = (groups entries).map fun g => (earliest g, latest g)

theorem merged_of_merge (hin : InOrder entries) (hread : Readable entries) (hmerge : merge entries = some breaks) : Merged entries breaks := by
  cases entries with
  | nil =>
    obtain rfl : [] = breaks := by simpa [merge] using hmerge
    exact ⟨by simp, List.Pairwise.nil, by simp, by simp, rfl⟩
  | cons h entries =>
    rw [merge] at hmerge
    obtain ⟨hbehind, hsorted⟩ := List.pairwise_cons.mp hin.sorted
    obtain ⟨hnonempty, hfirst, hrest⟩ := mergeFrom_holds hmerge (fun e he => hin.valid e (List.mem_cons_of_mem _ he)) hbehind hsorted
      (hin.valid h List.mem_cons_self)
    have hsingle := latest_single (hin.pos List.mem_cons_self)
    refine ⟨hnonempty, mergeFrom_apart hmerge hsingle.symm (fun e he => hin.valid e (List.mem_cons_of_mem _ he)) (readable_cons.mp hread)
      hsorted, fun e he => ?_, fun b hb => ?_, ?_⟩
    · rcases List.mem_cons.mp he with rfl | he
      · obtain ⟨b, hb, hstart, hlast⟩ := hfirst
        exact ⟨b, hb, hstart.le, hlast⟩
      · exact hrest e he
    · rcases mergeFrom_begins hmerge hb with hbegins | ⟨e, he, hbegins⟩
      · exact ⟨h, List.mem_cons_self, hbegins⟩
      · exact ⟨e, List.mem_cons_of_mem _ he, hbegins⟩
    · exact mergeFrom_spans hmerge rfl hsingle.symm (by simp) fun e he => hin.pos (List.mem_cons_of_mem _ he)

/-- What holds of the spans of the first groups holds of the first breaks. -/
theorem Merged.forall_take (h : Merged entries breaks) (n : ℕ) (p : ℤ → ℤ → Prop) :
    (∀ b ∈ breaks.take n, p b.start b.last) ↔ ∀ g ∈ (groups entries).take n, p (earliest g) (latest g) := by
  have hspans := congrArg (List.take n) h.spans
  rw [← List.map_take, ← List.map_take] at hspans
  have hbreaks := List.forall_mem_map (l := breaks.take n) (f := fun b => (b.start, b.last)) (P := fun span => p span.1 span.2)
  have hgroups := List.forall_mem_map (l := (groups entries).take n) (f := fun g => (earliest g, latest g)) (P := fun span => p span.1 span.2)
  rw [← hbreaks, hspans, hgroups]

theorem Merged.forall (h : Merged entries breaks) (p : ℤ → ℤ → Prop) :
    (∀ b ∈ breaks, p b.start b.last) ↔ ∀ g ∈ groups entries, p (earliest g) (latest g) := by
  have hlength : breaks.length = (groups entries).length := by
    simpa using congrArg List.length h.spans
  have htake := h.forall_take breaks.length p
  rwa [List.take_length, hlength, List.take_length] at htake

/-- Two breaks do not meet. -/
theorem Merged.eq_of_meet (h : Merged entries breaks) {b' : Holiday} (hb : b ∈ breaks) (hb' : b' ∈ breaks) (hmeet : b.start ≤ b'.last)
    (hmeet' : b'.start ≤ b.last) : b = b' := by
  by_contra hne
  have hsymm : breaks.Pairwise fun b b' => b.last < b'.start ∨ b'.last < b.start :=
    h.apart.imp fun ⟨day, hlt, hlt'⟩ => .inl (hlt.trans hlt')
  have : Std.Symm fun b b' : Holiday => b.last < b'.start ∨ b'.last < b.start := ⟨fun _ _ => Or.symm⟩
  rcases hsymm.forall hb hb' hne with hlt | hlt <;> omega

/-! ### Reading -/

theorem reads_iff (x : NumberOf) (result : Option Json) (fromDay : ℤ) : ReadsWhole x result fromDay ↔
    Readable (acceptedEntries x result fromDay) ∧
      ∀ g ∈ groups (acceptedEntries x result fromDay), Filled (acceptedEntries x result fromDay) g := by
  have hread : readHolidays x result fromDay = merge (acceptedEntries x result fromDay) := by
    rw [readHolidays, acceptedEntries]
    cases itemsOf result with
    | none => rfl
    | some items => rfl
  have hin : InOrder (acceptedEntries x result fromDay) := inOrder_entriesFrom x _ fromDay
  rw [ReadsWhole, hread]
  constructor
  · rintro ⟨breaks, hmerge, hwhole⟩
    have hreadable := merge_readable hin hmerge hwhole.apart
    refine ⟨hreadable, ?_⟩
    refine ((merged_of_merge hin hreadable hmerge).forall (Covered (acceptedEntries x result fromDay))).mp ?_
    exact fun b hb day hstart hlast => hwhole.onlyDays b hb day ⟨hstart, hlast⟩
  · rintro ⟨hreadable, hfilled⟩
    obtain ⟨breaks, hmerge⟩ := Option.isSome_iff_exists.mp (merge_isSome hin hreadable)
    have hmerged := merged_of_merge hin hreadable hmerge
    refine ⟨breaks, hmerge, hmerged.nonempty, hmerged.apart, fun b hb day hday => ?_, fun e he => .inl (hmerged.all e he)⟩
    exact (hmerged.forall (Covered (acceptedEntries x result fromDay))).mpr hfilled b hb day hday.1 hday.2

/-- The dates of an entry are days of the calendar, and 31 December 9999 is not its last one. -/
def Holiday.Dated (h : Holiday) : Prop := (∃ day, stampOf day = h.start) ∧ ∃ day, stampOf day = h.last ∧ stampOf day < LAST_DATE

theorem latest_mem (hne : seen ≠ []) (hpos : ∀ h ∈ seen, 0 < h.last) : ∃ h ∈ seen, latest seen = h.last := by
  induction seen using List.reverseRecOn with
  | nil => exact absurd rfl hne
  | append_singleton seen e ih =>
    rw [latest_append]
    rcases le_total (latest seen) e.last with hle | hle
    · exact ⟨e, by simp, max_eq_right hle⟩
    · rw [max_eq_left hle]
      cases seen with
      | nil =>
        have := hpos e (by simp)
        simp only [latest, List.foldl_nil] at hle
        omega
      | cons h seen =>
        obtain ⟨h', hh', heq⟩ := ih (by simp) fun e he => hpos e (List.mem_append_left _ he)
        exact ⟨h', List.mem_append_left _ hh', heq⟩

theorem readable_of_dated (hin : InOrder entries) (hdated : ∀ e ∈ entries, e.Dated) : Readable entries := by
  intro seen h rest heq hne
  have hseen : ∀ e ∈ seen, e ∈ entries := fun e he => by
    rw [heq]
    exact List.mem_append_left _ he
  obtain ⟨e, he, hlatest⟩ := latest_mem hne fun e he => hin.pos (hseen e he)
  obtain ⟨-, day, hday, hlt⟩ := hdated e (hseen e he)
  exact ⟨day, by rw [hlatest, ← hday]; exact readDate_stampOf day, hlt⟩

/-- Every day of the group is one of its own entries. -/
def OwnDays (group : List Holiday) : Prop :=
  ∀ day, earliest group ≤ stampOf day → stampOf day ≤ latest group → ∃ e ∈ group, e.has day

theorem ownDays_append (hown : OwnDays group) (hne : group ≠ []) (hday : ∃ day, stampOf day = latest group) (hjoins : Joins (latest group) h) :
    OwnDays (group ++ [h]) := by
  intro day hstart hlast
  obtain ⟨end', hend⟩ := hday
  have hhead : earliest (group ++ [h]) = earliest group := by
    rw [earliest, earliest, List.head?_append_of_ne_nil _ hne]
  rw [hhead] at hstart
  rw [latest_append] at hlast
  rcases le_or_gt (stampOf day) (latest group) with hle | hgt
  · obtain ⟨e, he, hhas⟩ := hown day hstart hle
    exact ⟨e, List.mem_append_left _ he, hhas⟩
  · obtain ⟨next, hnext, hle⟩ := hjoins
    have hnext : nextDay (latest group) = some next := hnext
    rw [← hend, nextDay_eq (readDate_stampOf end')] at hnext
    obtain rfl := Option.some.inj hnext
    rw [← hend, stampOf_lt_iff] at hgt
    have hbehind : stampOf (end' + 1) ≤ stampOf day := stampOf_le_iff.mpr (by omega)
    have hbefore : stampOf end' < stampOf day := stampOf_lt_iff.mpr hgt
    refine ⟨h, by simp, ?_, by omega⟩
    split at hle
    · omega
    · rename_i hlate
      have : 0 < stampOf lastDay := by rw [stampOf_lastDay]; decide
      have : stampOf lastDay ≤ stampOf end' := stampOf_le_iff.mpr (by omega)
      omega

theorem groupsFrom_ownDays (hown : OwnDays group) (hne : group ≠ []) (hpos : ∀ h ∈ group ++ entries, 0 < h.last)
    (hdated : ∀ h ∈ group ++ entries, h.Dated) :
    ∀ g ∈ groupsFrom group entries, OwnDays g ∧ ∀ e ∈ g, e ∈ group ++ entries := by
  induction entries generalizing group with
  | nil =>
    intro g hg
    obtain rfl := List.mem_singleton.mp hg
    exact ⟨hown, fun e he => List.mem_append_left _ he⟩
  | cons h entries ih =>
    intro g hg
    rw [groupsFrom] at hg
    split at hg
    · rename_i hjoins
      obtain ⟨e, he, hlatest⟩ := latest_mem hne fun e he => hpos e (List.mem_append_left _ he)
      obtain ⟨-, day, hday, -⟩ := hdated e (List.mem_append_left _ he)
      have hown' := ownDays_append hown hne ⟨day, by rw [hday, hlatest]⟩ hjoins
      have happend : group ++ [h] ++ entries = group ++ h :: entries := by simp
      simpa only [happend] using ih hown' (by simp) (by rwa [happend]) (by rwa [happend]) g hg
    · rcases List.mem_cons.mp hg with rfl | hg
      · exact ⟨hown, fun e he => List.mem_append_left _ he⟩
      · have hsingle := latest_single (hpos h (by simp))
        have hown' : OwnDays [h] := fun day hstart hlast => ⟨h, by simp, hstart, by rwa [hsingle] at hlast⟩
        obtain ⟨hownG, hmem⟩ := ih hown' (by simp) (fun e he => hpos e (by simp only [List.mem_append, List.mem_cons] at he ⊢; tauto))
          (fun e he => hdated e (by simp only [List.mem_append, List.mem_cons] at he ⊢; tauto)) g hg
        exact ⟨hownG, fun e he => List.mem_append_right _ (hmem e he)⟩

/-- Entries with dates of the calendar leave no day out. -/
theorem filled_of_dated (hin : InOrder entries) (hdated : ∀ e ∈ entries, e.Dated) : ∀ g ∈ groups entries, Filled entries g := by
  cases entries with
  | nil => simp [groups]
  | cons h entries =>
    intro g hg day hstart hlast
    have hsingle := latest_single (hin.pos List.mem_cons_self)
    have hown : OwnDays [h] := fun day hstart hlast => ⟨h, by simp, hstart, by rwa [hsingle] at hlast⟩
    obtain ⟨hownG, hmem⟩ := groupsFrom_ownDays hown (by simp) (fun e he => hin.pos he) hdated g hg
    obtain ⟨e, he, hhas⟩ := hownG day hstart hlast
    exact ⟨e, hmem e he, hhas⟩

/-- Dates of the calendar are read without loss. -/
theorem reads_of_dated (hdated : ∀ e ∈ acceptedEntries x result fromDay, e.Dated) : ReadsWhole x result fromDay :=
  have hin : InOrder (acceptedEntries x result fromDay) := inOrder_entriesFrom x _ fromDay
  (reads_iff x result fromDay).mpr ⟨readable_of_dated hin hdated, filled_of_dated hin hdated⟩

/-! ### Storing -/

/-- The last day of a believable entry can be read as a day. -/
theorem believable_day (hmem : h ∈ believableEntries x result fromDay) : ∃ day, readDate h.last = some day := by
  rw [believableEntries, entriesFrom, List.mem_insertionSort, List.mem_filter, List.mem_filterMap] at hmem
  obtain ⟨⟨item, hitem, hentry⟩, -⟩ := hmem
  have hbelievable := (List.mem_filter.mp hitem).2
  simp only [entryOf, Option.bind_eq_bind, Option.bind_eq_some_iff] at hentry
  obtain ⟨start, hstart, last, hlast, hentry⟩ := hentry
  split at hentry
  · obtain rfl := Option.some.inj hentry
    simp only [isBelievable, hstart, hlast, isShort, lengthInDays] at hbelievable
    cases hday : readDate last with
    | none => simp [hday] at hbelievable
    | some day => exact ⟨day, rfl⟩
  · cases hentry

theorem believable_subperm (x : NumberOf) (result : Option Json) (fromDay : ℤ) :
    (believableEntries x result fromDay).Subperm (acceptedEntries x result fromDay) := by
  have hsub : ((((itemsOf result).getD []).filter (isBelievable x)).filterMap (entryOf x)).Sublist
      (((itemsOf result).getD []).filterMap (entryOf x)) := (List.filter_sublist).filterMap _
  have hfiltered := (hsub.filter fun h => decide (fromDay ≤ h.last)).subperm
  exact ((List.perm_insertionSort _ _).subperm_right.mpr ((List.perm_insertionSort _ _).subperm_left.mpr hfiltered))

/-- Where the accepted entries can be read, so can the believable ones. -/
theorem Readable.believable (hread : Readable (acceptedEntries x result fromDay)) : Readable (believableEntries x result fromDay) := by
  intro seen h rest heq hne
  have hin : InOrder (believableEntries x result fromDay) := inOrder_entriesFrom x _ fromDay
  have hsub := believable_subperm x result fromDay
  have hsorted : (believableEntries x result fromDay).Pairwise Holiday.before := List.pairwise_insertionSort _ _
  have hsorted' : (acceptedEntries x result fromDay).Pairwise Holiday.before := List.pairwise_insertionSort _ _
  have hseen : ∀ e ∈ seen, e ∈ believableEntries x result fromDay := fun e he => by
    rw [heq]
    exact List.mem_append_left _ he
  obtain ⟨e, he, hlatest⟩ := latest_mem hne fun e he => hin.pos (hseen e he)
  obtain ⟨day, hday⟩ := believable_day (hseen e he)
  refine ⟨day, by rwa [hlatest], ?_⟩
  by_contra hlate
  have hlast := readDate_last hday (hin.digits e (hseen e he)).2 (not_lt.mp (mt stampOf_lt_last.mpr hlate))
  have hpair : [e, h].Subperm (acceptedEntries x result fromDay) := by
    refine List.Sublist.subperm ?_ |>.trans hsub
    rw [heq]
    exact (List.singleton_sublist.mpr he).append (List.singleton_sublist.mpr List.mem_cons_self)
  rw [heq, List.pairwise_append] at hsorted
  have hbefore := hsorted.2.2 e he h List.mem_cons_self
  rcases List.eq_nil_or_concat (acceptedEntries x result fromDay) with hnil | ⟨front, z, hconcat⟩
  · rw [hnil] at hpair
    exact absurd (hpair.subset List.mem_cons_self) (by simp)
  · -- All but the last of the accepted entries end before the last day.
    have hfront : ∀ a ∈ front, a.last < LAST_DATE := by
      intro a ha
      obtain ⟨day', hday', hlt⟩ := hread front z [] (by simpa using hconcat) (List.ne_nil_of_mem ha)
      exact (le_latest ha).trans_lt ((le_stampOf_readDate hday').trans_lt hlt)
    rw [List.concat_eq_append] at hconcat
    rw [hconcat] at hpair hsorted'
    have hnot : e ∉ front := fun hmem => absurd (hfront e hmem) (by omega)
    have hez : e = z := by
      have hmem : e ∈ front ++ [z] := hpair.subset List.mem_cons_self
      simpa [hnot] using hmem
    rw [← hez] at hpair hsorted'
    have hmem : h ∈ front := by
      have hcons : [e, h].Subperm (e :: front) := (List.perm_append_singleton e front).subperm_left.mp hpair
      exact List.singleton_subperm_iff.mp ((List.subperm_cons e).mp hcons)
    have hbefore' := (List.pairwise_append.mp hsorted').2.2 h hmem e (by simp)
    have hlt := hfront h hmem
    simp only [Holiday.before] at hbefore hbefore'
    omega

theorem take_filter_of_forall {n : ℕ} {p : Holiday → Bool} (h : ∀ b ∈ breaks.take n, p b = true) :
    (breaks.filter p).take n = breaks.take n := by
  induction breaks generalizing n with
  | nil => rfl
  | cons b breaks ih =>
    cases n with
    | zero => simp
    | succ n =>
      rw [List.take_succ_cons] at h ⊢
      rw [List.filter_cons_of_pos (h b List.mem_cons_self), List.take_succ_cons, ih fun b hb => h b (List.mem_cons_of_mem _ hb)]

/-- The first element without a property. -/
theorem exists_first {p : Holiday → Bool} (h : ∃ b ∈ breaks, p b = false) :
    ∃ front b behind, breaks = front ++ b :: behind ∧ (∀ a ∈ front, p a = true) ∧ p b = false := by
  induction breaks with
  | nil => simp at h
  | cons b breaks ih =>
    cases hp : p b with
    | false => exact ⟨[], b, breaks, rfl, by simp, hp⟩
    | true =>
      obtain ⟨front, a, behind, rfl, hfront, ha⟩ := ih (by simpa [hp] using h)
      exact ⟨b :: front, a, behind, rfl, by simpa [hp] using hfront, ha⟩

/-- What is kept of a break. -/
def Holiday.kept (h : Holiday) : Holiday := { h with names := (h.names.take 5).map (·.take 80) }

def keptOf (breaks : List Holiday) : List Holiday := ((breaks.filter fun h => isShort h.start h.last).take MAX_BREAKS).map Holiday.kept

theorem mem_keptOf (hb : b ∈ keptOf breaks) : ∃ k ∈ breaks, isShort k.start k.last = true ∧ b.start = k.start ∧ b.last = k.last := by
  obtain ⟨k, hk, rfl⟩ := List.mem_map.mp hb
  obtain ⟨hk, hshort⟩ := List.mem_filter.mp (List.mem_of_mem_take hk)
  exact ⟨k, hk, hshort, rfl, rfl⟩

theorem storableHolidays_eq (x : NumberOf) (result : Option Json) (fromDay : ℤ) :
    storableHolidays x result fromDay = (merge (believableEntries x result fromDay)).map keptOf := by
  rw [storableHolidays, believableEntries]
  cases itemsOf result with
  | none => rfl
  | some items =>
    simp only [Option.getD_some, readHolidays, itemsOf]
    cases merge (entriesFrom x (items.filter (isBelievable x)) fromDay) <;> rfl

theorem Merged.nodup (h : Merged entries breaks) : breaks.Nodup := by
  refine h.apart.imp_of_mem fun {a b} ha _ ⟨day, hlt, hlt'⟩ heq => ?_
  have hnonempty := h.nonempty a ha
  rw [← heq] at hlt'
  omega

/-- Of the first breaks, none is too long when every entry has its break. -/
theorem short_of_stored (hin : InOrder entries) (hmerged : Merged entries breaks)
    (hall : ∀ e ∈ entries, (∃ b ∈ keptOf breaks, b.start ≤ e.start ∧ e.last ≤ b.last) ∨
      ((keptOf breaks).length = MAX_BREAKS ∧ ∀ b ∈ keptOf breaks, b.last < e.start)) :
    ∀ b ∈ breaks.take MAX_BREAKS, isShort b.start b.last = true := by
  by_contra hlong
  obtain ⟨front, b, behind, hsplit, -, hb⟩ := @exists_first (breaks.take MAX_BREAKS) (fun h => isShort h.start h.last) (by simpa using hlong)
  have hmem : b ∈ breaks := List.mem_of_mem_take (by rw [hsplit]; simp)
  have hnonempty := hmerged.nonempty b hmem
  obtain ⟨e, he, hstart, hlast⟩ := hmerged.begins b hmem
  have hvalid := hin.valid e he
  rcases hall e he with ⟨k, hk, hkstart, hklast⟩ | ⟨hlength, hbefore⟩
  · -- The entry of the long break would lie in another one.
    obtain ⟨k', hk', hshort, hstart', hlast'⟩ := mem_keptOf hk
    obtain rfl := hmerged.eq_of_meet hmem hk' (by omega) (by omega)
    rw [hshort] at hb
    cases hb
  · -- There are too few breaks before it to fill the list.
    have hfront : ∀ k ∈ (breaks.filter fun h => isShort h.start h.last).take MAX_BREAKS, k ∈ front := by
      intro k hk
      have hstored : k.kept ∈ keptOf breaks := List.mem_map_of_mem hk
      have hlt : k.last < e.start := hbefore k.kept hstored
      have hk' : k ∈ breaks := (List.mem_filter.mp (List.mem_of_mem_take hk)).1
      have hsorted := hmerged.apart
      rw [Apart, ← List.take_append_drop MAX_BREAKS breaks, hsplit, List.append_assoc, List.cons_append, List.pairwise_append,
        List.pairwise_cons] at hsorted
      have hnonempty' := hmerged.nonempty k hk'
      rw [← List.take_append_drop MAX_BREAKS breaks, hsplit, List.append_assoc, List.cons_append] at hk'
      rcases List.mem_append.mp hk' with hk' | hk'
      · exact hk'
      · rcases List.mem_cons.mp hk' with rfl | hk'
        · omega
        · obtain ⟨day, hday, hday'⟩ := hsorted.2.1.1 k hk'
          omega
    have hnodup : ((breaks.filter fun h => isShort h.start h.last).take MAX_BREAKS).Nodup :=
      (hmerged.nodup.filter _).sublist (List.take_sublist _ _)
    have hle := (List.subperm_of_subset hnodup hfront).length_le
    have hcut := congrArg List.length hsplit
    rw [List.length_append, List.length_cons, List.length_take] at hcut
    rw [keptOf, List.length_map] at hlength
    omega

theorem keptOf_of_short (h : ∀ b ∈ breaks.take MAX_BREAKS, isShort b.start b.last = true) :
    keptOf breaks = (breaks.take MAX_BREAKS).map Holiday.kept := by
  rw [keptOf, take_filter_of_forall h]

/-- An entry's break is kept, or the list is full before it. -/
theorem Merged.kept_or_beyond (hmerged : Merged entries breaks) {e : Holiday} (he : e ∈ entries) :
    (∃ b ∈ (breaks.take MAX_BREAKS).map Holiday.kept, b.start ≤ e.start ∧ e.last ≤ b.last) ∨
      (((breaks.take MAX_BREAKS).map Holiday.kept).length = MAX_BREAKS ∧
        ∀ b ∈ (breaks.take MAX_BREAKS).map Holiday.kept, b.last < e.start) := by
  obtain ⟨b, hb, hstart, hlast⟩ := hmerged.all e he
  have hsorted := hmerged.apart
  rw [← List.take_append_drop MAX_BREAKS breaks] at hb hsorted
  rcases List.mem_append.mp hb with hfirst | hrest
  · exact .inl ⟨b.kept, List.mem_map_of_mem hfirst, hstart, hlast⟩
  · refine .inr ⟨?_, fun k hk => ?_⟩
    · have hlong := List.length_pos_of_mem hrest
      rw [List.length_drop] at hlong
      rw [List.length_map, List.length_take]
      omega
    · obtain ⟨first, hfirst, rfl⟩ := List.mem_map.mp hk
      obtain ⟨day, hday, hday'⟩ := (List.pairwise_append.mp hsorted).2.2 first hfirst b hrest
      show first.last < e.start
      omega

theorem stores_iff (hread : Readable (believableEntries x result fromDay)) : StoresWhole x result fromDay ↔
    ∀ g ∈ (groups (believableEntries x result fromDay)).take MAX_BREAKS,
      Filled (believableEntries x result fromDay) g ∧ isShort (earliest g) (latest g) = true := by
  have hin : InOrder (believableEntries x result fromDay) := inOrder_entriesFrom x _ fromDay
  obtain ⟨breaks, hmerge⟩ := Option.isSome_iff_exists.mp (merge_isSome hin hread)
  have hmerged := merged_of_merge hin hread hmerge
  have hgroups := hmerged.forall_take MAX_BREAKS fun start last =>
    Covered (believableEntries x result fromDay) start last ∧ isShort start last = true
  rw [StoresWhole, storableHolidays_eq, hmerge]
  refine Iff.trans ?_ hgroups
  constructor
  · rintro ⟨kept, hkept, -, hwhole⟩
    obtain rfl := Option.some.inj hkept
    have hshort := short_of_stored hin hmerged hwhole.allEntries
    refine fun b hb => ⟨fun day hstart hlast => ?_, hshort b hb⟩
    have hmem : b.kept ∈ keptOf breaks := by
      rw [keptOf_of_short hshort]
      exact List.mem_map_of_mem hb
    exact hwhole.onlyDays _ hmem day ⟨hstart, hlast⟩
  · intro h
    have hkept := keptOf_of_short fun b hb => (h b hb).2
    refine ⟨keptOf breaks, rfl, ?_, ?_⟩
    · rw [keptOf, List.length_map]
      exact List.length_take_le _ _
    · rw [hkept]
      refine ⟨fun b hb => ?_, ?_, fun b hb day hday => ?_, fun e he => hmerged.kept_or_beyond he⟩
      · obtain ⟨k, hk, rfl⟩ := List.mem_map.mp hb
        exact hmerged.nonempty k (List.mem_of_mem_take hk)
      · exact List.pairwise_map.mpr (hmerged.apart.sublist (List.take_sublist _ _))
      · obtain ⟨k, hk, rfl⟩ := List.mem_map.mp hb
        exact (h k hk).1 day hday.1 hday.2

def dated (start last : ℚ) : Json :=
  .object [(units "startDate", .number (.finite start)), (units "endDate", .number (.finite last))]

/-- A number is itself, all else none. -/
def numberOf : NumberOf
  | some (.number n) => n
  | _ => .notANumber

end Pokyh.School

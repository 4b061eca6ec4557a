import Mathlib.Data.List.Sort
import Mathlib.Data.Rat.Floor
import Mathlib.Order.Bounds.Defs
import Pokyh.Lib.Calendar

/-!
# Account — LocalDays

Local days (`localDayAndHour`, `startOfLocalDay` and `dayAxis` of `services/usageAnalytics.ts`) in a time zone whose offset changes now and then.

* `Zone`: an offset in whole minutes that changes by at most two hours, and not twice within two days.
* `startOfLocalDay_iff`: where a day begins, by the change that its midnight meets.
* `dayAxis_iff`: which axis has no hole, by the clock at the instants it asks for.
* `local_days_iff`: **both exactly when**.
* `springForward_hole`: half an hour after midnight behind a change in spring a day is missing.
-/

namespace Pokyh.Account.LocalDays
open Pokyh.Lib

/-! ### Time zones -/

/-- A time zone: how far local time is ahead at an instant, in minutes.  Instants are in milliseconds. -/
structure Zone where
  offset : ℤ → ℤ
  small : ∀ t, |offset t - offset (t - 1)| ≤ 120
  rare : ∀ c c', c < c' → offset c ≠ offset (c - 1) → offset c' ≠ offset (c' - 1) → 172800000 ≤ c' - c
  within : ∀ t, |offset t| < 1440

structure Parts where
  date : Civil
  hour : ℤ
  minute : ℤ
  deriving DecidableEq, Repr

namespace Zone
variable (z : Zone)

/-- The minutes that the wall clock shows since 1 January 1970. -/
def wall (t : ℤ) : ℤ := (t + 60000 * z.offset t) / 60000

/-- What the formatter says of the wall clock. -/
def zonedParts (t : ℤ) : Parts := ⟨civilOf (z.wall t / 1440), z.wall t % 1440 / 60, z.wall t % 60⟩

/-- The local day, as it is written, and the hour. -/
def localDayAndHour (t : ℤ) : ℤ × ℤ := ((z.zonedParts t).date.stamp, (z.zonedParts t).hour % 24)

/-- The parts of the clock read as if it were UTC, and how far they are ahead. -/
def offsetAt (ms : ℤ) : ℤ :=
  let p := z.zonedParts ms
  dayNumber p.date.year p.date.month p.date.day * 86400000 + p.hour * 3600000 + p.minute * 60000 - ms

def startOfLocalDay (dayKey : ℤ) : ℤ :=
  let utcMidnight := dayNumber (dayKey / 10000) (dayKey / 100 % 100) (dayKey % 100) * 86400000
  let guess := utcMidnight - z.offsetAt utcMidnight
  utcMidnight - z.offsetAt guess

/-- The loop: `rounds` are still allowed. -/
def collect (now : ℤ) (count : ℕ) : ℕ → ℕ → List ℤ → List ℤ
  | 0, _, keys => keys
  | rounds + 1, offset, keys =>
    if keys.length < count then
      let key := (z.localDayAndHour (now - offset * 24 * 60 * 60 * 1000)).1
      collect now count rounds (offset + 1) (if key ∈ keys then keys else keys ++ [key])
    else keys

/-- `Math.max(1, Math.min(366, Math.round(days)))` -/
def countOf (days : ℚ) : ℕ := (max 1 (min 366 ⌊days + 1 / 2⌋)).toNat

def dayAxis (days : ℚ) (now : ℤ) : List ℤ :=
  let count := countOf days
  let keys := (z.collect now count (count + 3) 0 []).mergeSort (· ≤ ·)
  keys.drop (keys.length - count)

/-! ### What is asked of them -/

/-- The number of the local day. -/
def localDay (t : ℤ) : ℤ := z.wall t / 1440

/-- How long the local day has lasted by the wall clock. -/
def timeOfDay (t : ℤ) : ℤ := (t + 60000 * z.offset t) % 86400000

/-- The clocks change. -/
def Changes (c : ℤ) : Prop := z.offset c ≠ z.offset (c - 1)

/-- Local midnight of the day by the offset before a change, and by the one behind it. -/
def midnightBefore (day c : ℤ) : ℤ := day * 86400000 - 60000 * z.offset (c - 1)

def midnightBehind (day c : ℤ) : ℤ := day * 86400000 - 60000 * z.offset c

/-- A change goes back over the day's midnight, and UTC midnight of the date comes no earlier than it. -/
def Repeats (day c : ℤ) : Prop := z.midnightBefore day c < c ∧ c ≤ z.midnightBehind day c ∧ c ≤ day * 86400000

/-- A change goes forward over the day's midnight. -/
def Skips (day c : ℤ) : Prop := z.midnightBehind day c < c ∧ c ≤ z.midnightBefore day c

/-- No change of the clocks goes back over the day's midnight at or before UTC midnight, and one that goes forward over it does so from midnight
itself, at or before UTC midnight. -/
def PlainMidnight (day : ℤ) : Prop :=
  ∀ c, z.Changes c → ¬ z.Repeats day c ∧ (z.Skips day c → c = z.midnightBefore day c ∧ c ≤ day * 86400000)

/-- At none of the instants that lie whole days before `now`, as long as fewer than `count` days are found, is the time of day earlier than what the
clocks have gone forward in the 24 hours before. -/
def PlainSteps (now : ℤ) (count : ℕ) : Prop :=
  ∀ i : ℕ, z.localDay now - z.localDay (now - i * 86400000) < count - 1 →
    60000 * (z.offset (now - i * 86400000) - z.offset (now - (i + 1) * 86400000)) ≤ z.timeOfDay (now - i * 86400000)

end Zone

/-! ### The wall clock -/

namespace Zone
variable {z : Zone}

theorem localDay_eq (t : ℤ) : z.localDay t = (t + 60000 * z.offset t) / 86400000 := by
  rw [localDay, wall]
  omega

theorem fst_localDayAndHour (t : ℤ) : (z.localDayAndHour t).1 = stampOf (z.localDay t) := rfl

/-- On the minute, the parts tell the offset. -/
theorem offsetAt_eq {t : ℤ} (h : t % 60000 = 0) : z.offsetAt t = 60000 * z.offset t := by
  have hday : dayNumber (civilOf (z.wall t / 1440)).year (civilOf (z.wall t / 1440)).month (civilOf (z.wall t / 1440)).day = z.wall t / 1440 :=
    number_civilOf _
  simp only [offsetAt, zonedParts, hday]
  rw [wall]
  omega

theorem startOfLocalDay_eq (day : ℤ) :
    z.startOfLocalDay (stampOf day) = day * 86400000 - 60000 * z.offset (day * 86400000 - 60000 * z.offset (day * 86400000)) := by
  obtain ⟨hyear, hmonth, hday⟩ := stampOf_bounds day
  have hnumber : dayNumber (civilOf day).year (civilOf day).month (civilOf day).day = day := number_civilOf day
  simp only [startOfLocalDay, hyear, hmonth, hday, hnumber]
  rw [offsetAt_eq (t := day * 86400000) (by omega), offsetAt_eq (by omega)]

/-! ### Changes -/

/-- Between two instants without a change between them the offset is the same. -/
theorem offset_eq_of_still {s t : ℤ} (hle : s ≤ t) (h : ∀ c, s < c → c ≤ t → ¬ z.Changes c) : z.offset t = z.offset s := by
  obtain ⟨n, rfl⟩ := Int.le.dest hle
  induction n with
  | zero => simp
  | succ n ih =>
      have hlast := h (s + ↑(n + 1)) (by omega) (Int.le_refl _)
      have hprev := ih (by omega) fun c hc hle => h c hc (by omega)
      rw [Changes, not_not] at hlast
      rw [hlast, ← hprev]
      congr 1
      push_cast
      ring

/-- Behind a change, and before it, the offset stays for two days. -/
theorem offset_behind {c t : ℤ} (hc : z.Changes c) (hle : c ≤ t) (ht : t < c + 172800000) : z.offset t = z.offset c := by
  refine offset_eq_of_still hle fun c' hlt hle' hc' => ?_
  have hrare := z.rare c c' hlt hc hc'
  omega

theorem offset_before {c t : ℤ} (hc : z.Changes c) (hlt : t < c) (ht : c - 172800000 ≤ t) : z.offset t = z.offset (c - 1) := by
  refine (offset_eq_of_still (by omega) fun c' hlt' hle' hc' => ?_).symm
  have hrare := z.rare c' c (by omega) hc' hc
  omega

/-- In two days the offset changes once, if at all. -/
theorem offset_cases (s t : ℤ) (hle : s ≤ t) (ht : t ≤ s + 172800000) :
    (∀ t', s ≤ t' → t' ≤ t → z.offset t' = z.offset s) ∨ ∃ c, s < c ∧ c ≤ t ∧ z.Changes c := by
  by_cases h : ∃ c, s < c ∧ c ≤ t ∧ z.Changes c
  · exact .inr h
  · refine .inl fun t' hs ht' => offset_eq_of_still hs fun c hc hc' hchanges => h ⟨c, hc, by omega, hchanges⟩

theorem offset_bounds (t : ℤ) : -1440 < z.offset t ∧ z.offset t < 1440 := abs_lt.mp (z.within t)

/-! ### Where a day begins -/

/-- Within a day of an instant around which the clocks change, the offset is the one before the change or the one behind it. -/
theorem offset_around {m c : ℤ} (hc : z.Changes c) (hlow : m - 86400000 < c) (hhigh : c ≤ m + 86400000) (t : ℤ) (hfrom : m - 86400000 ≤ t)
    (hto : t ≤ m + 86400000) : t < c ∧ z.offset t = z.offset (c - 1) ∨ c ≤ t ∧ z.offset t = z.offset c := by
  rcases lt_or_ge t c with hlt | hge
  · exact .inl ⟨hlt, offset_before hc hlt (by omega)⟩
  · exact .inr ⟨hge, offset_behind hc hge (by omega)⟩

/-- The first instant of a day, by the instants before it. -/
theorem isLeast_iff {day s : ℤ} : IsLeast {t | (z.localDayAndHour t).1 = stampOf day} s ↔
    (s + 60000 * z.offset s) / 86400000 = day ∧ ∀ t, day * 86400000 - 86400000 ≤ t → t < s → (t + 60000 * z.offset t) / 86400000 ≠ day := by
  have hmem : ∀ t, (z.localDayAndHour t).1 = stampOf day ↔ (t + 60000 * z.offset t) / 86400000 = day := by
    intro t
    rw [fst_localDayAndHour, localDay_eq]
    exact ⟨fun h => le_antisymm (stampOf_le_iff.mp h.le) (stampOf_le_iff.mp h.ge), fun h => by rw [h]⟩
  constructor
  · intro h
    refine ⟨(hmem s).mp h.1, fun t _ hlt ht => ?_⟩
    exact absurd (h.2 ((hmem t).mpr ht)) (not_le.mpr hlt)
  · intro h
    refine ⟨(hmem s).mpr h.1, fun t ht => ?_⟩
    by_contra hlt
    have hday := (hmem t).mp ht
    have hbounds := z.offset_bounds t
    exact h.2 t (by omega) (not_le.mp hlt) hday

theorem startOfLocalDay_iff (day : ℤ) :
    IsLeast {t | (z.localDayAndHour t).1 = stampOf day} (z.startOfLocalDay (stampOf day)) ↔ z.PlainMidnight day := by
  rw [startOfLocalDay_eq, isLeast_iff]
  have hutc := z.offset_bounds (day * 86400000)
  have hguess := z.offset_bounds (day * 86400000 - 60000 * z.offset (day * 86400000))
  constructor
  · rintro ⟨hstart, hleast⟩ c hc
    have hbefore := z.offset_bounds (c - 1)
    have hbehind := z.offset_bounds c
    refine ⟨?_, ?_⟩
    · rintro ⟨hfirst, hagain, hlate⟩
      rw [midnightBefore] at hfirst
      rw [midnightBehind] at hagain
      have haround := offset_around (m := day * 86400000) hc (by omega) (by omega)
      -- the guess is behind the change, the first midnight before it
      have hutc' : z.offset (day * 86400000) = z.offset c := by
        rcases haround (day * 86400000) (by omega) (by omega) with ⟨hlt, -⟩ | ⟨-, heq⟩
        · omega
        · exact heq
      rw [hutc'] at hleast
      have hguess' : z.offset (day * 86400000 - 60000 * z.offset c) = z.offset c := by
        rcases haround (day * 86400000 - 60000 * z.offset c) (by omega) (by omega) with ⟨hlt, -⟩ | ⟨-, heq⟩
        · omega
        · exact heq
      rw [hguess'] at hleast
      have hmidnight : z.offset (day * 86400000 - 60000 * z.offset (c - 1)) = z.offset (c - 1) := by
        rcases haround (day * 86400000 - 60000 * z.offset (c - 1)) (by omega) (by omega) with ⟨-, heq⟩ | ⟨hge, -⟩
        · exact heq
        · omega
      refine hleast (day * 86400000 - 60000 * z.offset (c - 1)) (by omega) (by omega) ?_
      rw [hmidnight]
      omega
    · rintro ⟨hskipped, hmissed⟩
      rw [midnightBehind] at hskipped
      rw [midnightBefore] at hmissed ⊢
      have haround := offset_around (m := day * 86400000) hc (by omega) (by omega)
      rcases haround (day * 86400000) (by omega) (by omega) with ⟨hlt, heq⟩ | ⟨hge, heq⟩
      · -- UTC midnight comes before the change, so the guess is behind it
        rw [heq] at hstart
        rcases haround (day * 86400000 - 60000 * z.offset (c - 1)) (by omega) (by omega) with ⟨hlt', -⟩ | ⟨hge', heq'⟩
        · omega
        · rw [heq'] at hstart
          rcases haround (day * 86400000 - 60000 * z.offset c) (by omega) (by omega) with ⟨hlt'', heq''⟩ | ⟨hge'', -⟩
          · rw [heq''] at hstart
            omega
          · omega
      · rw [heq] at hstart hleast
        rcases haround (day * 86400000 - 60000 * z.offset c) (by omega) (by omega) with ⟨hlt', heq'⟩ | ⟨hge', -⟩
        · rw [heq'] at hstart hleast
          refine ⟨?_, hge⟩
          by_contra hne
          -- the day begins with the change, before the instant that is found
          refine hleast c (by omega) (by omega) ?_
          omega
        · omega
  · intro hplain
    rcases z.offset_cases (day * 86400000 - 86400000) (day * 86400000 + 86400000) (by omega) (by omega) with hstill | ⟨c, hlow, hhigh, hc⟩
    · have hutc' := hstill (day * 86400000) (by omega) (by omega)
      rw [hutc'] at hguess ⊢
      have hbounds := z.offset_bounds (day * 86400000 - 86400000)
      have hguess' := hstill (day * 86400000 - 60000 * z.offset (day * 86400000 - 86400000)) (by omega) (by omega)
      rw [hguess', hguess']
      refine ⟨by omega, fun t hfrom hlt => ?_⟩
      rw [hstill t hfrom (by omega)]
      omega
    · obtain ⟨hrepeats, hskips⟩ := hplain c hc
      rw [Repeats, midnightBefore, midnightBehind] at hrepeats
      rw [Skips, midnightBefore, midnightBehind] at hskips
      have hbefore := z.offset_bounds (c - 1)
      have hbehind := z.offset_bounds c
      have haround := offset_around hc hlow hhigh
      have hutc' := haround (day * 86400000) (by omega) (by omega)
      have hguess' := haround (day * 86400000 - 60000 * z.offset (day * 86400000)) (by omega) (by omega)
      have hstart := haround (day * 86400000 - 60000 * z.offset (day * 86400000 - 60000 * z.offset (day * 86400000))) (by omega) (by omega)
      refine ⟨by omega, fun t hfrom hlt => ?_⟩
      have ht := haround t hfrom (by omega)
      omega

/-! ### Days one after the other -/

/-- The local day, whole days before. -/
def dayBefore (z : Zone) (now : ℤ) (i : ℕ) : ℤ := z.localDay (now - i * 86400000)

/-- In 24 hours the offset changes once at most. -/
theorem offset_day (t : ℤ) : |z.offset t - z.offset (t - 86400000)| ≤ 120 := by
  rcases z.offset_cases (t - 86400000) t (by omega) (by omega) with hstill | ⟨c, hlow, hhigh, hc⟩
  · rw [hstill t (by omega) (Int.le_refl t)]
    simp
  · rw [offset_behind hc hhigh (by omega), offset_before hc hlow (by omega)]
    exact z.small c

/-- In 24 hours the local day goes back by one, or stays, or goes back by two, which it does when the clocks have gone forward by more than the
day has lasted. -/
theorem dayBefore_succ (now : ℤ) (i : ℕ) :
    (z.timeOfDay (now - i * 86400000) < 60000 * (z.offset (now - i * 86400000) - z.offset (now - (i + 1) * 86400000)) ∧
      z.dayBefore now (i + 1) = z.dayBefore now i - 2) ∨
    (60000 * (z.offset (now - i * 86400000) - z.offset (now - (i + 1) * 86400000)) ≤ z.timeOfDay (now - i * 86400000) ∧
      (z.dayBefore now (i + 1) = z.dayBefore now i - 1 ∨ z.dayBefore now (i + 1) = z.dayBefore now i)) := by
  have hstep : now - ((i : ℤ) + 1) * 86400000 = now - i * 86400000 - 86400000 := by ring
  have hday := abs_le.mp (z.offset_day (now - i * 86400000))
  rw [dayBefore, dayBefore, localDay_eq, localDay_eq, timeOfDay]
  push_cast
  rw [hstep]
  omega

/-- The offset is never a day away, so no more than two days are met twice. -/
theorem dayBefore_far (now : ℤ) (i : ℕ) : (i : ℤ) - 2 ≤ z.localDay now - z.dayBefore now i := by
  have hnow := z.offset_bounds now
  have hthen := z.offset_bounds (now - i * 86400000)
  rw [dayBefore, localDay_eq, localDay_eq]
  omega

theorem dayBefore_mono (now : ℤ) {i j : ℕ} (h : i ≤ j) : z.dayBefore now j ≤ z.dayBefore now i := by
  induction j, h using Nat.le_induction with
  | base => exact Int.le_refl _
  | succ j _ ih =>
      have hstep := z.dayBefore_succ now j
      omega

theorem key_eq (now : ℤ) (offset : ℕ) : (z.localDayAndHour (now - offset * 24 * 60 * 60 * 1000)).1 = stampOf (z.dayBefore now offset) := by
  have hinstant : now - (offset : ℤ) * 24 * 60 * 60 * 1000 = now - offset * 86400000 := by ring
  rw [hinstant]
  rfl

theorem stampOf_inj {d d' : ℤ} (h : stampOf d = stampOf d') : d = d' :=
  le_antisymm (stampOf_le_iff.mp h.le) (stampOf_le_iff.mp h.ge)

/-! ### The axis -/

/-- What the loop collects are local days of the instants it asks for. -/
theorem mem_collect {now : ℤ} {count rounds offset : ℕ} {keys : List ℤ} {key : ℤ} (h : key ∈ z.collect now count rounds offset keys) :
    key ∈ keys ∨ ∃ j, key = stampOf (z.dayBefore now j) := by
  induction rounds generalizing offset keys with
  | zero => exact .inl h
  | succ rounds ih =>
      rw [collect] at h
      split at h
      · rcases ih h with h | h
        · split at h
          · exact .inl h
          · rcases List.mem_append.mp h with h | h
            · exact .inl h
            · exact .inr ⟨offset, (List.mem_singleton.mp h).trans (key_eq now offset)⟩
        · exact .inr h
      · exact .inl h

/-- The day and the ones before it, the latest first. -/
def daysBack (today : ℤ) (n : ℕ) : List ℤ := (List.range n).map fun i : ℕ => stampOf (today - i)

theorem daysBack_succ (today : ℤ) (n : ℕ) : daysBack today (n + 1) = daysBack today n ++ [stampOf (today - n)] := by
  simp [daysBack, List.range_succ]

theorem length_daysBack (today : ℤ) (n : ℕ) : (daysBack today n).length = n := by
  simp [daysBack]

theorem mem_daysBack {today d : ℤ} {n : ℕ} : stampOf d ∈ daysBack today n ↔ d ≤ today ∧ today - d < n := by
  rw [daysBack, List.mem_map]
  constructor
  · rintro ⟨i, hi, heq⟩
    obtain rfl := stampOf_inj heq
    have hlt := List.mem_range.mp hi
    omega
  · rintro ⟨hle, hlt⟩
    refine ⟨(today - d).toNat, List.mem_range.mpr (by omega), ?_⟩
    congr 1
    omega

/-- **In plain steps the loop finds day after day.** -/
theorem collect_plain {now : ℤ} {count : ℕ} (hplain : z.PlainSteps now count) {rounds offset n : ℕ} (hrounds : rounds + offset = count + 2)
    (hpos : 1 ≤ n) (hn : n ≤ count) (hday : z.dayBefore now offset = z.localDay now - (n - 1 : ℕ)) :
    z.collect now count rounds (offset + 1) (daysBack (z.localDay now) n) = daysBack (z.localDay now) count := by
  induction rounds generalizing offset n with
  | zero =>
      have hfar := z.dayBefore_far now offset
      omega
  | succ rounds ih =>
      rw [collect, length_daysBack]
      split
      · rename_i hlt
        simp only [key_eq]
        have hstep := z.dayBefore_succ now offset
        have hok := hplain offset
        rw [← dayBefore, hday] at hok
        rcases hstep with ⟨hskip, -⟩ | ⟨-, hnext | hsame⟩
        · exact absurd (hok (by omega)) (not_le.mpr hskip)
        · -- the day before
          have hnew : z.dayBefore now (offset + 1) = z.localDay now - n := by omega
          have hnot : stampOf (z.localDay now - n) ∉ daysBack (z.localDay now) n := by
            rw [mem_daysBack]
            omega
          rw [hnew, if_neg hnot, ← daysBack_succ]
          exact ih (by omega) (by omega) (by omega) (by rw [hnew, Nat.add_sub_cancel])
        · -- the same day once more
          rw [if_pos]
          · exact ih (by omega) hpos hn (hsame.trans hday)
          · rw [hsame, hday]
            exact mem_daysBack.mpr (by omega)
      · have heq : n = count := by omega
        rw [heq]

/-- Sorted, they are the earliest first. -/
theorem mergeSort_daysBack (today : ℤ) (n : ℕ) : (daysBack today n).mergeSort (· ≤ ·) = (daysBack today n).reverse := by
  have hsorted : (daysBack today n).reverse.Pairwise (· ≤ ·) := by
    rw [List.pairwise_reverse, daysBack, List.pairwise_map]
    refine List.pairwise_lt_range.imp fun {i j} hlt => ?_
    exact stampOf_le_iff.mpr (by omega)
  exact ((List.mergeSort_perm _ _).trans (List.reverse_perm _).symm).eq_of_pairwise' (List.pairwise_mergeSort' _ _) hsorted

theorem countOf_pos (days : ℚ) : 1 ≤ countOf days := by
  rw [countOf]
  omega

/-- **The axis has no hole exactly when its steps are plain.** -/
theorem dayAxis_iff (days : ℚ) (now : ℤ) :
    z.dayAxis days now = (daysBack (z.localDay now) (countOf days)).reverse ↔ z.PlainSteps now (countOf days) := by
  have hpos := countOf_pos days
  constructor
  · intro haxis i hfew
    by_contra hlate
    -- the day that is skipped is one of the axis, and no instant that is asked for is of it
    obtain ⟨-, hskip⟩ := (z.dayBefore_succ now i).resolve_right fun h => hlate h.1
    have hnow : z.dayBefore now 0 = z.localDay now := by simp [dayBefore]
    have hmono := z.dayBefore_mono now (Nat.zero_le i)
    rw [← dayBefore] at hfew
    have hmem : stampOf (z.dayBefore now i - 1) ∈ z.dayAxis days now := by
      rw [haxis, List.mem_reverse, mem_daysBack]
      omega
    have hcollected := List.mem_mergeSort.mp (List.mem_of_mem_drop hmem)
    rcases mem_collect hcollected with h | ⟨j, h⟩
    · cases h
    · have hj := stampOf_inj h
      rcases Nat.lt_or_ge i j with hlt | hge
      · have hbehind := z.dayBefore_mono now (show i + 1 ≤ j from hlt)
        omega
      · have hbefore := z.dayBefore_mono now hge
        omega
  · intro hplain
    have hfirst : z.collect now (countOf days) (countOf days + 3) 0 [] = daysBack (z.localDay now) (countOf days) := by
      have hnow : z.dayBefore now 0 = z.localDay now := by simp [dayBefore]
      have hone : daysBack (z.localDay now) 1 = [stampOf (z.localDay now)] := by simp [daysBack]
      rw [collect, if_pos (show ([] : List ℤ).length < countOf days from hpos)]
      simp only [key_eq, hnow, List.not_mem_nil, if_false, List.nil_append, ← hone]
      exact collect_plain hplain (by omega) (Nat.le_refl 1) hpos (by rw [hnow]; simp)
    simp only [dayAxis, hfirst, mergeSort_daysBack, List.length_reverse, length_daysBack, Nat.sub_self, List.drop_zero]

end Zone

/-- **Local days have no hole exactly where** no step of 24 hours from the instant back goes over a day, and a day begins where it should exactly
where its midnight is plain. -/
theorem local_days_iff (z : Zone) :
    (∀ (days : ℚ) (now : ℤ), z.dayAxis days now = (Zone.daysBack (z.localDay now) (Zone.countOf days)).reverse ↔
      z.PlainSteps now (Zone.countOf days)) ∧
    ∀ day : ℤ, IsLeast {t | (z.localDayAndHour t).1 = stampOf day} (z.startOfLocalDay (stampOf day)) ↔ z.PlainMidnight day :=
  ⟨z.dayAxis_iff, z.startOfLocalDay_iff⟩

/-- A time zone whose clocks change once. -/
def oneChange (c before behind : ℤ) (hsmall : |behind - before| ≤ 120) (hbefore : |before| < 1440) (hbehind : |behind| < 1440) : Zone where
  offset t := if t < c then before else behind
  small t := by
    rcases lt_trichotomy t c with hlt | heq | hgt
    · rw [if_pos hlt, if_pos (by omega)]
      simp
    · rw [if_neg (by omega), if_pos (by omega)]
      exact hsmall
    · rw [if_neg (by omega), if_neg (by omega)]
      simp
  rare c₁ c₂ hlt h₁ h₂ := by
    have hat : ∀ c', (if c' < c then before else behind) ≠ (if c' - 1 < c then before else behind) → c' = c := by
      intro c' hne
      by_contra hother
      rcases lt_or_gt_of_ne hother with hlt | hgt
      · exact hne (by rw [if_pos hlt, if_pos (by omega)])
      · exact hne (by rw [if_neg (by omega), if_neg (by omega)])
    have heq₁ := hat c₁ h₁
    have heq₂ := hat c₂ h₂
    omega
  within t := by
    split
    · exact hbefore
    · exact hbehind

/-- Central Europe on 29 March 2026, and Chile on 6 September. -/
def rome : Zone := oneChange 1774746000000 60 120 (by decide) (by decide) (by decide)

def santiago : Zone := oneChange 1788667200000 (-240) (-180) (by decide) (by decide) (by decide)

/-- At half past midnight on 30 March the axis of two days has 28 and 30 March, and 6 September begins an hour too early. -/
theorem springForward_hole :
    rome.dayAxis 2 1774823400000 ≠ (Zone.daysBack (rome.localDay 1774823400000) 2).reverse ∧
      ¬ IsLeast {t | (santiago.localDayAndHour t).1 = stampOf 20702} (santiago.startOfLocalDay (stampOf 20702)) := by
  have hcount : Zone.countOf 2 = 2 := by
    rw [Zone.countOf]
    norm_num
    rfl
  constructor
  · intro haxis
    have hplain := (rome.dayAxis_iff 2 1774823400000).mp (by rw [hcount]; exact haxis)
    rw [hcount] at hplain
    exact absurd (hplain 0) (by decide)
  · rw [Zone.startOfLocalDay_iff]
    intro hplain
    have hchange : santiago.Changes 1788667200000 := by
      rw [Zone.Changes]
      decide
    have hskips : santiago.Skips 20702 1788667200000 := by
      rw [Zone.Skips]
      decide
    exact absurd ((hplain 1788667200000 hchange).2 hskips).2 (by decide)

end Pokyh.Account.LocalDays

import Pokyh.Lib.Calendar
import Pokyh.Lib.Json

/-!
# Lib — IsoDates

A moment as it is written by `toISOString`, `YYYY-MM-DDTHH:mm:ss.sssZ`, and as such a text is read.  Moments are milliseconds from
1 January 1970 on; a year of more or less than four digits is written with six and its sign.

* `readISO_toISOString`: **a moment of a year of four digits is read back.**
* `toISOString_day`: its first ten characters are those of its day.
-/

namespace Pokyh.Lib

def DAY_MS : ℤ := 86400000

/-- The last digits of a number, so many of them. -/
def padded10 : ℕ → ℕ → Units
  | 0, _ => []
  | width + 1, n => (48 + n / 10 ^ width % 10).toUInt16 :: padded10 width n

def yearText (year : ℤ) : Units :=
  if 0 ≤ year ∧ year ≤ 9999 then padded10 4 year.toNat else (if year < 0 then 45 else 43) :: padded10 6 year.natAbs

def dayText (day : ℤ) : Units :=
  let c := civilOf day
  yearText c.year ++ 45 :: (padded10 2 c.month.toNat ++ 45 :: padded10 2 c.day.toNat)

/-- The time of a day, with the `T` in front and the `Z` behind it. -/
def clockText (ms : ℕ) : Units :=
  84 :: (padded10 2 (ms / 3600000) ++ 58 :: (padded10 2 (ms / 60000 % 60) ++ 58 :: (padded10 2 (ms / 1000 % 60) ++
    46 :: (padded10 3 (ms % 1000) ++ [90]))))

/-- `toISOString` -/
def toISOString (time : ℤ) : Units := dayText (time / DAY_MS) ++ clockText (time % DAY_MS).toNat

/-- So many digits, and what follows them. -/
def readPadded (width : ℕ) (text : Units) : Option (ℕ × Units) :=
  if width ≤ text.length then (digitsOf (text.take width)).map fun n => (n, text.drop width) else none

/-- A character that has to stand there. -/
def readUnit (u : UInt16) (text : Units) : Option Units := if text.head? = some u then some text.tail else none

def readYear (text : Units) : Option (ℤ × Units) :=
  if text.head? = some 45 then (readPadded 6 text.tail).map fun x => (-(x.1 : ℤ), x.2)
  else if text.head? = some 43 then (readPadded 6 text.tail).map fun x => (x.1, x.2)
  else (readPadded 4 text).map fun x => (x.1, x.2)

def readDayText (text : Units) : Option (ℤ × Units) :=
  (readYear text).bind fun year => (readUnit 45 year.2).bind fun rest => (readPadded 2 rest).bind fun month =>
    (readUnit 45 month.2).bind fun rest => (readPadded 2 rest).bind fun day =>
      (readDate (year.1 * 10000 + month.1 * 100 + day.1)).map fun d => (d, day.2)

def readClock (text : Units) : Option ℕ :=
  (readUnit 84 text).bind fun rest => (readPadded 2 rest).bind fun hour => (readUnit 58 hour.2).bind fun rest =>
    (readPadded 2 rest).bind fun minute => (readUnit 58 minute.2).bind fun rest => (readPadded 2 rest).bind fun second =>
      (readUnit 46 second.2).bind fun rest => (readPadded 3 rest).bind fun ms =>
        if ms.2 = [90] ∧ hour.1 < 24 ∧ minute.1 < 60 ∧ second.1 < 60 then
          some (hour.1 * 3600000 + minute.1 * 60000 + second.1 * 1000 + ms.1)
        else none

/-- `Date.parse` of a text in the form of `toISOString`. -/
def readISO (text : Units) : Option ℤ :=
  (readDayText text).bind fun day => (readClock day.2).map fun ms : ℕ => day.1 * DAY_MS + ms

/-! ### What is written is read -/

theorem length_padded10 (width n : ℕ) : (padded10 width n).length = width := by
  induction width with
  | zero => rfl
  | succ width ih => rw [padded10, List.length_cons, ih]

theorem digitOf_digit (n : ℕ) : digitOf (48 + n % 10).toUInt16 = some (n % 10) := by
  have hall : ∀ d < 10, digitOf (48 + d).toUInt16 = some d := by decide
  exact hall _ (Nat.mod_lt n (by decide))

/-- The digits of a number are read as its last ones. -/
theorem digitsOf_padded10 (width n : ℕ) : digitsOf (padded10 width n) = some (n % 10 ^ width) := by
  have hfold : ∀ width, ∃ ds, (padded10 width n).mapM digitOf = some ds ∧
      ∀ m, ds.foldl (fun k d => 10 * k + d) m = m * 10 ^ width + n % 10 ^ width := by
    intro width
    induction width with
    | zero => exact ⟨[], rfl, fun m => by simp [Nat.mod_one]⟩
    | succ width ih =>
        obtain ⟨ds, hds, hvalue⟩ := ih
        refine ⟨n / 10 ^ width % 10 :: ds, ?_, fun m => ?_⟩
        · rw [padded10, List.mapM_cons, digitOf_digit, hds]
          rfl
        · rw [List.foldl_cons, hvalue, pow_succ, Nat.mod_mul, Nat.add_mul]
          ring
  obtain ⟨ds, hds, hvalue⟩ := hfold width
  rw [digitsOf, hds, Option.map_some, hvalue, Nat.zero_mul, Nat.zero_add]

theorem readPadded_padded10 {width n : ℕ} (h : n < 10 ^ width) (rest : Units) :
    readPadded width (padded10 width n ++ rest) = some (n, rest) := by
  have hlength := length_padded10 width n
  have htake : (padded10 width n ++ rest).take width = padded10 width n := List.take_left' hlength
  have hdrop : (padded10 width n ++ rest).drop width = rest := List.drop_left' hlength
  rw [readPadded, if_pos (by simp [hlength]), htake, hdrop, digitsOf_padded10, Nat.mod_eq_of_lt h, Option.map_some]

theorem readUnit_self (u : UInt16) (rest : Units) : readUnit u (u :: rest) = some rest := if_pos rfl

/-- A year of four digits. -/
def FourDigits (day : ℤ) : Prop := 0 ≤ (civilOf day).year ∧ (civilOf day).year ≤ 9999

/-- A digit is no sign. -/
theorem head_padded10 (width n : ℕ) (rest : Units) :
    (padded10 (width + 1) n ++ rest).head? ≠ some 45 ∧ (padded10 (width + 1) n ++ rest).head? ≠ some 43 := by
  have hall : ∀ d < 10, (48 + d).toUInt16 ≠ 45 ∧ (48 + d).toUInt16 ≠ 43 := by decide
  have hdigit := hall _ (Nat.mod_lt (n / 10 ^ width) (by decide))
  rw [padded10]
  exact ⟨fun heq => hdigit.1 (Option.some.inj heq), fun heq => hdigit.2 (Option.some.inj heq)⟩

theorem readDayText_dayText {day : ℤ} (h : FourDigits day) (rest : Units) : readDayText (dayText day ++ rest) = some (day, rest) := by
  obtain ⟨hmonth, hmonth', hday, hday'⟩ := (civilOf_real day).bounds
  obtain ⟨hyear, hyear'⟩ := h
  have hread := readDate_stampOf day
  rw [stampOf, Civil.stamp] at hread
  have htext : dayText day = padded10 4 (civilOf day).year.toNat ++ 45 :: (padded10 2 (civilOf day).month.toNat ++
      45 :: padded10 2 (civilOf day).day.toNat) := by
    rw [dayText, yearText, if_pos ⟨hyear, hyear'⟩]
  generalize civilOf day = c at *
  obtain ⟨hminus, hplus⟩ := head_padded10 3 c.year.toNat (45 :: (padded10 2 c.month.toNat ++ 45 :: (padded10 2 c.day.toNat ++ rest)))
  have hy : ((c.year.toNat : ℕ) : ℤ) = c.year := Int.toNat_of_nonneg hyear
  have hm : ((c.month.toNat : ℕ) : ℤ) = c.month := Int.toNat_of_nonneg (by omega)
  have hd : ((c.day.toNat : ℕ) : ℤ) = c.day := Int.toNat_of_nonneg (by omega)
  rw [htext, List.append_assoc, List.cons_append, List.append_assoc, List.cons_append, readDayText, readYear, if_neg hminus, if_neg hplus,
    readPadded_padded10 (by omega)]
  simp only [Option.map_some, Option.bind_some, readUnit_self, readPadded_padded10 (show c.month.toNat < 10 ^ 2 by omega),
    readPadded_padded10 (show c.day.toNat < 10 ^ 2 by omega), hy, hm, hd, hread]

theorem readClock_clockText {ms : ℕ} (h : ms < 86400000) : readClock (clockText ms) = some ms := by
  rw [clockText, readClock]
  simp only [readUnit_self, Option.bind_some, readPadded_padded10 (show ms / 3600000 < 10 ^ 2 by omega),
    readPadded_padded10 (show ms / 60000 % 60 < 10 ^ 2 by omega), readPadded_padded10 (show ms / 1000 % 60 < 10 ^ 2 by omega),
    readPadded_padded10 (show ms % 1000 < 10 ^ 3 by omega)]
  rw [if_pos ⟨trivial, by omega, by omega, by omega⟩]
  congr 1
  omega

/-- **A moment is read back.** -/
theorem readISO_toISOString {time : ℤ} (h : FourDigits (time / DAY_MS)) : readISO (toISOString time) = some time := by
  have hlow : 0 ≤ time % DAY_MS := Int.emod_nonneg _ (by decide)
  have hhigh : time % DAY_MS < 86400000 := Int.emod_lt_of_pos _ (by decide)
  rw [readISO, toISOString, readDayText_dayText h, Option.bind_some, readClock_clockText (by omega), Option.map_some,
    Int.toNat_of_nonneg hlow,
    Int.ediv_mul_add_emod]

theorem length_dayText {day : ℤ} (h : FourDigits day) : (dayText day).length = 10 := by
  have hyear : 0 ≤ (civilOf day).year ∧ (civilOf day).year ≤ 9999 := h
  rw [dayText, yearText, if_pos hyear]
  simp [length_padded10]

/-- The first ten characters are those of the day. -/
theorem toISOString_day {time : ℤ} (h : FourDigits (time / DAY_MS)) : (toISOString time).take 10 = dayText (time / DAY_MS) :=
  List.take_left' (length_dayText h)

theorem day_midnight (day : ℤ) : day * DAY_MS / DAY_MS = day := Int.mul_ediv_cancel day (by decide)

/-- The text of a day, with the clock at midnight. -/
theorem toISOString_midnight (day : ℤ) : toISOString (day * DAY_MS) = dayText day ++ clockText 0 := by
  rw [toISOString, day_midnight, Int.mul_emod_left]
  rfl

end Pokyh.Lib

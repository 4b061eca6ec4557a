import Mathlib.Algebra.Order.Field.Power
import Mathlib.Algebra.Order.Floor.Semiring
import Mathlib.Data.Int.Log
import Mathlib.Data.Nat.Digits.Lemmas
import Mathlib.Data.Rat.Floor
import Mathlib.Tactic.Linarith
import Mathlib.Tactic.NormNum
import Pokyh.Lib.Json

/-!
# Lib — Doubles

What a double can be, the double that a number is rounded to, and how a double is written: with the fewest decimal digits that are read
back as it.

* `toDouble_of_isDouble`: a double is rounded to itself.
* `shortest_spec`: every double above zero has digits that are read back as it.
* `readDouble_doubleText`: **a double is read back from its text**, in whichever form it is written.
-/

namespace Pokyh.Lib

/-- A whole number of 53 bits times a power of two.  The sign of zero is left out. -/
def IsDouble (x : ℚ) : Prop := ∃ m e : ℤ, |m| < 2 ^ 53 ∧ -1074 ≤ e ∧ e ≤ 971 ∧ x = m * 2 ^ e

/-- The nearest whole number, and of two the even one. -/
def nearest (x : ℚ) : ℤ :=
  if x - ⌊x⌋ < 1 / 2 then ⌊x⌋
  else if 1 / 2 < x - ⌊x⌋ then ⌊x⌋ + 1
  else if ⌊x⌋ % 2 = 0 then ⌊x⌋ else ⌊x⌋ + 1

/-- The place of the last bit that a double of this size has. -/
def lastBit (x : ℚ) : ℤ := max (-1074) (Int.log 2 |x| - 52)

/-- The double that a number is rounded to. -/
def toDouble (x : ℚ) : Number :=
  let value : ℚ := nearest (x / 2 ^ lastBit x) * 2 ^ lastBit x
  if |value| < 2 ^ 1024 then .finite value else .infinite (0 < x)

/-- Decimal digits, as a number, and the place of the last one. -/
structure Decimal where
  digits : ℕ
  place : ℤ
  deriving DecidableEq

def Decimal.value (d : Decimal) : ℚ := d.digits * 10 ^ d.place

/-- The place of the last of so many digits of a number. -/
def lastPlace (x : ℚ) (count : ℕ) : ℤ := Int.log 10 x + 1 - count

/-- So many digits; one more than there is room for becomes a one in front of them. -/
def carried (digits count : ℕ) (place : ℤ) : Decimal := if digits = 10 ^ count then ⟨1, place + count⟩ else ⟨digits, place⟩

/-- The two numbers of so many digits around a number, the nearer one first. -/
def candidates (x : ℚ) (count : ℕ) : List Decimal :=
  let place := lastPlace x count
  let below := ⌊x / 10 ^ place⌋₊
  if nearest (x / 10 ^ place) = below then [carried below count place, carried (below + 1) count place]
  else [carried (below + 1) count place, carried below count place]

/-- As many digits as any double is written out with. -/
def MANY_DIGITS : ℕ := 1400

/-- The fewest digits that are read back. -/
def shortest (x : ℚ) : Option Decimal :=
  (List.range MANY_DIGITS).findSome? fun k => (candidates x (k + 1)).find? fun d => toDouble d.value = .finite x

/-! ### Rounding -/

theorem nearest_int (n : ℤ) : nearest n = n := by
  have hrest : (n : ℚ) - ⌊(n : ℚ)⌋ < 1 / 2 := by
    rw [Int.floor_intCast, sub_self]
    norm_num
  rw [nearest, if_pos hrest, Int.floor_intCast]

theorem IsDouble.lt {x : ℚ} (h : IsDouble x) : |x| < 2 ^ 1024 := by
  obtain ⟨m, e, hm, -, he, rfl⟩ := h
  have hsize : |(m : ℚ)| < 2 ^ 53 := by exact_mod_cast hm
  have hpower : (2 : ℚ) ^ e ≤ 2 ^ (971 : ℤ) := zpow_le_zpow_right₀ (by norm_num) he
  have hpos : (0 : ℚ) < 2 ^ e := by positivity
  rw [abs_mul, abs_of_pos hpos]
  calc |(m : ℚ)| * 2 ^ e < 2 ^ 53 * 2 ^ e := mul_lt_mul_of_pos_right hsize hpos
    _ ≤ 2 ^ 53 * 2 ^ (971 : ℤ) := mul_le_mul_of_nonneg_left hpower (by positivity)
    _ = 2 ^ 1024 := by rw [zpow_ofNat, ← pow_add]

/-- A double ends at its last bit or in front of it. -/
theorem IsDouble.whole {x : ℚ} (h : IsDouble x) : ∃ n : ℤ, x / 2 ^ lastBit x = n := by
  obtain ⟨m, e, hm, hlow, -, rfl⟩ := h
  by_cases hzero : m = 0
  · exact ⟨0, by simp [hzero]⟩
  have hpos : (0 : ℚ) < 2 ^ e := by positivity
  have hsize : |(m : ℚ)| < 2 ^ 53 := by exact_mod_cast hm
  have hlog : Int.log 2 |(m : ℚ) * 2 ^ e| < 53 + e := by
    have habs : 0 < |(m : ℚ) * 2 ^ e| := abs_pos.mpr (mul_ne_zero (by exact_mod_cast hzero) hpos.ne')
    refine (Int.lt_zpow_iff_log_lt (by norm_num) habs).mp ?_
    rw [abs_mul, abs_of_pos hpos, Nat.cast_ofNat, zpow_add₀ (by norm_num)]
    exact mul_lt_mul_of_pos_right (by exact_mod_cast hsize) hpos
  have hbit : lastBit (m * 2 ^ e) ≤ e := by
    rw [lastBit]
    omega
  obtain ⟨k, hk⟩ := Int.eq_ofNat_of_zero_le (sub_nonneg.mpr hbit)
  refine ⟨m * 2 ^ k, ?_⟩
  rw [mul_div_assoc, ← zpow_sub₀ (by norm_num), hk]
  push_cast
  rw [zpow_natCast]

/-- A double is rounded to itself. -/
theorem toDouble_of_isDouble {x : ℚ} (h : IsDouble x) : toDouble x = .finite x := by
  obtain ⟨n, hn⟩ := h.whole
  have hvalue : (n : ℚ) * 2 ^ lastBit x = x := by
    rw [← hn]
    exact div_mul_cancel₀ x (by positivity)
  rw [toDouble, hn, nearest_int, hvalue, if_pos h.lt]

/-! ### Digits -/

theorem value_carried (digits count : ℕ) (place : ℤ) : (carried digits count place).value = digits * 10 ^ place := by
  unfold carried
  split
  · rename_i hfull
    rw [Decimal.value, hfull, zpow_add₀ (by norm_num), zpow_natCast]
    push_cast
    ring
  · rfl

theorem log_bounds {x : ℚ} (h : IsDouble x) (hpos : 0 < x) : -324 ≤ Int.log 10 x ∧ Int.log 10 x ≤ 308 := by
  have hlt := h.lt
  rw [abs_of_pos hpos] at hlt
  obtain ⟨m, e, -, hlow, -, rfl⟩ := h
  have hpower : (0 : ℚ) < 2 ^ e := by positivity
  constructor
  · refine (Int.zpow_le_iff_le_log (by norm_num) hpos).mp ?_
    have hm : (1 : ℚ) ≤ m := by
      have hm' : 0 < (m : ℚ) := (mul_pos_iff_of_pos_right hpower).mp hpos
      exact_mod_cast hm'
    have hsmall : (2 : ℚ) ^ 1074 ≤ 10 ^ 324 := by exact_mod_cast (by decide +kernel : 2 ^ 1074 ≤ 10 ^ 324)
    calc ((10 : ℕ) : ℚ) ^ (-324 : ℤ) ≤ 2 ^ (-1074 : ℤ) := by
          rw [zpow_neg, zpow_neg, zpow_ofNat, zpow_ofNat, Nat.cast_ofNat]
          exact inv_anti₀ (by positivity) hsmall
      _ ≤ 2 ^ e := zpow_le_zpow_right₀ (by norm_num) hlow
      _ ≤ m * 2 ^ e := le_mul_of_one_le_left hpower.le hm
  · have hlog : Int.log 10 ((m : ℚ) * 2 ^ e) < 309 := by
      have hlarge : (2 : ℚ) ^ 1024 < 10 ^ 309 := by exact_mod_cast (by decide +kernel : 2 ^ 1024 < 10 ^ 309)
      refine (Int.lt_zpow_iff_log_lt (by norm_num) hpos).mp (hlt.trans ?_)
      rwa [zpow_ofNat, Nat.cast_ofNat]
    omega

/-- With enough digits a double is written out whole. -/
theorem exact_digits {x : ℚ} (h : IsDouble x) (hpos : 0 < x) : ∃ k < MANY_DIGITS, ∃ d ∈ candidates x (k + 1), d.value = x := by
  obtain ⟨hlow, hhigh⟩ := log_bounds h hpos
  obtain ⟨count, hcount⟩ := Int.eq_ofNat_of_zero_le (show 0 ≤ Int.log 10 x + 1074 by omega)
  have hplace : lastPlace x (count + 1) = -1074 := by
    rw [lastPlace]
    push_cast
    omega
  have hwhole : ∃ n : ℕ, x / 10 ^ (-1074 : ℤ) = n := by
    obtain ⟨m, e, -, hbit, -, rfl⟩ := h
    obtain ⟨k, hk⟩ := Int.eq_ofNat_of_zero_le (show 0 ≤ e + 1074 by omega)
    have hpower : (0 : ℚ) < 2 ^ e := by positivity
    have hm : (0 : ℚ) < m := (mul_pos_iff_of_pos_right hpower).mp hpos
    obtain ⟨n, rfl⟩ := Int.eq_ofNat_of_zero_le (show 0 ≤ m by exact_mod_cast hm.le)
    refine ⟨n * 2 ^ k * 5 ^ 1074, ?_⟩
    have htwo : (2 : ℚ) ^ e * 2 ^ (1074 : ℤ) = 2 ^ k := by rw [← zpow_add₀ (by norm_num), hk, zpow_natCast]
    have hten : (10 : ℚ) ^ (1074 : ℤ) = 2 ^ (1074 : ℤ) * 5 ^ 1074 := by
      have hfive : (5 : ℚ) ^ (1074 : ℤ) = 5 ^ 1074 := zpow_natCast 5 1074
      rw [← hfive, ← mul_zpow]
      norm_num
    rw [zpow_neg, div_inv_eq_mul, hten, Nat.cast_mul, Nat.cast_mul, Nat.cast_pow, Nat.cast_pow, Nat.cast_ofNat, Nat.cast_ofNat, ← htwo,
      Int.cast_natCast]
    simp only [mul_assoc]
  obtain ⟨n, hn⟩ := hwhole
  have hbelow : ⌊x / 10 ^ lastPlace x (count + 1)⌋₊ = n := by rw [hplace, hn, Nat.floor_natCast]
  refine ⟨count, by unfold MANY_DIGITS; omega, carried n (count + 1) (lastPlace x (count + 1)), ?_, ?_⟩
  · unfold candidates
    dsimp only
    rw [hbelow]
    split <;> simp
  · rw [value_carried, hplace, ← hn]
    exact div_mul_cancel₀ x (by positivity)

theorem isDouble_zero : IsDouble 0 := ⟨0, 0, by norm_num, by norm_num, by norm_num, by norm_num⟩

/-- **Every double above zero has digits that are read back as it.** -/
theorem shortest_spec {x : ℚ} (h : IsDouble x) (hpos : 0 < x) : ∃ d, shortest x = some d ∧ d.digits ≠ 0 ∧ toDouble d.value = .finite x := by
  obtain ⟨k, hk, d, hd, hvalue⟩ := exact_digits h hpos
  have hsome : (shortest x).isSome := by
    unfold shortest
    rw [List.findSome?_isSome_iff]
    refine ⟨k, List.mem_range.mpr hk, ?_⟩
    rw [List.find?_isSome]
    exact ⟨d, hd, by rw [hvalue, toDouble_of_isDouble h]; simp⟩
  obtain ⟨found, hfound⟩ := Option.isSome_iff_exists.mp hsome
  have hround : toDouble found.value = .finite x := by
    unfold shortest at hfound
    obtain ⟨j, -, hj⟩ := List.exists_of_findSome?_eq_some hfound
    simpa using List.find?_some hj
  refine ⟨found, hfound, fun hnone => ?_, hround⟩
  rw [Decimal.value, hnone, Nat.cast_zero, zero_mul, toDouble_of_isDouble isDouble_zero] at hround
  exact hpos.ne (Number.finite.inj hround)

/-! ### Texts -/

/-- The parts of a number's text. -/
structure Numeral where
  whole : List ℕ
  fraction : List ℕ
  exponent : Option ℤ

/-- The digits of a number, the first one first. -/
def decimalDigits (n : ℕ) : List ℕ := (Nat.digits 10 n).reverse

def digitsText (digits : List ℕ) : Units := digits.map fun d => (48 + d).toUInt16

def exponentText : Option ℤ → Units
  | none => []
  | some e => 101 :: (if e < 0 then 45 else 43) :: digitsText (decimalDigits e.natAbs)

def Numeral.text (x : Numeral) : Units :=
  digitsText x.whole ++ ((if x.fraction = [] then [] else 46 :: digitsText x.fraction) ++ exponentText x.exponent)

/-- The number that digits write. -/
def ofDigits (digits : List ℕ) : ℕ := Nat.ofDigits 10 digits.reverse

def Numeral.value (x : Numeral) : ℚ := ofDigits (x.whole ++ x.fraction) * 10 ^ (x.exponent.getD 0 - x.fraction.length)

/-- How a number is written: all in digits, up to 21 of them, with no more than five zeros behind the point, or with an exponent. -/
def numeralOf (d : Decimal) : Numeral :=
  let digits := decimalDigits d.digits
  let point := digits.length + d.place
  if digits.length ≤ point ∧ point ≤ 21 then ⟨digits ++ List.replicate d.place.toNat 0, [], none⟩
  else if 0 < point ∧ point ≤ 21 then ⟨digits.take point.toNat, digits.drop point.toNat, none⟩
  else if -6 < point ∧ point ≤ 0 then ⟨[0], List.replicate (-point).toNat 0 ++ digits, none⟩
  else ⟨digits.take 1, digits.drop 1, some (point - 1)⟩

/-- `Number.prototype.toString` of a double. -/
def doubleText (x : ℚ) : Units :=
  if x = 0 then [48]
  else
    let body := ((shortest |x|).map fun d => (numeralOf d).text).getD []
    if x < 0 then 45 :: body else body

/-! ### Reading -/

/-- The digits in front, and what follows them. -/
def readDigits : Units → List ℕ × Units
  | [] => ([], [])
  | u :: rest =>
    match digitOf u with
    | some d => (d :: (readDigits rest).1, (readDigits rest).2)
    | none => ([], u :: rest)

def readFraction (text : Units) : Option (List ℕ × Units) :=
  match text with
  | 46 :: rest => if (readDigits rest).1 = [] then none else some (readDigits rest)
  | _ => some ([], text)

def readExponent (text : Units) : Option (Option ℤ × Units) :=
  match text with
  | [] => some (none, [])
  | u :: rest =>
    if u = 101 ∨ u = 69 then
      let digits := readDigits (if rest.head? = some 43 ∨ rest.head? = some 45 then rest.drop 1 else rest)
      if digits.1 = [] then none
      else some (some (if rest.head? = some 45 then -(ofDigits digits.1 : ℤ) else ofDigits digits.1), digits.2)
    else some (none, u :: rest)

/-- A number without a sign: no digit in front of another may be a zero. -/
def readNumeral (text : Units) : Option (Numeral × Units) :=
  let whole := readDigits text
  if whole.1 = [] ∨ (whole.1.head? = some 0 ∧ 1 < whole.1.length) then none
  else (readFraction whole.2).bind fun fraction => (readExponent fraction.2).map fun exponent =>
    (⟨whole.1, fraction.1, exponent.1⟩, exponent.2)

def Number.neg : Number → Number
  | .finite x => .finite (-x)
  | .infinite isPositive => .infinite !isPositive
  | .notANumber => .notANumber

/-- A number as JSON has it, and what follows it. -/
def readDouble (text : Units) : Option (Number × Units) :=
  match text with
  | 45 :: rest => (readNumeral rest).map fun x => ((toDouble x.1.value).neg, x.2)
  | _ => (readNumeral text).map fun x => (toDouble x.1.value, x.2)

/-! ### What is written is read -/

/-- Nothing that goes on with a number. -/
def EndsNumber (rest : Units) : Prop := ∀ u ∈ rest.head?, digitOf u = none ∧ u ≠ 46 ∧ u ≠ 101 ∧ u ≠ 69

theorem digitOf_text {d : ℕ} (h : d < 10) : digitOf (48 + d).toUInt16 = some d := by
  have hall : ∀ d < 10, digitOf (48 + d).toUInt16 = some d := by decide
  exact hall d h

theorem readDigits_text {digits : List ℕ} (h : ∀ d ∈ digits, d < 10) {rest : Units} (hrest : ∀ u ∈ rest.head?, digitOf u = none) :
    readDigits (digitsText digits ++ rest) = (digits, rest) := by
  induction digits with
  | nil =>
      cases rest with
      | nil => rfl
      | cons u rest =>
          have hnone : digitOf u = none := hrest u rfl
          simp [digitsText, readDigits, hnone]
  | cons d digits ih =>
      have hdigit := digitOf_text (h d List.mem_cons_self)
      have htail := ih fun e he => h e (List.mem_cons_of_mem _ he)
      rw [digitsText, List.map_cons, List.cons_append, readDigits, hdigit]
      dsimp only
      rw [← digitsText, htail]

theorem lt_of_mem_decimalDigits {n d : ℕ} (h : d ∈ decimalDigits n) : d < 10 :=
  Nat.digits_lt_base (by decide) (List.mem_reverse.mp h)

theorem ofDigits_decimalDigits (n : ℕ) : ofDigits (decimalDigits n) = n := by
  rw [ofDigits, decimalDigits, List.reverse_reverse, Nat.ofDigits_digits]

/-- A numeral that can be read. -/
structure Numeral.Good (x : Numeral) : Prop where
  whole_ne : x.whole ≠ []
  whole_head : x.whole.head? = some 0 → x.whole.length = 1
  digits : ∀ d ∈ x.whole ++ x.fraction, d < 10
  exponent_ne : x.exponent ≠ some 0

theorem readExponent_text {e : Option ℤ} (h : e ≠ some 0) {rest : Units} (hrest : EndsNumber rest) :
    readExponent (exponentText e ++ rest) = some (e, rest) := by
  cases e with
  | none =>
      cases rest with
      | nil => rfl
      | cons u rest =>
          obtain ⟨-, -, hsmall, hlarge⟩ := hrest u rfl
          simp [exponentText, readExponent, hsmall, hlarge]
  | some e =>
      have hread : readDigits (digitsText (decimalDigits e.natAbs) ++ rest) = (decimalDigits e.natAbs, rest) :=
        readDigits_text (fun d hd => lt_of_mem_decimalDigits hd) fun u hu => (hrest u hu).1
      have hne : decimalDigits e.natAbs ≠ [] := by
        rw [decimalDigits, ne_eq, List.reverse_eq_nil_iff, Nat.digits_eq_nil_iff_eq_zero, Int.natAbs_eq_zero]
        exact fun hzero => h (congrArg some hzero)
      by_cases hneg : e < 0
      · have hvalue : -(ofDigits (decimalDigits e.natAbs) : ℤ) = e := by
          rw [ofDigits_decimalDigits]
          omega
        simp [exponentText, readExponent, hneg, hread, hne, hvalue]
      · have hvalue : (ofDigits (decimalDigits e.natAbs) : ℤ) = e := by
          rw [ofDigits_decimalDigits]
          omega
        simp [exponentText, readExponent, hneg, hread, hne, hvalue]

theorem readNumeral_text {x : Numeral} (h : x.Good) {rest : Units} (hrest : EndsNumber rest) :
    readNumeral (x.text ++ rest) = some (x, rest) := by
  obtain ⟨whole, fraction, exponent⟩ := x
  have hexponent := readExponent_text h.exponent_ne hrest
  -- neither the fraction nor the exponent begins with a digit
  have hbehind : ∀ u ∈ (exponentText exponent ++ rest).head?, digitOf u = none ∧ u ≠ 46 := by
    cases exponent with
    | none => exact fun u hu => ⟨(hrest u hu).1, (hrest u hu).2.1⟩
    | some e =>
        intro u hu
        obtain rfl := Option.some.inj hu
        decide
  have hfraction : readFraction ((if fraction = [] then [] else 46 :: digitsText fraction) ++ (exponentText exponent ++ rest)) =
      some (fraction, exponentText exponent ++ rest) := by
    by_cases hnone : fraction = []
    · subst hnone
      rw [if_pos rfl, List.nil_append]
      generalize exponentText exponent ++ rest = text at hbehind
      cases text with
      | nil => rfl
      | cons u text =>
          have hpoint : u ≠ 46 := (hbehind u rfl).2
          unfold readFraction
          split
          · rename_i heq
            exact absurd (List.cons.inj heq).1 hpoint
          · rfl
    · have hread : readDigits (digitsText fraction ++ (exponentText exponent ++ rest)) = (fraction, exponentText exponent ++ rest) :=
        readDigits_text (fun d hd => h.digits d (List.mem_append_right _ hd)) fun u hu => (hbehind u hu).1
      rw [if_neg hnone, List.cons_append, readFraction, hread, if_neg hnone]
  have hwhole : readDigits (digitsText whole ++ ((if fraction = [] then [] else 46 :: digitsText fraction) ++ (exponentText exponent ++ rest))) =
      (whole, (if fraction = [] then [] else 46 :: digitsText fraction) ++ (exponentText exponent ++ rest)) := by
    refine readDigits_text (fun d hd => h.digits d (List.mem_append_left _ hd)) fun u hu => ?_
    by_cases hnone : fraction = []
    · rw [if_pos hnone, List.nil_append] at hu
      exact (hbehind u hu).1
    · rw [if_neg hnone] at hu
      obtain rfl := Option.some.inj hu
      decide
  have hhead : ¬ (whole = [] ∨ whole.head? = some 0 ∧ 1 < whole.length) := by
    rintro (hnil | ⟨hzero, hlong⟩)
    · exact h.whole_ne hnil
    · have hone := h.whole_head hzero
      simp only at hone
      omega
  simp only [Numeral.text, List.append_assoc, readNumeral, hwhole, if_neg hhead, hfraction, Option.bind_some, hexponent, Option.map_some]

theorem ofDigits_append (xs ys : List ℕ) : ofDigits (xs ++ ys) = ofDigits xs * 10 ^ ys.length + ofDigits ys := by
  rw [ofDigits, List.reverse_append, Nat.ofDigits_append, List.length_reverse, Nat.add_comm, Nat.mul_comm]
  rfl

theorem ofDigits_zeros (n : ℕ) : ofDigits (List.replicate n 0) = 0 := by
  rw [ofDigits, List.reverse_replicate, Nat.ofDigits_replicate_zero]

/-- **A numeral stands for the digits and their place.** -/
theorem value_numeralOf (d : Decimal) (hpos : d.digits ≠ 0) : (numeralOf d).value = d.value := by
  have hten : (10 : ℚ) ≠ 0 := by norm_num
  have hdigits : ofDigits (decimalDigits d.digits) = d.digits := ofDigits_decimalDigits d.digits
  have hne : decimalDigits d.digits ≠ [] := by
    rwa [decimalDigits, ne_eq, List.reverse_eq_nil_iff, Nat.digits_eq_nil_iff_eq_zero]
  have hlength : 0 < (decimalDigits d.digits).length := List.length_pos_iff.mpr hne
  unfold numeralOf Numeral.value Decimal.value
  dsimp only
  generalize decimalDigits d.digits = digits at hdigits hlength
  split
  · obtain ⟨n, hn⟩ := Int.eq_ofNat_of_zero_le (show 0 ≤ d.place by omega)
    simp only [hn, List.append_nil, Int.toNat_natCast, Option.getD_none, List.length_nil]
    rw [ofDigits_append, ofDigits_zeros, hdigits, List.length_replicate, zpow_natCast]
    push_cast
    simp
  · split
    · simp only [List.take_append_drop, Option.getD_none, List.length_drop, hdigits]
      congr 2
      omega
    · split
      · simp only [Option.getD_none, List.length_append, List.length_replicate]
        rw [← List.append_assoc, ofDigits_append, ← List.replicate_one, ← List.replicate_add, ofDigits_zeros, hdigits, Nat.zero_mul, Nat.zero_add]
        congr 2
        omega
      · simp only [List.take_append_drop, Option.getD_some, List.length_drop, hdigits]
        congr 2
        omega

theorem good_numeralOf (d : Decimal) (hpos : d.digits ≠ 0) : (numeralOf d).Good := by
  have hdigit : ∀ e ∈ decimalDigits d.digits, e < 10 := fun e he => lt_of_mem_decimalDigits he
  have hne : decimalDigits d.digits ≠ [] := by
    rwa [decimalDigits, ne_eq, List.reverse_eq_nil_iff, Nat.digits_eq_nil_iff_eq_zero]
  have hhead : (decimalDigits d.digits).head? ≠ some 0 := by
    rw [decimalDigits, List.head?_reverse, List.getLast?_eq_some_getLast (by rwa [decimalDigits, ne_eq, List.reverse_eq_nil_iff] at hne)]
    exact fun heq => Nat.getLast_digit_ne_zero 10 hpos (Option.some.inj heq)
  unfold numeralOf
  dsimp only
  generalize decimalDigits d.digits = digits at hdigit hne hhead
  obtain ⟨first, more, rfl⟩ := List.exists_cons_of_ne_nil hne
  have hfirst : ∀ {n : ℕ}, 0 < n → ((first :: more).take n).head? ≠ some 0 := by
    intro n hn
    obtain ⟨k, rfl⟩ := Nat.exists_eq_succ_of_ne_zero hn.ne'
    exact hhead
  split
  · refine ⟨by simp, fun hzero => absurd hzero hhead, fun e he => ?_, by simp⟩
    rw [List.append_nil] at he
    rcases List.mem_append.mp he with he | he
    · exact hdigit e he
    · rw [(List.mem_replicate.mp he).2]
      decide
  · split
    · rename_i hpoint
      refine ⟨?_, fun hzero => absurd hzero (hfirst (by omega)), fun e he => ?_, by simp⟩
      · obtain ⟨k, hk⟩ := Nat.exists_eq_succ_of_ne_zero (show ((first :: more).length + d.place).toNat ≠ 0 by omega)
        rw [hk]
        exact List.cons_ne_nil _ _
      · rw [List.take_append_drop] at he
        exact hdigit e he
    · split
      · refine ⟨by simp, fun _ => rfl, fun e he => ?_, by simp⟩
        rcases List.mem_append.mp he with he | he
        · rw [List.mem_singleton.mp he]
          decide
        · rcases List.mem_append.mp he with he | he
          · rw [(List.mem_replicate.mp he).2]
            decide
          · exact hdigit e he
      · rename_i hlong hpoint hsmall
        refine ⟨by simp, fun hzero => absurd hzero (hfirst Nat.one_pos), fun e he => ?_, ?_⟩
        · rw [List.take_append_drop] at he
          exact hdigit e he
        · rw [ne_eq, Option.some.injEq]
          omega

theorem not_minus_text {x : Numeral} (h : x.Good) (rest : Units) : (x.text ++ rest).head? ≠ some 45 := by
  obtain ⟨d, more, hwhole⟩ := List.exists_cons_of_ne_nil h.whole_ne
  have hdigit : d < 10 := h.digits d (List.mem_append_left _ (hwhole ▸ List.mem_cons_self))
  have hall : ∀ d < 10, (48 + d).toUInt16 ≠ 45 := by decide
  rw [Numeral.text, hwhole]
  exact fun heq => hall d hdigit (Option.some.inj heq)

theorem IsDouble.neg {x : ℚ} (h : IsDouble x) : IsDouble (-x) := by
  obtain ⟨m, e, hm, hlow, hhigh, rfl⟩ := h
  exact ⟨-m, e, by rwa [abs_neg], hlow, hhigh, by push_cast; ring⟩

theorem IsDouble.abs {x : ℚ} (h : IsDouble x) : IsDouble |x| := by
  rcases abs_choice x with heq | heq
  · rwa [heq]
  · rw [heq]
    exact h.neg

/-- **A double is read back**, whatever follows it that does not go on with the number. -/
theorem readDouble_doubleText {x : ℚ} (h : IsDouble x) {rest : Units} (hrest : EndsNumber rest) :
    readDouble (doubleText x ++ rest) = some (.finite x, rest) := by
  by_cases hzero : x = 0
  · subst hzero
    have hgood : Numeral.Good ⟨[0], [], none⟩ := ⟨by simp, fun _ => rfl, by simp, by simp⟩
    have hread := readNumeral_text hgood hrest
    have hvalue : (Numeral.mk [0] [] none).value = 0 := by simp [Numeral.value, ofDigits]
    have htext : (Numeral.mk [0] [] none).text = [48] := rfl
    rw [htext] at hread
    rw [doubleText, if_pos rfl, List.singleton_append, readDouble]
    · rw [← List.singleton_append, hread, Option.map_some, hvalue, toDouble_of_isDouble h]
    · rintro rest ⟨⟩
  obtain ⟨d, hd, hpos, hround⟩ := shortest_spec h.abs (abs_pos.mpr hzero)
  have hgood := good_numeralOf d hpos
  have hread := readNumeral_text hgood hrest
  have hvalue := value_numeralOf d hpos
  rw [doubleText, if_neg hzero, hd]
  dsimp only [Option.map_some, Option.getD_some]
  by_cases hneg : x < 0
  · rw [if_pos hneg, List.cons_append, readDouble, hread, Option.map_some, hvalue, hround, abs_of_neg hneg, Number.neg, neg_neg]
  · have hsign := not_minus_text hgood rest
    rw [if_neg hneg]
    unfold readDouble
    split
    · rename_i heq
      rw [heq] at hsign
      exact absurd rfl hsign
    · rw [hread, Option.map_some, hvalue, hround, abs_of_nonneg (not_lt.mp hneg)]

end Pokyh.Lib

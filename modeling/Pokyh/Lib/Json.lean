import Mathlib.Algebra.Order.Ring.Nat
import Mathlib.Data.Rat.Defs

/-!
# Lib — Json

JSON values as JavaScript holds them: text is UTF-16 code units, a number is what a double can be.
-/

namespace Pokyh.Lib

/-- Text as UTF-16 code units. -/
abbrev Units := List UInt16

instance : LawfulBEq Units := inferInstanceAs (LawfulBEq (List UInt16))

def unitsOf (c : Char) : Units :=
  if c.val < 0x10000 then [c.val.toUInt16]
  else [(0xD800 + (c.val - 0x10000) / 0x400).toUInt16, (0xDC00 + (c.val - 0x10000) % 0x400).toUInt16]

def units (s : String) : Units := s.toList.flatMap unitsOf

/-- A double, as the number it stands for. -/
inductive Number where
  | finite (value : ℚ)
  | infinite (isPositive : Bool)
  | notANumber
  deriving DecidableEq

inductive Json where
  | null
  | bool (value : Bool)
  | number (value : Number)
  | string (value : Units)
  | array (items : List Json)
  | object (fields : List (Units × Json))

/-- `v?.key`; what is no object has none of the keys asked for. -/
def Json.get (v : Json) (key : String) : Option Json :=
  match v with
  | .object fields => (fields.find? (·.1 = units key)).map (·.2)
  | _ => none

def digitOf (u : UInt16) : Option ℕ := if 48 ≤ u ∧ u ≤ 57 then some (u.toNat - 48) else none

/-- The number that digits alone write. -/
def digitsOf (us : Units) : Option ℕ := (us.mapM digitOf).map (·.foldl (fun n d => 10 * n + d) 0)

theorem digitOf_lt {u : UInt16} {n : ℕ} (h : digitOf u = some n) : n < 10 := by
  unfold digitOf at h
  split at h
  · rename_i hdigit
    obtain rfl := Option.some.inj h
    have hle : u.toNat ≤ 57 := UInt16.le_iff_toNat_le.mp hdigit.2
    omega
  · cases h

theorem digitsOf_lt {us : Units} {n : ℕ} (h : digitsOf us = some n) : n < 10 ^ us.length := by
  have hfold : ∀ (us : Units) (ds : List ℕ) (m : ℕ), us.mapM digitOf = some ds → ds.foldl (fun n d => 10 * n + d) m < (m + 1) * 10 ^ us.length := by
    intro us
    induction us with
    | nil =>
      intro ds m hds
      obtain rfl : [] = ds := by simpa using hds
      simp
    | cons u us ih =>
      intro ds m hds
      rw [List.mapM_cons, Option.bind_eq_bind, Option.bind_eq_some_iff] at hds
      obtain ⟨d, hd, hds⟩ := hds
      obtain ⟨rest, hrest, hds⟩ := Option.bind_eq_some_iff.mp hds
      obtain rfl := Option.some.inj hds
      have hlt := digitOf_lt hd
      refine (ih rest (10 * m + d) hrest).trans_le ?_
      rw [List.length_cons, pow_succ, ← mul_assoc, mul_right_comm]
      exact Nat.mul_le_mul_right _ (by omega)
  obtain ⟨ds, hds, rfl⟩ := Option.map_eq_some_iff.mp h
  simpa using hfold us ds 0 hds

/-- A white-space character of `\s`, and of `trim`. -/
def isSpaceUnit (u : UInt16) : Bool :=
  (9 ≤ u && u ≤ 13) || u ∈ [32, 0xA0, 0x1680, 0x2028, 0x2029, 0x202F, 0x205F, 0x3000, 0xFEFF] || (0x2000 ≤ u && u ≤ 0x200A)

def trimUnits (us : Units) : Units := ((us.dropWhile isSpaceUnit).reverse.dropWhile isSpaceUnit).reverse

/-- The letters A to Z as small ones. -/
def lowerUnit (u : UInt16) : UInt16 := if 65 ≤ u ∧ u ≤ 90 then u + 32 else u

/-- `a ?? b`. -/
def Json.orElse : Option Json → Option Json → Option Json
  | none, other | some .null, other => other
  | some v, _ => some v

/-! ### Lists of texts as JSON -/

def isHighSurrogate (u : UInt16) : Bool := 0xD800 ≤ u && u ≤ 0xDBFF

def isLowSurrogate (u : UInt16) : Bool := 0xDC00 ≤ u && u ≤ 0xDFFF

def hexDigit (n : ℕ) : UInt16 := (if n < 10 then 48 + n else 87 + n).toUInt16

/-- A backslash, `u` and four digits. -/
def escapeUnit (u : UInt16) : Units :=
  [92, 117, hexDigit (u.toNat / 4096 % 16), hexDigit (u.toNat / 256 % 16), hexDigit (u.toNat / 16 % 16), hexDigit (u.toNat % 16)]

/-- The escapes of one letter. -/
def SHORT_ESCAPES : List (UInt16 × UInt16) := [(34, 34), (92, 92), (8, 98), (12, 102), (10, 110), (13, 114), (9, 116)]

def quoteUnit (u : UInt16) : Units :=
  match SHORT_ESCAPES.find? (·.1 = u) with
  | some escape => [92, escape.2]
  | none => if u < 32 || isHighSurrogate u || isLowSurrogate u then escapeUnit u else [u]

/-- A text between its quotes.  Only half a pair of surrogates is escaped. -/
def quoteBody : Units → Units
  | [] => []
  | [u] => quoteUnit u
  | u :: v :: us => if isHighSurrogate u && isLowSurrogate v then u :: v :: quoteBody us else quoteUnit u ++ quoteBody (v :: us)

def quote (us : Units) : Units := 34 :: quoteBody us ++ [34]

def quoteAll : List Units → Units
  | [] => []
  | [text] => quote text
  | text :: texts => quote text ++ 44 :: quoteAll texts

/-- `JSON.stringify` of a list of texts. -/
def stringify (texts : List Units) : Units := 91 :: quoteAll texts ++ [93]

/-- The letters behind a backslash: quotes, backslash, slash, and `bfnrt`. -/
def ESCAPE_LETTERS : List UInt16 := [34, 92, 47, 98, 102, 110, 114, 116]

/-- What stands between the quotes of a string in JSON. -/
inductive JsonChars : Units → Prop where
  | nil : JsonChars []
  | plain {u : UInt16} {us : Units} (hsmall : 32 ≤ u) (hquote : u ≠ 34) (hbackslash : u ≠ 92) (h : JsonChars us) : JsonChars (u :: us)
  | short {u : UInt16} {us : Units} (hshort : u ∈ ESCAPE_LETTERS) (h : JsonChars us) : JsonChars (92 :: u :: us)
  | hex {a b c d : UInt16} {us : Units} (hhex : ∀ u ∈ [a, b, c, d], u ∈ units "0123456789abcdefABCDEF") (h : JsonChars us) :
      JsonChars (92 :: 117 :: a :: b :: c :: d :: us)

/-- The items of a list of strings in JSON. -/
inductive JsonItems : Units → Prop where
  | last {us : Units} (h : JsonChars us) : JsonItems (34 :: us ++ [34])
  | cons {us rest : Units} (h : JsonChars us) (hrest : JsonItems rest) : JsonItems (34 :: us ++ 34 :: 44 :: rest)

/-- A list of strings in JSON. -/
inductive JsonStrings : Units → Prop where
  | empty : JsonStrings [91, 93]
  | items {us : Units} (h : JsonItems us) : JsonStrings (91 :: us ++ [93])

theorem hexDigit_mem {n : ℕ} (h : n < 16) : hexDigit n ∈ units "0123456789abcdefABCDEF" := by
  have hall : ∀ n < 16, hexDigit n ∈ units "0123456789abcdefABCDEF" := by decide +kernel
  exact hall n h

theorem JsonChars.quoteUnit {us : Units} (u : UInt16) (h : JsonChars us) : JsonChars (quoteUnit u ++ us) := by
  unfold Lib.quoteUnit
  cases hescape : SHORT_ESCAPES.find? (·.1 = u) with
  | some escape =>
    have hletter : (SHORT_ESCAPES.all fun e => ESCAPE_LETTERS.contains e.2) = true := by decide +kernel
    have hmem := List.all_eq_true.mp hletter escape (List.mem_of_find?_eq_some hescape)
    exact .short (by simpa using hmem) h
  | none =>
    simp only
    split
    · refine .hex (fun d hd => ?_) h
      simp only [List.mem_cons, List.not_mem_nil, or_false] at hd
      rcases hd with rfl | rfl | rfl | rfl <;> exact hexDigit_mem (Nat.mod_lt _ (by decide))
    · rename_i hplain
      have hnone := List.find?_eq_none.mp hescape
      have hquote : u ≠ 34 := fun heq => hnone (34, 34) (by decide) (by simp [heq])
      have hbackslash : u ≠ 92 := fun heq => hnone (92, 92) (by decide) (by simp [heq])
      simp only [Bool.or_eq_true, not_or, decide_eq_true_eq, UInt16.not_lt] at hplain
      exact .plain hplain.1.1 hquote hbackslash h

/-- Half a pair is no character that JSON escapes. -/
theorem JsonChars.surrogate {u : UInt16} {us : Units} (hu : isHighSurrogate u = true ∨ isLowSurrogate u = true) (h : JsonChars us) :
    JsonChars (u :: us) := by
  have hlarge : 0xD800 ≤ u := by
    simp only [isHighSurrogate, isLowSurrogate, Bool.and_eq_true, decide_eq_true_eq] at hu
    rcases hu with hu | hu
    · exact hu.1
    · exact UInt16.le_trans (by decide) hu.1
  refine .plain (UInt16.le_trans (by decide) hlarge) ?_ ?_ h
  · rintro rfl
    exact absurd hlarge (by decide)
  · rintro rfl
    exact absurd hlarge (by decide)

theorem jsonChars_quoteBody (us : Units) : JsonChars (quoteBody us) := by
  induction us using quoteBody.induct with
  | case1 => exact .nil
  | case2 u => simpa [quoteBody] using JsonChars.quoteUnit u .nil
  | case3 u v us hpair ih =>
    rw [quoteBody, if_pos hpair]
    rw [Bool.and_eq_true] at hpair
    exact .surrogate (.inl hpair.1) (.surrogate (.inr hpair.2) ih)
  | case4 u v us hpair ih =>
    rw [quoteBody, if_neg hpair]
    exact JsonChars.quoteUnit u ih

/-- `JSON.stringify` writes JSON. -/
theorem jsonStrings_stringify (texts : List Units) : JsonStrings (stringify texts) := by
  have hitems : ∀ text texts, JsonItems (quoteAll (text :: texts)) := by
    intro text texts
    induction texts generalizing text with
    | nil => exact .last (jsonChars_quoteBody text)
    | cons next texts ih =>
      rw [quoteAll, quote, List.append_assoc]
      · exact .cons (jsonChars_quoteBody text) (ih next)
      · simp
  cases texts with
  | nil => exact .empty
  | cons text texts => exact .items (hitems text texts)

end Pokyh.Lib

import Pokyh.Lib.Json

/-!
# Lib — Documents

JSON documents of texts, lists of texts and records, as they are written, and how many bytes they take in UTF-8.

* `cost`: what a text takes between its quotes, character by character.
* `byteLength_quote`: **a quoted text takes its cost and two quotes**, whatever follows.
* `cost_append`, `cost_take`: the cost of a text from that of its parts, and of what a cut leaves.
-/

namespace Pokyh.Lib

inductive Document where
  | text (value : Units)
  | list (values : List Units)
  | record (fields : List (Units × Document))

mutual

/-- `JSON.stringify` -/
def Document.stringify : Document → Units
  | .text value => quote value
  | .list values => Lib.stringify values
  | .record fields => 123 :: stringifyFields fields ++ [125]
termination_by structural d => d

def stringifyFields : List (Units × Document) → Units
  | [] => []
  | [field] => stringifyField field
  | field :: next :: fields => stringifyField field ++ 44 :: stringifyFields (next :: fields)
termination_by structural fields => fields

def stringifyField : Units × Document → Units
  | (key, value) => quote key ++ 58 :: value.stringify
termination_by structural field => field

end

/-! ### Bytes -/

/-- The bytes of one unit; half a pair of surrogates is replaced by a character of three. -/
def unitBytes (u : UInt16) : ℕ := if u < 0x80 then 1 else if u < 0x800 then 2 else 3

/-- `Buffer.byteLength` -/
def byteLength : Units → ℕ
  | [] => 0
  | [u] => unitBytes u
  | u :: v :: us => if isHighSurrogate u && isLowSurrogate v then 4 + byteLength us else unitBytes u + byteLength (v :: us)

/-- What a unit takes between quotes: an escape of one letter, one of four digits, or the unit itself. -/
def unitCost (u : UInt16) : ℕ :=
  if u ∈ [8, 9, 10, 12, 13, 34, 92] then 2 else if u < 32 || isHighSurrogate u || isLowSurrogate u then 6 else unitBytes u

/-- What a text takes between its quotes. -/
def cost : Units → ℕ
  | [] => 0
  | [u] => unitCost u
  | u :: v :: us => if isHighSurrogate u && isLowSurrogate v then 4 + cost us else unitCost u + cost (v :: us)

theorem byteLength_cons {u : UInt16} (us : Units) (h : isHighSurrogate u = false) : byteLength (u :: us) = unitBytes u + byteLength us := by
  cases us with
  | nil => rfl
  | cons v us => rw [byteLength, h, Bool.false_and, if_neg (by decide)]

theorem byteLength_ascii {u : UInt16} (us : Units) (h : u < 0x80) : byteLength (u :: us) = byteLength us + 1 := by
  have hhigh : isHighSurrogate u = false := by
    rw [isHighSurrogate, Bool.and_eq_false_iff]
    exact .inl (decide_eq_false (UInt16.not_le.mpr (UInt16.lt_trans h (by decide))))
  rw [byteLength_cons us hhigh, unitBytes, if_pos h, Nat.add_comm]

theorem hexDigit_ascii (n : ℕ) (h : n < 16) : hexDigit n < 0x80 := by
  have hall : ∀ n < 16, hexDigit n < 0x80 := by decide +kernel
  exact hall n h

/-- A quoted unit takes its cost. -/
theorem byteLength_quoteUnit (u : UInt16) (rest : Units) : byteLength (quoteUnit u ++ rest) = unitCost u + byteLength rest := by
  rw [quoteUnit, unitCost]
  cases hescape : SHORT_ESCAPES.find? (·.1 = u) with
  | some escape =>
      have hletters : (SHORT_ESCAPES.all fun e => decide (e.1 ∈ [8, 9, 10, 12, 13, 34, 92] ∧ e.2 < 0x80)) = true := by decide +kernel
      have hletter := of_decide_eq_true (List.all_eq_true.mp hletters escape (List.mem_of_find?_eq_some hescape))
      have hunit : escape.1 = u := by simpa using List.find?_some hescape
      rw [← hunit, if_pos hletter.1]
      simp only [List.cons_append, List.nil_append]
      rw [byteLength_ascii _ (by decide), byteLength_ascii _ hletter.2]
      omega
  | none =>
      have hshort : u ∉ ([8, 9, 10, 12, 13, 34, 92] : Units) := by
        intro hmem
        have hfound : ∀ v ∈ ([8, 9, 10, 12, 13, 34, 92] : Units), (SHORT_ESCAPES.find? (·.1 = v)).isSome = true :=
          List.all_eq_true.mp (by decide +kernel)
        have hsome := hfound u hmem
        rw [hescape] at hsome
        cases hsome
      rw [if_neg hshort]
      simp only
      split
      · have hdigit : ∀ n, hexDigit (n % 16) < 0x80 := fun n => hexDigit_ascii _ (Nat.mod_lt n (by decide))
        rw [escapeUnit]
        simp only [List.cons_append, List.nil_append]
        rw [byteLength_ascii _ (by decide), byteLength_ascii _ (by decide), byteLength_ascii _ (hdigit _), byteLength_ascii _ (hdigit _),
          byteLength_ascii _ (hdigit _), byteLength_ascii _ (hdigit _)]
        omega
      · rename_i hplain
        rw [Bool.or_eq_true, not_or, Bool.or_eq_true, not_or, Bool.not_eq_true, Bool.not_eq_true] at hplain
        exact byteLength_cons rest hplain.1.2

theorem byteLength_quoteBody (us rest : Units) (h : ∀ u ∈ rest.head?, isLowSurrogate u = false) :
    byteLength (quoteBody us ++ rest) = cost us + byteLength rest := by
  induction us using quoteBody.induct with
  | case1 => simp [quoteBody, cost]
  | case2 u => exact byteLength_quoteUnit u rest
  | case3 u v us hpair ih =>
      rw [quoteBody, if_pos hpair, cost, if_pos hpair, List.cons_append, List.cons_append, byteLength, if_pos hpair, ih, Nat.add_assoc]
  | case4 u v us hpair ih =>
      rw [quoteBody, if_neg hpair, cost, if_neg hpair, List.append_assoc, byteLength_quoteUnit, ih, Nat.add_assoc]

/-- **A quoted text takes its cost and two quotes.** -/
theorem byteLength_quote (us rest : Units) : byteLength (quote us ++ rest) = cost us + byteLength rest + 2 := by
  have hquote : ∀ u ∈ (34 :: rest : Units).head?, isLowSurrogate u = false := by
    intro u hu
    obtain rfl := Option.some.inj hu
    decide
  rw [quote, List.append_assoc, List.cons_append, byteLength_ascii _ (by decide), List.singleton_append,
    byteLength_quoteBody us (34 :: rest) hquote, byteLength_ascii _ (by decide)]
  omega

/-! ### Costs -/

/-- Nothing is paired across a unit that is no half of a pair. -/
theorem cost_cons {u : UInt16} (us : Units) (h : isHighSurrogate u = false) : cost (u :: us) = unitCost u + cost us := by
  cases us with
  | nil => rfl
  | cons v us => rw [cost, h, Bool.false_and, if_neg (by decide)]

theorem cost_append (xs : Units) {ys : Units} (h : ∀ v ∈ ys.head?, isLowSurrogate v = false) : cost (xs ++ ys) = cost xs + cost ys := by
  induction xs using cost.induct with
  | case1 => simp [cost]
  | case2 u =>
      cases ys with
      | nil => rfl
      | cons v ys =>
          have hv := h v (by simp)
          rw [List.singleton_append, cost.eq_3, hv, Bool.and_false, if_neg (by decide)]
          rfl
  | case3 u v us hpair ih => rw [List.cons_append, List.cons_append, cost, if_pos hpair, ih, cost, if_pos hpair, Nat.add_assoc]
  | case4 u v us hpair ih =>
      rw [List.cons_append] at ih
      rw [List.cons_append, List.cons_append, cost, if_neg hpair, ih, cost, if_neg hpair, Nat.add_assoc]

/-- A beginning without half a pair at its end costs the same in front of anything. -/
theorem cost_behind {us : Units} (h : us.any isHighSurrogate = false) (rest : Units) : cost (us ++ rest) = cost us + cost rest := by
  induction us with
  | nil => simp [cost]
  | cons u us ih =>
      rw [List.any_cons, Bool.or_eq_false_iff] at h
      rw [List.cons_append, cost_cons _ h.1, cost_cons _ h.1, ih h.2, Nat.add_assoc]

/-- No half of a pair, and no control character that is written with four digits. -/
def isPlain : Units → Bool
  | [] => true
  | [u] => unitCost u ≤ 3
  | u :: v :: us => if isHighSurrogate u && isLowSurrogate v then isPlain us else unitCost u ≤ 3 && isPlain (v :: us)

theorem unitCost_le (u : UInt16) : unitCost u ≤ 6 := by
  rw [unitCost, unitBytes]
  split
  · decide
  · split
    · decide
    · split
      · decide
      · split <;> decide

theorem cost_le (us : Units) : cost us ≤ 6 * us.length := by
  induction us using cost.induct with
  | case1 => exact Nat.zero_le _
  | case2 u => exact unitCost_le u
  | case3 u v us hpair ih =>
      rw [cost, if_pos hpair, List.length_cons, List.length_cons]
      omega
  | case4 u v us hpair ih =>
      have hu := unitCost_le u
      rw [cost, if_neg hpair, List.length_cons]
      omega

/-- A cut leaves at most three bytes a unit, and half a pair. -/
theorem cost_take {us : Units} (h : isPlain us = true) (n : ℕ) : cost (us.take n) ≤ 3 * n + 3 := by
  induction us using cost.induct generalizing n with
  | case1 => simp [cost]
  | case2 u =>
      cases n with
      | zero => simp [cost]
      | succ n =>
          have hu : unitCost u ≤ 3 := by simpa [isPlain] using h
          rw [List.take_succ_cons, List.take_nil, cost]
          omega
  | case3 u v us hpair ih =>
      rw [isPlain, if_pos hpair] at h
      match n with
      | 0 => simp [cost]
      | 1 => exact unitCost_le u
      | n + 2 =>
          have hrest := ih h n
          rw [List.take_succ_cons, List.take_succ_cons, cost, if_pos hpair]
          omega
  | case4 u v us hpair ih =>
      rw [isPlain, if_neg hpair, Bool.and_eq_true, decide_eq_true_eq] at h
      match n with
      | 0 => simp [cost]
      | 1 =>
          rw [List.take_succ_cons, List.take_zero, cost]
          omega
      | n + 2 =>
          have hrest := ih h.2 (n + 1)
          rw [List.take_succ_cons] at hrest
          rw [List.take_succ_cons, List.take_succ_cons, cost, if_neg hpair]
          omega

end Pokyh.Lib

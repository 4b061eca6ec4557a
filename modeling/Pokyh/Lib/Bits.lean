import Mathlib.Data.List.Basic
import Mathlib.Tactic.Cases

/-!
# Lib — Bits

The lowest bits of a machine word as a list, the highest of them first, and what shifting and joining words does to them.  A word
that is shifted without ever being masked keeps in its lowest bits what was joined last, whatever has run over its upper end.

* `lowBits_join`: **the bits of a word that was shifted and joined** are its own and then those that were joined.
* `lowBits_split`: the upper part of the lowest bits is read by shifting back.
* `eq_of_blocks`: blocks of one length are read back from what they are written as, whatever short rest follows.
-/

namespace Pokyh.Lib

variable {w : ℕ}

/-- The lowest `n` bits of a word, the highest of them first. -/
def lowBits : ℕ → BitVec w → List Bool
  | 0, _ => []
  | n + 1, v => v.getLsbD n :: lowBits n v

@[simp] theorem length_lowBits (n : ℕ) (v : BitVec w) : (lowBits n v).length = n := by
  induction n with
  | zero => rfl
  | succ n ih => rw [lowBits, List.length_cons, ih]

/-- Words with the same lowest bits. -/
theorem lowBits_congr {w' n : ℕ} {v : BitVec w} {v' : BitVec w'} (h : ∀ i < n, v.getLsbD i = v'.getLsbD i) :
    lowBits n v = lowBits n v' := by
  induction n with
  | zero => rfl
  | succ n ih =>
      have hrest : lowBits n v = lowBits n v' := ih fun i hi => h i (Nat.lt_succ_of_lt hi)
      rw [lowBits, lowBits, h n n.lt_succ_self, hrest]

theorem getLsbD_eq_of_lowBits_eq {w' n : ℕ} {v : BitVec w} {v' : BitVec w'} (h : lowBits n v = lowBits n v') {i : ℕ} (hi : i < n) :
    v.getLsbD i = v'.getLsbD i := by
  induction n with
  | zero => exact absurd hi (Nat.not_lt_zero i)
  | succ n ih =>
      obtain ⟨htop, hrest⟩ := List.cons.inj h
      rcases Nat.lt_succ_iff_lt_or_eq.mp hi with hlt | rfl
      · exact ih hrest hlt
      · exact htop

/-- A word of `w` bits is its lowest `w` bits. -/
theorem lowBits_injective : Function.Injective (lowBits w : BitVec w → List Bool) := by
  intro v v' h
  exact BitVec.eq_of_getLsbD_eq fun i hi => getLsbD_eq_of_lowBits_eq h hi

/-- **The upper part of the lowest bits** is read by shifting back. -/
theorem lowBits_split (m n : ℕ) (v : BitVec w) : lowBits (m + n) v = lowBits m (v >>> n) ++ lowBits n v := by
  induction m with
  | zero => rw [Nat.zero_add, lowBits, List.nil_append]
  | succ m ih =>
      have htop : v.getLsbD (m + n) = (v >>> n).getLsbD m := by
        rw [BitVec.getLsbD_ushiftRight, Nat.add_comm]
      rw [Nat.succ_add, lowBits, lowBits, ih, htop, List.cons_append]

/-- **The bits of a word that was shifted and joined**: what ran over its upper end is none of them. -/
theorem lowBits_join {m n : ℕ} (v : BitVec w) (x : BitVec n) (hfits : m + n ≤ w) :
    lowBits (m + n) (v <<< n ||| x.setWidth w) = lowBits m v ++ lowBits n x := by
  rw [lowBits_split]
  congr 1
  · refine lowBits_congr fun i hi => ?_
    have hplace : n + i < w := by omega
    have hinner : i < w := by omega
    have hpast : ¬ n + i < n := by omega
    simp [hplace, hinner, hpast]
  · refine lowBits_congr fun i hi => ?_
    have hplace : i < w := by omega
    simp [hi, hplace]

theorem lowBits_zero (n : ℕ) : lowBits n (0 : BitVec w) = List.replicate n false := by
  induction n with
  | zero => rfl
  | succ n ih =>
      have htop : (0 : BitVec w).getLsbD n = false := BitVec.getLsbD_zero
      rw [lowBits, ih, htop, List.replicate_succ]

/-- A word that is shifted ends in zeros. -/
theorem lowBits_shift {m n : ℕ} (v : BitVec w) (hfits : m + n ≤ w) :
    lowBits (m + n) (v <<< n) = lowBits m v ++ List.replicate n false := by
  have hjoin := lowBits_join (m := m) v (0 : BitVec n) hfits
  have hnothing : v <<< n ||| (0 : BitVec n).setWidth w = v <<< n := by simp
  rw [hnothing, lowBits_zero] at hjoin
  exact hjoin

/-! ### Blocks -/

variable {α β : Type*}

/-- **Blocks of one length are read back** from what they are written as, whatever short rest follows. -/
theorem eq_of_blocks {f : α → List β} {k : ℕ} (hlength : ∀ a, (f a).length = k) (hf : Function.Injective f)
    {as as' : List α} {rest rest' : List β} (hrest : rest.length < k) (hrest' : rest'.length < k)
    (h : as.flatMap f ++ rest = as'.flatMap f ++ rest') : as = as' := by
  induction as generalizing as' with
  | nil =>
      cases as' with
      | nil => rfl
      | cons a' as' =>
          have hlen := congrArg List.length h
          simp only [List.flatMap_nil, List.nil_append, List.flatMap_cons, List.length_append, hlength] at hlen
          omega
  | cons a as ih =>
      cases as' with
      | nil =>
          have hlen := congrArg List.length h
          simp only [List.flatMap_nil, List.nil_append, List.flatMap_cons, List.length_append, hlength] at hlen
          omega
      | cons a' as' =>
          rw [List.flatMap_cons, List.flatMap_cons, List.append_assoc, List.append_assoc] at h
          obtain ⟨hhead, htail⟩ := List.append_inj h (by rw [hlength, hlength])
          rw [hf hhead, ih htail]

end Pokyh.Lib

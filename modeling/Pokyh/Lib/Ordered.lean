import Mathlib.Data.List.Dedup
import Mathlib.Data.List.Sort

/-!
# Lib — Ordered

The elements of a list, each once and in order: `[...new Set(xs)].sort()`.
-/

namespace Pokyh.Lib

variable {α : Type*} [LinearOrder α] {xs ys : List α} {x : α}

def inOrder (xs : List α) : List α := xs.dedup.insertionSort (· ≤ ·)

@[simp] theorem mem_inOrder : x ∈ inOrder xs ↔ x ∈ xs := by
  simp [inOrder]

theorem nodup_inOrder (xs : List α) : (inOrder xs).Nodup :=
  (List.perm_insertionSort _ _).nodup_iff.mpr xs.nodup_dedup

theorem pairwise_inOrder (xs : List α) : (inOrder xs).Pairwise (· < ·) :=
  (List.Pairwise.and (List.pairwise_insertionSort (· ≤ ·) xs.dedup) (nodup_inOrder xs)).imp fun h => lt_of_le_of_ne h.1 h.2

/-- Two lists in order with the same elements are one. -/
theorem eq_of_pairwise_lt (hx : xs.Pairwise (· < ·)) (hy : ys.Pairwise (· < ·)) (h : ∀ x, x ∈ xs ↔ x ∈ ys) : xs = ys := by
  have hperm : xs.Perm ys :=
    (List.perm_ext_iff_of_nodup (hx.imp fun h => h.ne) (hy.imp fun h => h.ne)).mpr h
  exact hperm.eq_of_pairwise (fun a b _ _ hab hba => absurd hab (lt_asymm hba)) hx hy

theorem inOrder_eq (hy : ys.Pairwise (· < ·)) (h : ∀ x, x ∈ ys ↔ x ∈ xs) : inOrder xs = ys :=
  eq_of_pairwise_lt (pairwise_inOrder xs) hy fun x => mem_inOrder.trans (h x).symm

end Pokyh.Lib

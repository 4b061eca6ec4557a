import Mathlib.Data.List.Nodup

/-!
# Lib — Relocations

Where each element of a list goes, as pairs of what was and what is; anything else stays.
-/

namespace Pokyh.Lib

variable {α : Type*} [DecidableEq α] {xs ys : List α} {pairs : List (α × α)} {x : α}

def relocate : List (α × α) → α → α
  | [], x => x
  | (a, b) :: pairs, x => if x = a then b else relocate pairs x

theorem relocate_of_notMem (h : x ∉ pairs.map Prod.fst) : relocate pairs x = x := by
  induction pairs with
  | nil => rfl
  | cons pair pairs ih =>
    simp only [List.map_cons, List.mem_cons, not_or] at h
    rw [relocate, if_neg h.1, ih h.2]

theorem relocate_of_mem {y : α} (hnodup : (pairs.map Prod.fst).Nodup) (h : (x, y) ∈ pairs) : relocate pairs x = y := by
  induction pairs with
  | nil => cases h
  | cons pair pairs ih =>
    obtain ⟨hout, hrest⟩ := List.nodup_cons.mp hnodup
    rcases List.mem_cons.mp h with rfl | h
    · exact if_pos rfl
    · have hne : x ≠ pair.1 := ne_of_mem_of_not_mem (List.mem_map_of_mem (f := Prod.fst) h) hout
      rw [relocate, if_neg hne, ih hrest h]

/-- The elements, relocated beside another list, are that list. -/
theorem map_relocate_zip (hnodup : xs.Nodup) (hlength : xs.length = ys.length) : xs.map (relocate (xs.zip ys)) = ys := by
  induction xs generalizing ys with
  | nil => exact (List.length_eq_zero_iff.mp hlength.symm).symm
  | cons x xs ih =>
    cases ys with
    | nil => simp at hlength
    | cons y ys =>
      obtain ⟨hout, hrest⟩ := List.nodup_cons.mp hnodup
      rw [List.zip_cons_cons, List.map_cons, relocate, if_pos rfl]
      refine congrArg _ ((List.map_congr_left fun z hz => ?_).trans (ih hrest (by simpa using hlength)))
      rw [relocate, if_neg (ne_of_mem_of_not_mem hz hout)]

omit [DecidableEq α] in
/-- Nothing is relocated when both lists are one. -/
theorem forall_mem_zip_iff (hlength : xs.length = ys.length) : (∀ pair ∈ xs.zip ys, pair.1 = pair.2) ↔ xs = ys := by
  induction xs generalizing ys with
  | nil => simp [List.length_eq_zero_iff.mp hlength.symm]
  | cons x xs ih =>
    cases ys with
    | nil => simp at hlength
    | cons y ys => rw [List.zip_cons_cons, List.forall_mem_cons, ih (by simpa using hlength), List.cons.injEq]

end Pokyh.Lib

import Mathlib.Data.List.Basic

/-!
# Lib — Counting

How many items of a list satisfy a predicate, when one of them changes.

* `countP_modify`: the count goes by what the item was and what it is now.
* `getElem?_modify_cases`: an item of the list afterwards is the changed one or one from before.
-/

namespace Pokyh.Lib

variable {α : Type*} {l : List α} {i j : ℕ} {x y : α} {f : α → α}

theorem countP_modify (p : α → Bool) (f : α → α) (h : l[i]? = some x) :
    (l.modify i f).countP p + (p x).toNat = l.countP p + (p (f x)).toNat := by
  induction l generalizing i with
  | nil => cases h
  | cons z l ih =>
      cases i with
      | zero =>
          obtain rfl : z = x := by simpa using h
          cases hz : p z <;> cases hf : p (f z) <;> simp [hz, hf]
      | succ i =>
          have hrest := ih (i := i) (by simpa using h)
          rw [List.modify_succ_cons, List.countP_cons, List.countP_cons]
          omega

theorem getElem?_modify_cases (h : (l.modify i f)[j]? = some y) :
    (j = i ∧ ∃ x, l[j]? = some x ∧ y = f x) ∨ (j ≠ i ∧ l[j]? = some y) := by
  rw [List.getElem?_modify, Option.map_eq_map, Option.map_eq_some_iff] at h
  obtain ⟨x, hx, hy⟩ := h
  by_cases heq : i = j
  · exact .inl ⟨heq.symm, x, hx, by rw [← hy, if_pos heq]⟩
  · rw [if_neg heq] at hy
    exact .inr ⟨fun h => heq h.symm, hy ▸ hx⟩

/-- The item that was changed. -/
theorem getElem?_modify_self (f : α → α) (h : l[i]? = some x) : (l.modify i f)[i]? = some (f x) := by
  rw [List.getElem?_modify, h]
  exact congrArg some (if_pos rfl)

theorem getElem?_modify_other (f : α → α) (hne : j ≠ i) : (l.modify i f)[j]? = l[j]? := by
  rw [List.getElem?_modify, Option.map_eq_map]
  cases l[j]? with
  | none => rfl
  | some x => exact congrArg some (if_neg fun h => hne h.symm)

end Pokyh.Lib

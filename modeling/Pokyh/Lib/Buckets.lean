import Mathlib.Data.List.Basic
import Pokyh.Lib.Tables

/-!
# Lib — Buckets

Tables of lists in which no list is empty: what is put into the list of a key makes the list if there is none, and what is taken from it
takes the list away with its last element.

* `bucket_addTo`, `bucket_dropFrom`: the lists afterwards.
* `Filled`: no empty list is kept.
-/

namespace Pokyh.Lib

variable {κ α : Type*} [DecidableEq κ] [DecidableEq α] {t : Table κ (List α)} {k k' : κ} {a b : α}

namespace Table

/-- The list of a key, empty where there is none. -/
def bucket (t : Table κ (List α)) (k : κ) : List α := (t.lookup k).getD []

def addTo (t : Table κ (List α)) (k : κ) (a : α) : Table κ (List α) := t.insert k (t.bucket k ++ [a])

/-- The list goes when it has become empty. -/
def dropFrom (t : Table κ (List α)) (k : κ) (a : α) : Table κ (List α) :=
  match t.lookup k with
  | none => t
  | some list => if list.erase a = [] then t.erase k else t.insert k (list.erase a)

/-- No empty list is kept. -/
def Filled (t : Table κ (List α)) : Prop := ∀ k, t.lookup k ≠ some []

omit [DecidableEq α] in
@[simp] theorem bucket_empty (k : κ) : bucket (∅ : Table κ (List α)) k = [] := by
  simp [bucket]

omit [DecidableEq α] in
theorem filled_empty : Filled (∅ : Table κ (List α)) := by
  intro k
  simp

omit [DecidableEq α] in
theorem bucket_insert {list : List α} : bucket (t.insert k list) k' = if k' = k then list else t.bucket k' := by
  rw [bucket, lookup_insert_of]
  split <;> rfl

omit [DecidableEq α] in
theorem bucket_addTo : (t.addTo k a).bucket k' = if k' = k then t.bucket k ++ [a] else t.bucket k' := bucket_insert

omit [DecidableEq α] in
theorem Filled.insert (h : t.Filled) {list : List α} (hlist : list ≠ []) : Filled (t.insert k list) := by
  intro k' hempty
  rw [lookup_insert_of] at hempty
  split at hempty
  · exact hlist (Option.some.inj hempty)
  · exact h k' hempty

omit [DecidableEq α] in
theorem Filled.addTo (h : t.Filled) : (t.addTo k a).Filled := h.insert (by simp)

theorem bucket_dropFrom : (t.dropFrom k a).bucket k' = if k' = k then (t.bucket k).erase a else t.bucket k' := by
  rw [dropFrom]
  cases hlist : t.lookup k with
  | none =>
      have hbucket : t.bucket k = [] := by rw [bucket, hlist]; rfl
      dsimp only
      split
      · rename_i heq
        rw [heq, hbucket]
        rfl
      · rfl
  | some list =>
      have hbucket : t.bucket k = list := by rw [bucket, hlist]; rfl
      dsimp only
      split
      · rename_i hempty
        rw [hbucket, hempty, bucket, lookup_erase_of]
        split <;> rfl
      · rw [hbucket, bucket_insert]

theorem Filled.dropFrom (h : t.Filled) : (t.dropFrom k a).Filled := by
  rw [Table.dropFrom]
  split
  · exact h
  · split
    · intro k' hempty
      rw [lookup_erase_of] at hempty
      split at hempty
      · cases hempty
      · exact h k' hempty
    · rename_i hne
      exact h.insert hne

/-- Taking the first element off the list beforehand makes no difference to what is left without it. -/
theorem dropFrom_shift {list : List α} (hlist : t.lookup k = some (a :: list)) (hmem : a ∉ list) (hne : list ≠ []) :
    dropFrom (t.insert k list) k a = t.dropFrom k a := by
  rw [dropFrom, dropFrom, AList.lookup_insert, hlist]
  simp only [List.erase_of_not_mem hmem, List.erase_cons_head, if_neg hne, AList.insert_insert]

end Table

end Pokyh.Lib

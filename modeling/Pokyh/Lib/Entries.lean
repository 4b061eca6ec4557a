import Mathlib.Data.List.Nodup

/-!
# Lib — Entries

A map that keeps its keys in the order in which they came: a new key goes to the end, a key that is set again stays in its place.

* `get?_set`, `get?_delete`, `get?_keep`: what is read after each operation.
* `slot_foldl`: **what a loop does to one key is what its own rows do.**
-/

namespace Pokyh.Lib

/-- A map in the order of its keys' coming. -/
structure Entries (κ ν : Type*) where
  toList : List (κ × ν)
  nodup : (toList.map Prod.fst).Nodup

namespace Entries

variable {κ ν : Type*}

def empty : Entries κ ν := ⟨[], .nil⟩

def keys (m : Entries κ ν) : List κ := m.toList.map Prod.fst

def values (m : Entries κ ν) : List ν := m.toList.map Prod.snd

/-- The entries that pass the test. -/
def keep (m : Entries κ ν) (p : κ → ν → Bool) : Entries κ ν where
  toList := m.toList.filter fun e => p e.1 e.2
  nodup := m.nodup.sublist (List.filter_sublist.map _)

/-- Every value rewritten in place. -/
def adjust (m : Entries κ ν) (f : κ → ν → ν) : Entries κ ν where
  toList := m.toList.map fun e => (e.1, f e.1 e.2)
  nodup := by
    rw [List.map_map]
    exact m.nodup

variable [DecidableEq κ]

def get? (m : Entries κ ν) (k : κ) : Option ν := (m.toList.find? fun e => e.1 = k).map Prod.snd

def delete (m : Entries κ ν) (k : κ) : Entries κ ν := m.keep fun k' _ => k' ≠ k

def set (m : Entries κ ν) (k : κ) (v : ν) : Entries κ ν :=
  if h : k ∈ m.keys then m.adjust fun k' v' => if k' = k then v else v'
  else
    { toList := m.toList ++ [(k, v)]
      nodup := by
        rw [List.map_append, List.map_singleton]
        exact m.nodup.append (List.nodup_singleton k) (List.disjoint_singleton.mpr h) }

theorem mem_toList {m : Entries κ ν} {k : κ} {v : ν} : (k, v) ∈ m.toList ↔ m.get? k = some v := by
  constructor
  · intro h
    cases hfind : m.toList.find? fun e => e.1 = k with
    | none => simpa using List.find?_eq_none.mp hfind _ h
    | some e =>
        have hkey : e.1 = k := by simpa using List.find?_some hfind
        have heq : e = (k, v) := List.inj_on_of_nodup_map m.nodup (List.mem_of_find?_eq_some hfind) h hkey
        rw [get?, hfind, heq]
        rfl
  · intro h
    obtain ⟨e, hfind, rfl⟩ := Option.map_eq_some_iff.mp h
    have hkey : e.1 = k := by simpa using List.find?_some hfind
    exact hkey ▸ List.mem_of_find?_eq_some hfind

theorem mem_keys {m : Entries κ ν} {k : κ} : k ∈ m.keys ↔ ∃ v, m.get? k = some v := by
  constructor
  · intro h
    obtain ⟨⟨_, v⟩, he, rfl⟩ := List.mem_map.mp h
    exact ⟨v, mem_toList.mp he⟩
  · rintro ⟨v, h⟩
    exact List.mem_map.mpr ⟨_, mem_toList.mpr h, rfl⟩

theorem mem_values {m : Entries κ ν} {v : ν} : v ∈ m.values ↔ ∃ k, m.get? k = some v := by
  constructor
  · intro h
    obtain ⟨⟨k, _⟩, he, rfl⟩ := List.mem_map.mp h
    exact ⟨k, mem_toList.mp he⟩
  · rintro ⟨k, h⟩
    exact List.mem_map.mpr ⟨_, mem_toList.mpr h, rfl⟩

theorem get?_eq_none {m : Entries κ ν} {k : κ} : m.get? k = none ↔ k ∉ m.keys := by
  rw [mem_keys, Option.eq_none_iff_forall_ne_some, not_exists]

@[simp] theorem get?_empty (k : κ) : (empty : Entries κ ν).get? k = none := rfl

theorem get?_keep (m : Entries κ ν) (p : κ → ν → Bool) (k : κ) : (m.keep p).get? k = (m.get? k).filter (p k) := by
  ext v
  rw [← mem_toList, Option.filter_eq_some_iff, ← mem_toList, keep, List.mem_filter]

theorem get?_adjust (m : Entries κ ν) (f : κ → ν → ν) (k : κ) : (m.adjust f).get? k = (m.get? k).map (f k) := by
  ext v
  rw [← mem_toList, Option.map_eq_some_iff, adjust, List.mem_map]
  constructor
  · rintro ⟨⟨k', v'⟩, he, heq⟩
    cases heq
    exact ⟨v', mem_toList.mp he, rfl⟩
  · rintro ⟨v', hv', rfl⟩
    exact ⟨_, mem_toList.mpr hv', rfl⟩

theorem get?_delete (m : Entries κ ν) (k k' : κ) : (m.delete k).get? k' = if k' = k then none else m.get? k' := by
  rw [delete, get?_keep]
  split
  · next h => cases m.get? k' <;> simp [h]
  · next h => cases m.get? k' <;> simp [h]

theorem get?_set (m : Entries κ ν) (k k' : κ) (v : ν) : (m.set k v).get? k' = if k' = k then some v else m.get? k' := by
  unfold set
  split
  · next h =>
      rw [get?_adjust]
      obtain ⟨v', hv'⟩ := mem_keys.mp h
      split
      · next heq => rw [heq, hv', Option.map_some]
      · next => exact Option.map_id'
  · next h =>
      ext w
      rw [← mem_toList, List.mem_append, List.mem_singleton, Prod.mk.injEq, mem_toList]
      split
      · next heq =>
          rw [heq, get?_eq_none.mpr h]
          simp [eq_comm]
      · next hne => simp [hne]

theorem length_set_le (m : Entries κ ν) (k : κ) (v : ν) : (m.set k v).keys.length ≤ m.keys.length + 1 := by
  unfold set
  split
  · simp [keys, adjust]
  · simp [keys]

theorem length_delete_le (m : Entries κ ν) (k : κ) : (m.delete k).keys.length ≤ m.keys.length := by
  rw [keys, keys, List.length_map, List.length_map]
  exact List.length_filter_le _ _

end Entries

/-- **A loop over rows, seen from one key**: only its own rows count for it. -/
theorem slot_foldl {σ κ τ ρ : Type*} [DecidableEq κ] {v : σ → κ → τ} {step : σ → ρ → σ} {key : ρ → κ} {g : τ → ρ → τ}
    (hstep : ∀ s row k, v (step s row) k = if key row = k then g (v s k) row else v s k) (s : σ) (rows : List ρ) (k : κ) :
    v (rows.foldl step s) k = (rows.filter fun row => key row = k).foldl g (v s k) := by
  induction rows generalizing s with
  | nil => rfl
  | cons row rows ih =>
      rw [List.foldl_cons, ih, hstep]
      by_cases h : key row = k
      · simp [h]
      · simp [h]

end Pokyh.Lib

import Mathlib.Data.List.AList

/-!
# Lib — Tables

Finite tables with unique keys: Mathlib's `AList` at a constant value type, with the two
operations a database statement over many entries needs, `keep` (remove what fails a test) and
`adjust` (rewrite every value in place).
-/

namespace Pokyh.Lib

/-- A finite table: every key has at most one value. -/
abbrev Table (κ ν : Type*) := AList (fun _ : κ => ν)

namespace Table

variable {κ ν : Type*}

/-- The entries that pass the test. -/
def keep (p : κ → ν → Bool) (t : Table κ ν) : Table κ ν where
  entries := t.entries.filter fun e => p e.1 e.2
  nodupKeys := t.nodupKeys.sublist List.filter_sublist

/-- Every value rewritten in place. -/
def adjust (f : κ → ν → ν) (t : Table κ ν) : Table κ ν where
  entries := t.entries.map fun e => ⟨e.1, f e.1 e.2⟩
  nodupKeys := by
    have h : (t.entries.map fun e => (⟨e.1, f e.1 e.2⟩ : Σ _ : κ, ν)).keys = t.entries.keys := by
      simp [List.keys, Function.comp_def]
    rw [List.NodupKeys, h]
    exact t.nodupKeys

/-- The table of some entries; the first one of a key counts. -/
def ofList [DecidableEq κ] (entries : List (κ × ν)) : Table κ ν :=
  entries.foldr (fun e t => t.insert e.1 e.2) ∅

/-- The entries as pairs. -/
def toList (t : Table κ ν) : List (κ × ν) := t.entries.map fun e => (e.1, e.2)

theorem keep_eq_self {p : κ → ν → Bool} {t : Table κ ν} (h : ∀ e ∈ t.entries, p e.1 e.2 = true) :
    t.keep p = t :=
  AList.ext (List.filter_eq_self.mpr h)

theorem adjust_eq_self {f : κ → ν → ν} {t : Table κ ν} (h : ∀ e ∈ t.entries, f e.1 e.2 = e.2) :
    t.adjust f = t := by
  refine AList.ext ?_
  conv_rhs => rw [← List.map_id t.entries]
  refine List.map_congr_left fun e he => ?_
  obtain ⟨k, v⟩ := e
  exact congrArg (Sigma.mk k) (h _ he)

theorem nodup_toList (t : Table κ ν) : (t.toList.map Prod.fst).Nodup := by
  simpa [toList, Function.comp_def, List.NodupKeys, List.keys] using t.nodupKeys

variable [DecidableEq κ]

theorem mem_toList {t : Table κ ν} {k : κ} {v : ν} :
    (k, v) ∈ t.toList ↔ t.lookup k = some v := by
  rw [← Option.mem_def, AList.mem_lookup_iff]
  constructor
  · intro h
    obtain ⟨⟨k', v'⟩, he, heq⟩ := List.mem_map.mp h
    cases heq
    exact he
  · intro h
    exact List.mem_map.mpr ⟨⟨k, v⟩, h, rfl⟩

theorem lookup_keep {p : κ → ν → Bool} {t : Table κ ν} {k : κ} {v : ν} :
    (t.keep p).lookup k = some v ↔ t.lookup k = some v ∧ p k v = true := by
  rw [← Option.mem_def, ← Option.mem_def, AList.mem_lookup_iff, AList.mem_lookup_iff]
  simp [keep]

theorem lookup_keep_of_pos {p : κ → ν → Bool} {t : Table κ ν} {k : κ}
    (h : ∀ v, t.lookup k = some v → p k v = true) : (t.keep p).lookup k = t.lookup k := by
  ext v
  rw [lookup_keep]
  exact ⟨fun hv => hv.1, fun hv => ⟨hv, h v hv⟩⟩

theorem lookup_keep_of_neg {p : κ → ν → Bool} {t : Table κ ν} {k : κ}
    (h : ∀ v, t.lookup k = some v → p k v = false) : (t.keep p).lookup k = none := by
  rw [Option.eq_none_iff_forall_ne_some]
  intro v hv
  obtain ⟨h₁, h₂⟩ := lookup_keep.mp hv
  rw [h v h₁] at h₂
  cases h₂

@[simp] theorem lookup_adjust {f : κ → ν → ν} {t : Table κ ν} {k : κ} :
    (t.adjust f).lookup k = (t.lookup k).map (f k) := by
  exact List.dlookup_map₂ (l := t.entries) (f := f) k

theorem lookup_insert_of {t : Table κ ν} {k k' : κ} {v : ν} :
    (t.insert k v).lookup k' = if k' = k then some v else t.lookup k' := by
  split
  · next h => subst h; exact AList.lookup_insert t
  · next h => exact AList.lookup_insert_ne h

theorem lookup_erase_of {t : Table κ ν} {k k' : κ} :
    (t.erase k).lookup k' = if k' = k then none else t.lookup k' := by
  split
  · next h => subst h; exact AList.lookup_erase k' t
  · next h => exact AList.lookup_erase_ne h

end Table

end Pokyh.Lib

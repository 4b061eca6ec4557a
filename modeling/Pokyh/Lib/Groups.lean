import Mathlib.Data.List.Dedup
import Mathlib.Data.List.Flatten
import Mathlib.Data.List.Perm.Basic
import Mathlib.Data.List.Sort

/-!
# Lib — Groups

Lists as SQL and JavaScript group and index them.

* `groupBy`: `GROUP BY`, the groups of a list by a key.  `flatMap_groups` is the rule for going
  through a list group by group: nothing is lost and nothing is seen twice.
* `distinct`: the members of a list in the order they first occur (a JavaScript `Set`).
* `mapOf`: the last value given for a key (a JavaScript `Map` built from pairs).
-/

namespace Pokyh.Lib

variable {α κ ν : Type*} [DecidableEq κ]

/-! ### Going through a list by key -/

/-- **The group rule.**  The parts of a list by key, for distinct keys that cover it, make up the
list. -/
theorem flatMap_groups {f : α → κ} {l : List α} {keys : List κ} (hn : keys.Nodup)
    (hcover : ∀ a ∈ l, f a ∈ keys) :
    (keys.flatMap fun k => l.filter fun a => f a = k).Perm l := by
  induction keys generalizing l with
  | nil =>
      rw [List.eq_nil_iff_forall_not_mem.mpr fun a ha => List.not_mem_nil (hcover a ha)]
      simp
  | cons k keys ih =>
      obtain ⟨hk, hn⟩ := List.nodup_cons.mp hn
      have hrest : (keys.flatMap fun k' => l.filter fun a => f a = k') =
          keys.flatMap fun k' => (l.filter fun a => !decide (f a = k)).filter fun a => f a = k' := by
        refine List.flatMap_congr fun k' hk' => ?_
        rw [List.filter_filter]
        refine List.filter_congr fun a _ => ?_
        by_cases h : f a = k'
        · have hne : k' ≠ k := fun he => hk (he ▸ hk')
          simp [h, hne]
        · simp [h]
      rw [List.flatMap_cons, hrest]
      refine (List.Perm.append_left _ (ih hn fun a ha => ?_)).trans
        (List.filter_append_perm (fun a => decide (f a = k)) l)
      obtain ⟨ha, hne⟩ := List.mem_filter.mp ha
      exact (List.mem_cons.mp (hcover a ha)).resolve_left (by simpa using hne)

/-- The groups of a list by key. -/
def groupBy (f : α → κ) (l : List α) : List (κ × List α) :=
  (l.map f).dedup.map fun k => (k, l.filter fun a => f a = k)

theorem mem_groupBy {f : α → κ} {l : List α} {k : κ} {g : List α} :
    (k, g) ∈ groupBy f l ↔ (∃ a ∈ l, f a = k) ∧ g = l.filter fun a => f a = k := by
  simp only [groupBy, List.mem_map, List.mem_dedup, Prod.mk.injEq]
  constructor
  · rintro ⟨k', hk, rfl, rfl⟩
    exact ⟨hk, rfl⟩
  · rintro ⟨hk, rfl⟩
    exact ⟨k, hk, rfl, rfl⟩

/-! ### Sets and maps of a list -/

/-- The members of a list, each where it first occurs. -/
def distinct (l : List κ) : List κ := l.reverse.dedup.reverse

theorem mem_distinct {l : List κ} {k : κ} : k ∈ distinct l ↔ k ∈ l := by
  simp [distinct]

theorem nodup_distinct (l : List κ) : (distinct l).Nodup :=
  List.nodup_reverse.mpr (List.nodup_dedup _)

/-- The value of a key in a map built from pairs: the last one given. -/
def mapOf (entries : List (κ × ν)) (k : κ) : Option ν :=
  (entries.reverse.find? fun e => e.1 = k).map Prod.snd

theorem mapOf_mem {entries : List (κ × ν)} {k : κ} {v : ν} (h : mapOf entries k = some v) :
    (k, v) ∈ entries := by
  obtain ⟨⟨k', v'⟩, he, rfl⟩ := Option.map_eq_some_iff.mp h
  have hk : k' = k := by simpa using List.find?_some he
  subst hk
  exact List.mem_reverse.mp (List.mem_of_find?_eq_some he)

theorem mapOf_eq_none {entries : List (κ × ν)} {k : κ} :
    mapOf entries k = none ↔ ∀ v, (k, v) ∉ entries := by
  simp only [mapOf, Option.map_eq_none_iff, List.find?_eq_none, List.mem_reverse, decide_eq_true_eq]
  exact ⟨fun h v hv => h (k, v) hv rfl, fun h e he hk => h e.2 (hk ▸ he)⟩

theorem mapOf_eq_some {entries : List (κ × ν)} (hn : (entries.map Prod.fst).Nodup) {k : κ} {v : ν} :
    mapOf entries k = some v ↔ (k, v) ∈ entries := by
  refine ⟨mapOf_mem, fun h => ?_⟩
  cases hm : mapOf entries k with
  | none => exact absurd h (mapOf_eq_none.mp hm v)
  | some v' =>
      have heq := List.inj_on_of_nodup_map hn (mapOf_mem hm) h rfl
      exact congrArg some (Prod.mk.inj heq).2

end Pokyh.Lib

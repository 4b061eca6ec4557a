import Mathlib.Data.Set.Basic

/-!
# Lib — Selections

Whom a selection of targets reaches, where selecting nothing means everyone.  Selections of that kind
are monotone only among the non-empty ones: fewer targets reach fewer, but no target at all reaches
everyone.

* `reach_mono`: what is left of a selection reaches no one new, unless nothing is left of it.
* `reach_empty`: nothing left reaches everyone.
-/

namespace Pokyh.Lib

variable {α ι : Type*}

/-- With no target selected, everyone; otherwise those a selected target covers. -/
def reach (everyone : Set α) (covers : ι → Set α) (selected : Set ι) : Set α :=
  {a | (selected = ∅ ∧ a ∈ everyone) ∨ ∃ i ∈ selected, a ∈ covers i}

variable {everyone : Set α} {covers : ι → Set α} {kept selected : Set ι}

theorem mem_reach {a : α} :
    a ∈ reach everyone covers selected ↔
      (selected = ∅ ∧ a ∈ everyone) ∨ ∃ i ∈ selected, a ∈ covers i := Iff.rfl

theorem reach_empty : reach everyone covers ∅ = everyone := by
  ext a
  simp [mem_reach]

/-- **What is left of a selection reaches no one new, unless nothing is left of it.** -/
theorem reach_mono (hsub : kept ⊆ selected) (hleft : selected.Nonempty → kept.Nonempty) :
    reach everyone covers kept ⊆ reach everyone covers selected := by
  rintro a (⟨hkept, ha⟩ | ⟨i, hi, ha⟩)
  · refine .inl ⟨Set.not_nonempty_iff_eq_empty.mp fun hs => ?_, ha⟩
    exact (hleft hs).ne_empty hkept
  · exact .inr ⟨i, hsub hi, ha⟩

/-- Emptied, a selection reaches someone new as soon as it had left someone out. -/
theorem reach_emptied {a : α} (ha : a ∈ everyone) (hout : a ∉ reach everyone covers selected) :
    ¬ reach everyone covers ∅ ⊆ reach everyone covers selected :=
  fun hsub => hout (hsub (by rwa [reach_empty]))

end Pokyh.Lib

import Mathlib.Order.Basic
import Mathlib.Algebra.Order.Ring.Int

/-!
# Lib — Stretches

Stretches of consecutive days with a property, and the ones that cannot be longer.
-/

namespace Pokyh.Lib

variable {p : ℤ → Prop} {s e s' e' x : ℤ}

/-- Every day from `s` to `e` has the property. -/
def Stretch (p : ℤ → Prop) (s e : ℤ) : Prop := ∀ d, s ≤ d → d ≤ e → p d

/-- A stretch with the day before it and the day after it outside. -/
structure WholeStretch (p : ℤ → Prop) (s e : ℤ) : Prop where
  nonempty : s ≤ e
  inside : Stretch p s e
  before : ¬ p (s - 1)
  after : ¬ p (e + 1)

/-- Two stretches that share a day are one. -/
theorem Stretch.union (h : Stretch p s e) (h' : Stretch p s' e') (hx : s ≤ x ∧ x ≤ e) (hx' : s' ≤ x ∧ x ≤ e') :
    Stretch p (min s s') (max e e') := by
  intro d hs he
  by_cases hd : s ≤ d ∧ d ≤ e
  · exact h d hd.1 hd.2
  · exact h' d (by omega) (by omega)

theorem Stretch.extend (h : Stretch p s e) (hnext : p (e + 1)) : Stretch p s (e + 1) := by
  intro d hs he
  by_cases hle : d ≤ e
  · exact h d hs hle
  · rwa [show d = e + 1 by omega]

theorem Stretch.extend_left (h : Stretch p s e) (hprevious : p (s - 1)) : Stretch p (s - 1) e := by
  intro d hs he
  by_cases hle : s ≤ d
  · exact h d hle he
  · rwa [show d = s - 1 by omega]

theorem Stretch.single (hx : p x) : Stretch p x x := fun d hs he => by
  rwa [show d = x by omega]

/-- A stretch does not go past a day without the property. -/
theorem Stretch.lt_of_not (h : Stretch p s e) (hx : s ≤ x) (hnot : ¬ p x) : e < x := by
  by_contra hle
  exact hnot (h x hx (by omega))

theorem Stretch.gt_of_not (h : Stretch p s e) (hx : x ≤ e) (hnot : ¬ p x) : x < s := by
  by_contra hle
  exact hnot (h x (by omega) hx)

/-- A whole stretch holds every stretch it meets. -/
theorem WholeStretch.holds (h : WholeStretch p s e) (h' : Stretch p s' e') (hx : s ≤ x ∧ x ≤ e) (hx' : s' ≤ x ∧ x ≤ e') :
    s ≤ s' ∧ e' ≤ e := by
  have hstart := h'.gt_of_not (x := s - 1) (by omega) h.before
  have hlast := h'.lt_of_not (x := e + 1) (by omega) h.after
  omega

end Pokyh.Lib

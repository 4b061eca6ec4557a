import Mathlib.Order.WithBot
import Mathlib.Data.Finset.Max
import Mathlib.Logic.Function.Basic

/-!
# Lib — LastWriter

Replicas of one register.  Every replica holds nothing, or a stamp and a content; a replica only
ever adopts something with a greater stamp than its own.  A stamp names the replica that made it
(its `origin`), but not a content: copies on their way may carry a content that was read after
their stamp was replaced.  What keeps the replicas together is that such a copy is harmless, since
somebody holds a greater stamp already:

* `Genuine`: somebody holds a greater stamp, or the origin holds exactly this stamp and content.
* `Known`: the origin holds this stamp, or a greater one.
* `Genuine.adopt`, `Known.adopt`: both outlive every adoption.
* `agree_of_delivered`: **once every replica has what each origin holds of its own, all replicas
  hold the same.**
-/

namespace Pokyh.Lib

variable {ι S γ : Type*} [LinearOrder S]

/-- The replica holds stamp `s`, or a greater one. -/
def AtLeast (x : Option (S × γ)) (s : S) : Prop := ∃ t d, x = some (t, d) ∧ s ≤ t

/-- The replica holds a greater stamp than `s`. -/
def Beyond (x : Option (S × γ)) (s : S) : Prop := ∃ t d, x = some (t, d) ∧ s < t

theorem Beyond.atLeast {x : Option (S × γ)} {s : S} (h : Beyond x s) : AtLeast x s := by
  obtain ⟨t, d, hx, hst⟩ := h
  exact ⟨t, d, hx, hst.le⟩

section Adopt

variable [DecidableEq ι] (N : Finset ι) (origin : S → ι)

/-- A copy of the register: it is outdated, or what its origin holds. -/
def Genuine (held : ι → Option (S × γ)) (y : S × γ) : Prop :=
  (∃ n ∈ N, Beyond (held n) y.1) ∨ held (origin y.1) = some y

/-- The origin of the stamp has got to it. -/
def Known (held : ι → Option (S × γ)) (s : S) : Prop :=
  origin s ∈ N ∧ AtLeast (held (origin s)) s

variable {N origin} {held : ι → Option (S × γ)} {n : ι} {y z : S × γ}

/-- Every replica holds what it held, or has adopted `y`, which is greater. -/
theorem atLeast_adopt {m : ι} {s : S} (hy : ∀ x, held n = some x → x.1 < y.1)
    (h : AtLeast (held m) s) : AtLeast (Function.update held n (some y) m) s := by
  obtain ⟨t, d, hm, hst⟩ := h
  by_cases he : m = n
  · subst he
    exact ⟨y.1, y.2, by simp, hst.trans (hy _ hm).le⟩
  · exact ⟨t, d, by simpa [he] using hm, hst⟩

theorem beyond_adopt {m : ι} {s : S} (hy : ∀ x, held n = some x → x.1 < y.1)
    (h : Beyond (held m) s) : Beyond (Function.update held n (some y) m) s := by
  obtain ⟨t, d, hm, hst⟩ := h
  by_cases he : m = n
  · subst he
    exact ⟨y.1, y.2, by simp, hst.trans (hy _ hm)⟩
  · exact ⟨t, d, by simpa [he] using hm, hst⟩

theorem Genuine.adopt (hn : n ∈ N) (hy : ∀ x, held n = some x → x.1 < y.1)
    (h : Genuine N origin held z) : Genuine N origin (Function.update held n (some y)) z := by
  rcases h with ⟨m, hm, hb⟩ | h
  · exact .inl ⟨m, hm, beyond_adopt hy hb⟩
  · by_cases he : origin z.1 = n
    · exact .inl ⟨n, hn, y.1, y.2, by simp, hy _ (he ▸ h)⟩
    · exact .inr (by simpa [he] using h)

theorem Known.adopt {s : S} (hy : ∀ x, held n = some x → x.1 < y.1) (h : Known N origin held s) :
    Known N origin (Function.update held n (some y)) s :=
  ⟨h.1, atLeast_adopt hy h.2⟩

/-- What a replica makes itself is genuine. -/
theorem genuine_of_own (ho : origin y.1 = n) :
    Genuine N origin (Function.update held n (some y)) y :=
  .inr (by simp [ho])

theorem known_of_own (hn : n ∈ N) (ho : origin y.1 = n) :
    Known N origin (Function.update held n (some y)) y.1 := by
  refine ⟨ho ▸ hn, y.1, y.2, ?_, le_rfl⟩
  simp [ho]

end Adopt

variable {N : Finset ι} {origin : S → ι} {held : ι → Option (S × γ)}

/-- **Agreement.**  What the replicas hold is genuine and known, and every replica has at least
what each origin holds of its own. -/
theorem agree_of_delivered
    (hgen : ∀ n ∈ N, ∀ y, held n = some y → Genuine N origin held y)
    (hknown : ∀ n ∈ N, ∀ y, held n = some y → Known N origin held y.1)
    (hdel : ∀ m ∈ N, ∀ y, held m = some y → origin y.1 = m → ∀ n ∈ N, AtLeast (held n) y.1) :
    ∀ m ∈ N, ∀ n ∈ N, held m = held n := by
  classical
  by_cases hex : ∃ n ∈ N, (held n).isSome
  swap
  · have hnone : ∀ n ∈ N, held n = none := by
      intro n hn
      by_contra h
      exact hex ⟨n, hn, Option.isSome_iff_ne_none.mpr h⟩
    intro m hm n hn
    rw [hnone m hm, hnone n hn]
  -- The greatest stamp anybody holds.
  have hne : (N.filter fun n => (held n).isSome).Nonempty := by
    obtain ⟨n, hn, hs⟩ := hex
    exact ⟨n, Finset.mem_filter.mpr ⟨hn, hs⟩⟩
  let stamp : ι → WithBot S := fun n => (held n).map Prod.fst
  have hstamp : ∀ n z, held n = some z → stamp n = (z.1 : WithBot S) := by
    intro n z hz
    simp only [stamp, hz]
    rfl
  obtain ⟨top, htop, hmax⟩ := Finset.exists_max_image _ stamp hne
  obtain ⟨htop, hs⟩ := Finset.mem_filter.mp htop
  obtain ⟨y, hy⟩ := Option.isSome_iff_exists.mp hs
  have hle : ∀ n ∈ N, ∀ z, held n = some z → z.1 ≤ y.1 := by
    intro n hn z hz
    have h := hmax n (Finset.mem_filter.mpr ⟨hn, by simp [hz]⟩)
    rw [hstamp n z hz, hstamp top y hy] at h
    exact WithBot.coe_le_coe.mp h
  -- Nobody is beyond it, so a copy with this stamp is what the origin holds.
  have hgenuine : ∀ n ∈ N, ∀ z, held n = some z → z.1 = y.1 → held (origin y.1) = some z := by
    intro n hn z hz he
    rcases hgen n hn z hz with ⟨k, hk, t, d, ht, hlt⟩ | h
    · exact absurd (hle k hk _ ht) (not_le.mpr (he ▸ hlt))
    · rwa [he] at h
  have horigin : held (origin y.1) = some y := hgenuine top htop y hy rfl
  have hall : ∀ n ∈ N, held n = some y := by
    intro n hn
    obtain ⟨t, d, ht, hge⟩ := hdel (origin y.1) (hknown top htop y hy).1 y horigin rfl n hn
    have he : t = y.1 := le_antisymm (hle n hn _ ht) hge
    have h := hgenuine n hn _ ht he
    rw [horigin] at h
    rw [ht, ← h]
  intro m hm n hn
  rw [hall m hm, hall n hn]

end Pokyh.Lib

import Mathlib.Data.List.Forall2
import Mathlib.Logic.Basic
import Mathlib.Tactic.TypeStar

/-!
# Lib — Results

Computations that may fail (`Except`), taken apart: what it means for a sequence or a loop of them to
succeed.
-/

namespace Pokyh.Lib

universe u

variable {ε : Type*} {α β : Type u}

theorem toOption_eq_some {x : Except ε α} {a : α} : x.toOption = some a ↔ x = .ok a := by
  cases x <;> simp [Except.toOption]

theorem bind_eq_ok {x : Except ε α} {f : α → Except ε β} {b : β} :
    (x >>= f) = .ok b ↔ ∃ a, x = .ok a ∧ f a = .ok b := by
  cases x <;> simp [bind, Except.bind]

theorem mapError_eq_ok {ε' : Type*} {x : Except ε α} {f : ε → ε'} {a : α} :
    x.mapError f = .ok a ↔ x = .ok a := by
  cases x <;> simp [Except.mapError]

/-- A guard: a condition under which the computation ends with an error. -/
def refuseIf (p : Prop) [Decidable p] (e : ε) : Except ε Unit := if p then .error e else .ok ()

@[simp] theorem refuseIf_eq_ok {p : Prop} [Decidable p] {e : ε} {u : Unit} :
    refuseIf p e = .ok u ↔ ¬ p := by
  by_cases h : p <;> simp [refuseIf, h]

/-- Every result of a loop that stops at the first error comes from an element. -/
theorem mem_of_mapM_ok {f : α → Except ε β} {l : List α} {out : List β}
    (h : l.mapM f = .ok out) {b : β} (hb : b ∈ out) : ∃ a ∈ l, f a = .ok b := by
  induction l generalizing out with
  | nil =>
      cases h
      cases hb
  | cons a l ih =>
      rw [List.mapM_cons] at h
      cases ha : f a with
      | error e => rw [ha] at h; cases h
      | ok b' =>
          cases hl : l.mapM f with
          | error e => rw [ha, hl] at h; cases h
          | ok bs =>
              rw [ha, hl] at h
              cases h
              rcases List.mem_cons.mp hb with rfl | hb
              · exact ⟨a, List.mem_cons_self, ha⟩
              · obtain ⟨a', ha', hf⟩ := ih hl hb
                exact ⟨a', List.mem_cons_of_mem _ ha', hf⟩

/-- A loop that stops at the first error succeeds with the results of its elements. -/
theorem mapM_eq_ok_iff {f : α → Except ε β} {l : List α} {out : List β} :
    l.mapM f = .ok out ↔ List.Forall₂ (fun a b => f a = .ok b) l out := by
  induction l generalizing out with
  | nil =>
      rw [List.mapM_nil, List.forall₂_nil_left_iff]
      exact ⟨fun h => (Except.ok.inj h).symm, fun h => congrArg Except.ok h.symm⟩
  | cons a l ih =>
      rw [List.mapM_cons, bind_eq_ok, List.forall₂_cons_left_iff]
      constructor
      · rintro ⟨b, hb, h⟩
        obtain ⟨bs, hbs, h⟩ := bind_eq_ok.mp h
        exact ⟨b, bs, hb, ih.mp hbs, (Except.ok.inj h).symm⟩
      · rintro ⟨b, bs, hb, hbs, rfl⟩
        exact ⟨b, hb, bind_eq_ok.mpr ⟨bs, ih.mpr hbs, rfl⟩⟩

/-- A loop of checks succeeds when each of them does. -/
theorem forM_eq_ok {f : α → Except ε PUnit} {l : List α} :
    l.forM f = .ok ⟨⟩ ↔ ∀ a ∈ l, f a = .ok ⟨⟩ := by
  induction l with
  | nil => simp [List.forM, pure, Except.pure]
  | cons a l ih =>
      change (f a >>= fun _ => l.forM f) = .ok ⟨⟩ ↔ _
      rw [bind_eq_ok, List.forall_mem_cons, ← ih]
      exact ⟨fun ⟨_, ha, hl⟩ => ⟨ha, hl⟩, fun ⟨ha, hl⟩ => ⟨_, ha, hl⟩⟩

/-- **The loop rule**, for a loop that stops at the first error: where every iteration succeeds, and keeps what is said of
the elements handled so far, the loop succeeds, and it is so of all of them. -/
theorem foldlM_ok {f : β → α → Except ε β} {P : List α → β → Prop} {l : List α} {b : β} (h₀ : P [] b)
    (hstep : ∀ done a rest b', l = done ++ a :: rest → P done b' → ∃ b'', f b' a = .ok b'' ∧ P (done ++ [a]) b'') :
    ∃ b', l.foldlM f b = .ok b' ∧ P l b' := by
  -- by the elements that are left
  have key : ∀ rest done b', l = done ++ rest → P done b' → ∃ b'', rest.foldlM f b' = .ok b'' ∧ P l b'' := by
    intro rest
    induction rest with
    | nil =>
        intro done b' hl hP
        rw [List.append_nil] at hl
        exact ⟨b', rfl, hl ▸ hP⟩
    | cons a rest ih =>
        intro done b' hl hP
        obtain ⟨b₁, hf, hP₁⟩ := hstep done a rest b' hl hP
        obtain ⟨b₂, hrest, hP₂⟩ := ih (done ++ [a]) b₁ (by simpa using hl) hP₁
        exact ⟨b₂, by rw [List.foldlM_cons, bind_eq_ok]; exact ⟨b₁, hf, hrest⟩, hP₂⟩
  exact key l [] b rfl h₀

end Pokyh.Lib

import Pokyh.Lib.Runs

/-!
# Lib — Answers

Machines that answer every request, `step : σ → α → β × σ`.  `answers` is what they say to a list of requests, `after`
the state they are in then.

* `answers_eq`: **simulation.**  Two machines that answer alike in related states, and stay related, answer alike to every
  list.
-/

namespace Pokyh.Lib

variable {σ τ α β : Type*}

/-- The answers to a list of requests. -/
def answers (step : σ → α → β × σ) : σ → List α → List β
  | _, [] => []
  | s, a :: as => (step s a).1 :: answers step (step s a).2 as

/-- The state after a list of requests. -/
def after (step : σ → α → β × σ) (s : σ) (as : List α) : σ := as.foldl (fun s a => (step s a).2) s

variable {step : σ → α → β × σ} {step' : τ → α → β × τ} {R : σ → τ → Prop}

/-- **The simulation rule.** -/
theorem answers_eq (hstep : ∀ s t a, R s t → (step s a).1 = (step' t a).1 ∧ R (step s a).2 (step' t a).2) {s : σ} {t : τ}
    (hR : R s t) (as : List α) : answers step s as = answers step' t as := by
  induction as generalizing s t with
  | nil => rfl
  | cons a as ih =>
      obtain ⟨hanswer, hnext⟩ := hstep s t a hR
      simp only [answers, hanswer, ih hnext]

theorem after_invariant {P : σ → Prop} (hstep : ∀ s a, P s → P (step s a).2) {s : σ} (hs : P s) (as : List α) :
    P (after step s as) :=
  foldl_invariant (fun s a _ h => hstep s a h) hs

end Pokyh.Lib

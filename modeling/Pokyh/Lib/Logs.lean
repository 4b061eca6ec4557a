import Mathlib.Data.List.Basic

/-!
# Lib — Logs

Logs of events, newest first, and relations that say when an event contradicts an earlier one.

* `Sound.cons`, `Sound.append`: what keeps a log sound.
* `Sound.unrepeated`: an event that contradicts its own repetition is in a sound log once.
* `Backed`: every event has what it needs in the log before it.
-/

namespace Pokyh.Lib

variable {ε : Type*} {C : ε → ε → Prop} {log : List ε} {a b : ε}

/-- No event contradicts an earlier one. -/
def Sound (C : ε → ε → Prop) (log : List ε) : Prop := log.Pairwise fun later earlier => ¬ C later earlier

instance [DecidableRel C] (log : List ε) : Decidable (Sound C log) :=
  inferInstanceAs (Decidable (log.Pairwise fun later earlier => ¬ C later earlier))

@[simp] theorem Sound.nil : Sound C [] := List.Pairwise.nil

theorem Sound.cons (h : Sound C log) (ha : ∀ e ∈ log, ¬ C a e) : Sound C (a :: log) := List.pairwise_cons.mpr ⟨ha, h⟩

/-- Events that contradict nothing can always be noted. -/
theorem Sound.append {news : List ε} (h : Sound C log) (hnews : ∀ a ∈ news, ∀ e, ¬ C a e) : Sound C (news ++ log) := by
  induction news with
  | nil => exact h
  | cons a news ih =>
      exact .cons (ih fun b hb => hnews b (List.mem_cons_of_mem _ hb)) fun e _ => hnews a List.mem_cons_self e

/-- Of two events of a sound log, the later one does not contradict the earlier. -/
theorem Sound.not_contradicts {newer older : List ε} (h : Sound C (newer ++ b :: older)) (ha : a ∈ newer) : ¬ C a b :=
  (List.pairwise_append.mp h).2.2 a ha b List.mem_cons_self

/-- An event that contradicts its own repetition happens at most once. -/
theorem Sound.unrepeated [BEq ε] [LawfulBEq ε] (h : Sound C log) (ha : C a a) : log.count a ≤ 1 := by
  by_contra hcount
  obtain ⟨older, newer, rfl⟩ := List.append_of_mem (List.count_pos_iff.mp (by omega : 0 < log.count a))
  rw [List.count_append, List.count_cons_self] at hcount
  have hmem : a ∈ older ∨ a ∈ newer := by
    by_contra hno
    rw [not_or, ← List.count_eq_zero, ← List.count_eq_zero] at hno
    omega
  rcases hmem with hmem | hmem
  · exact h.not_contradicts hmem ha
  · have hpair := (List.pairwise_append.mp h).2.1
    exact (List.pairwise_cons.mp hpair).1 a hmem ha

/-- Every event has what it needs in the log before it. -/
def Backed (P : ε → List ε → Prop) : List ε → Prop
  | [] => True
  | e :: log => P e log ∧ Backed P log

/-- Events that need nothing can always be noted. -/
theorem Backed.append {P : ε → List ε → Prop} {news : List ε} (h : Backed P log)
    (hnews : ∀ a ∈ news, ∀ earlier, P a earlier) : Backed P (news ++ log) := by
  induction news with
  | nil => exact h
  | cons a news ih => exact ⟨hnews a List.mem_cons_self _, ih fun b hb => hnews b (List.mem_cons_of_mem _ hb)⟩

theorem Backed.of_split {P : ε → List ε → Prop} {newer older : List ε} (h : Backed P (newer ++ a :: older)) : P a older := by
  induction newer with
  | nil => exact h.1
  | cons b newer ih => exact ih h.2

end Pokyh.Lib

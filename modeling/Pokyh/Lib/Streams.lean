import Mathlib.Data.List.Flatten
import Mathlib.Data.List.Induction

/-!
# Lib — Streams

A reader that is shown a longer and longer beginning of a stream until it answers, however the stream is cut into chunks.

* `Steady`: an answer, once given, is the answer for every longer beginning.
* `intake_waiting`, `intake_done`: **what is answered is what the whole stream is answered, and nothing of the stream is lost**.
-/

namespace Pokyh.Lib

variable {σ ρ : Type*}

/-- The answer to a beginning is the answer to every continuation of it; none asks for more. -/
def Steady (read : List σ → Option ρ) : Prop := ∀ data more answer, read data = some answer → read (data ++ more) = some answer

/-- What a stream's reader has: a beginning that it has no answer for, or its answer with the beginning and what came behind. -/
inductive Intake (σ ρ : Type*) where
  | waiting (held : List σ)
  | done (answer : ρ) (head later : List σ)

def Intake.take (read : List σ → Option ρ) : Intake σ ρ → List σ → Intake σ ρ
  | .waiting held, chunk =>
    match read (held ++ chunk) with
    | none => .waiting (held ++ chunk)
    | some answer => .done answer (held ++ chunk) []
  | .done answer head later, chunk => .done answer head (later ++ chunk)

def intake (read : List σ → Option ρ) (chunks : List (List σ)) : Intake σ ρ := chunks.foldl (Intake.take read) (.waiting [])

/-- All that came. -/
def Intake.all : Intake σ ρ → List σ
  | .waiting held => held
  | .done _ head later => head ++ later

/-- The answer is the one to its beginning; what waits has none. -/
def Intake.Sound (read : List σ → Option ρ) : Intake σ ρ → Prop
  | .waiting held => read held = none
  | .done answer head _ => read head = some answer

variable {read : List σ → Option ρ}

/-- What a chunk does to a beginning without an answer. -/
theorem take_waiting (read : List σ → Option ρ) (held chunk : List σ) : (read (held ++ chunk) = none ∧ (Intake.waiting held).take read chunk = .waiting (held ++ chunk)) ∨
    ∃ answer, read (held ++ chunk) = some answer ∧ (Intake.waiting held).take read chunk = .done answer (held ++ chunk) [] := by
  cases h : read (held ++ chunk) with
  | none => exact .inl ⟨rfl, by simp only [Intake.take, h]⟩
  | some answer => exact .inr ⟨answer, rfl, by simp only [Intake.take, h]⟩

theorem all_take (i : Intake σ ρ) (chunk : List σ) : (i.take read chunk).all = i.all ++ chunk := by
  cases i with
  | waiting held =>
      rcases take_waiting read held chunk with ⟨-, h⟩ | ⟨answer, -, h⟩
      · rw [h]
        rfl
      · rw [h]
        exact List.append_nil _
  | done answer head later => exact (List.append_assoc _ _ _).symm

theorem sound_take {i : Intake σ ρ} (h : i.Sound read) (chunk : List σ) : (i.take read chunk).Sound read := by
  cases i with
  | waiting held =>
      rcases take_waiting read held chunk with ⟨hnone, heq⟩ | ⟨answer, hsome, heq⟩
      · rw [heq]
        exact hnone
      · rw [heq]
        exact hsome
  | done => exact h

theorem all_intake (read : List σ → Option ρ) (chunks : List (List σ)) : (intake read chunks).all = chunks.flatten := by
  induction chunks using List.reverseRecOn with
  | nil => rfl
  | append_singleton chunks chunk ih =>
      rw [intake, List.foldl_append, List.foldl_cons, List.foldl_nil, all_take, List.flatten_append, List.flatten_singleton]
      exact congrArg (· ++ chunk) ih

theorem sound_intake (hempty : read [] = none) (chunks : List (List σ)) : (intake read chunks).Sound read := by
  induction chunks using List.reverseRecOn with
  | nil => exact hempty
  | append_singleton chunks chunk ih =>
      rw [intake, List.foldl_append, List.foldl_cons, List.foldl_nil]
      exact sound_take ih chunk

/-- **A reader waits as long as there is no answer to all that came.** -/
theorem intake_waiting (hread : Steady read) (hempty : read [] = none) {chunks : List (List σ)} (h : read chunks.flatten = none) :
    intake read chunks = .waiting chunks.flatten := by
  have hall := all_intake read chunks
  have hsound := sound_intake hempty chunks
  cases hi : intake read chunks with
  | waiting held =>
      rw [hi] at hall
      exact congrArg _ hall
  | done answer head later =>
      rw [hi] at hall hsound
      have hanswer := hread head later answer hsound
      rw [show head ++ later = chunks.flatten from hall, h] at hanswer
      cases hanswer

/-- **What is answered is what the whole stream is answered, and what came is the beginning and what came behind.** -/
theorem intake_done (hread : Steady read) (hempty : read [] = none) {chunks : List (List σ)} {answer : ρ}
    (h : read chunks.flatten = some answer) :
    ∃ head later, intake read chunks = .done answer head later ∧ head ++ later = chunks.flatten ∧ read head = some answer := by
  have hall := all_intake read chunks
  have hsound := sound_intake hempty chunks
  cases hi : intake read chunks with
  | waiting held =>
      rw [hi] at hall hsound
      obtain rfl : held = chunks.flatten := hall
      exact absurd (hsound.symm.trans h) (by rintro ⟨⟩)
  | done answer' head later =>
      rw [hi] at hall hsound
      have hanswer := hread head later answer' hsound
      rw [show head ++ later = chunks.flatten from hall, h] at hanswer
      obtain rfl := Option.some.inj hanswer
      exact ⟨head, later, rfl, hall, hsound⟩

end Pokyh.Lib

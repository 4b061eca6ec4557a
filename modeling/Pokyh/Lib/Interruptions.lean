import Mathlib.Logic.Basic
import Mathlib.Tactic.TypeStar

/-!
# Lib — Interruptions

Programs of operations that change a state `σ` one after the other, where the process may be killed before any of them and
commands may fail.  An operation has a name in `ι`; what becomes of it (`Fate`) is given from outside.  A write only the death of
the process can prevent; a command that fails leaves the state as it is and the program goes on in its own way.

* `exec_sequence`: a sequence of operations is carried out as a whole, or ends after some of them.
-/

namespace Pokyh.Lib

variable {ι σ : Type*}

/-- What becomes of an operation. -/
inductive Fate where
  | done
  | fails
  /-- The process is killed before it. -/
  | killed
  deriving DecidableEq, Repr

/-- How a program ends. -/
inductive Ending where
  | returned
  | threw
  | killed
  deriving DecidableEq, Repr

inductive Program (ι σ : Type*) where
  | ends (ending : Ending)
  | write (op : ι) (f : σ → σ) (rest : Program ι σ)
  /-- Where it goes on when it succeeds, and when it fails. -/
  | command (op : ι) (f : σ → σ) (rest failed : Program ι σ)

/-- A command whose failure nothing catches. -/
def Program.must (op : ι) (f : σ → σ) (rest : Program ι σ) : Program ι σ := .command op f rest (.ends .threw)

/-- A command whose failure does not matter. -/
def Program.may (op : ι) (f : σ → σ) (rest : Program ι σ) : Program ι σ := .command op f rest rest

def exec (fate : ι → Fate) : Program ι σ → σ → Ending × σ
  | .ends ending, s => (ending, s)
  | .write op f rest, s => if fate op = .killed then (.killed, s) else exec fate rest (f s)
  | .command op f rest failed, s =>
      match fate op with
      | .done => exec fate rest (f s)
      | .fails => exec fate failed s
      | .killed => (.killed, s)

/-- The one program, and then the other if it returns. -/
def Program.andThen : Program ι σ → Program ι σ → Program ι σ
  | .ends .returned, q => q
  | .ends ending, _ => .ends ending
  | .write op f rest, q => .write op f (rest.andThen q)
  | .command op f rest failed, q => .command op f (rest.andThen q) (failed.andThen q)

/-- The one program, and the other if it throws. -/
def Program.orElse : Program ι σ → Program ι σ → Program ι σ
  | .ends .threw, q => q
  | .ends ending, _ => .ends ending
  | .write op f rest, q => .write op f (rest.orElse q)
  | .command op f rest failed, q => .command op f (rest.orElse q) (failed.orElse q)

/-- An operation of a sequence: a write, or a command that has to succeed. -/
structure Operation (ι σ : Type*) where
  op : ι
  command : Bool
  effect : σ → σ

def Operation.passes (fate : ι → Fate) (operation : Operation ι σ) : Bool :=
  if operation.command then fate operation.op = .done else fate operation.op ≠ .killed

/-- The operations one after the other, then the rest. -/
def sequence (operations : List (Operation ι σ)) (rest : Program ι σ) : Program ι σ :=
  operations.foldr
    (fun operation rest =>
      if operation.command then .must operation.op operation.effect rest else .write operation.op operation.effect rest) rest

/-- The state after operations that are all carried out. -/
def effects (operations : List (Operation ι σ)) (s : σ) : σ := operations.foldl (fun s operation => operation.effect s) s

variable {fate : ι → Fate} {operations : List (Operation ι σ)} {rest : Program ι σ} {s : σ}

theorem exec_andThen (p q : Program ι σ) (s : σ) :
    exec fate (p.andThen q) s = if (exec fate p s).1 = .returned then exec fate q (exec fate p s).2 else exec fate p s := by
  induction p generalizing s with
  | ends ending => cases ending <;> simp [Program.andThen, exec]
  | write op f rest ih =>
      simp only [Program.andThen, exec]
      split
      · simp
      · exact ih (f s)
  | command op f rest failed ih ihFailed =>
      cases hfate : fate op with
      | done => simpa only [Program.andThen, exec, hfate] using ih (f s)
      | fails => simpa only [Program.andThen, exec, hfate] using ihFailed s
      | killed => simp [Program.andThen, exec, hfate]

theorem exec_orElse (p q : Program ι σ) (s : σ) :
    exec fate (p.orElse q) s = if (exec fate p s).1 = .threw then exec fate q (exec fate p s).2 else exec fate p s := by
  induction p generalizing s with
  | ends ending => cases ending <;> simp [Program.orElse, exec]
  | write op f rest ih =>
      simp only [Program.orElse, exec]
      split
      · simp
      · exact ih (f s)
  | command op f rest failed ih ihFailed =>
      cases hfate : fate op with
      | done => simpa only [Program.orElse, exec, hfate] using ih (f s)
      | fails => simpa only [Program.orElse, exec, hfate] using ihFailed s
      | killed => simp [Program.orElse, exec, hfate]

/-- **A sequence of operations is carried out as a whole, or the program ends after some of them.** -/
theorem exec_sequence (operations : List (Operation ι σ)) (s : σ) :
    ((∀ operation ∈ operations, operation.passes fate = true) ∧
      exec fate (sequence operations rest) s = exec fate rest (effects operations s)) ∨
    ((∃ operation ∈ operations, operation.passes fate = false) ∧
      ∃ taken, taken <+: operations ∧ ∃ ending, ending ≠ .returned ∧
        exec fate (sequence operations rest) s = (ending, effects taken s)) := by
  induction operations generalizing s with
  | nil => exact .inl ⟨nofun, rfl⟩
  | cons operation operations ih =>
      have hstops : ∀ ending, ending ≠ Ending.returned → operation.passes fate = false →
          exec fate (sequence (operation :: operations) rest) s = (ending, s) →
            (∃ operation' ∈ operation :: operations, operation'.passes fate = false) ∧
              ∃ taken, taken <+: operation :: operations ∧ ∃ ending, ending ≠ .returned ∧
                exec fate (sequence (operation :: operations) rest) s = (ending, effects taken s) := fun ending hne hpasses h =>
        ⟨⟨operation, List.mem_cons_self, hpasses⟩, [], List.nil_prefix, ending, hne, h⟩
      have hgoes : operation.passes fate = true →
          exec fate (sequence (operation :: operations) rest) s = exec fate (sequence operations rest) (operation.effect s) := by
        intro hpasses
        cases hc : operation.command with
        | true =>
            have hdone : fate operation.op = .done := by simpa [Operation.passes, hc] using hpasses
            simp [sequence, hc, Program.must, exec, hdone]
        | false =>
            have halive : fate operation.op ≠ .killed := by simpa [Operation.passes, hc] using hpasses
            simp [sequence, hc, exec, halive]
      cases hpasses : operation.passes fate with
      | true =>
          rw [hgoes hpasses]
          rcases ih (operation.effect s) with ⟨hall, heq⟩ | ⟨⟨found, hfound, hf⟩, taken, htaken, ending, hne, heq⟩
          · refine .inl ⟨fun operation' hmem => ?_, heq⟩
            rcases List.mem_cons.mp hmem with rfl | hmem
            · exact hpasses
            · exact hall operation' hmem
          · exact .inr ⟨⟨found, List.mem_cons_of_mem _ hfound, hf⟩, operation :: taken,
              List.prefix_cons_inj operation |>.mpr htaken, ending, hne, heq⟩
      | false =>
          refine .inr ?_
          cases hc : operation.command with
          | true =>
              have hdone : fate operation.op ≠ .done := by simpa [Operation.passes, hc] using hpasses
              cases hfate : fate operation.op with
              | done => exact absurd hfate hdone
              | fails => exact hstops .threw (by decide) hpasses (by simp [sequence, hc, Program.must, exec, hfate])
              | killed => exact hstops .killed (by decide) hpasses (by simp [sequence, hc, Program.must, exec, hfate])
          | false =>
              have hkilled : fate operation.op = .killed := by simpa [Operation.passes, hc] using hpasses
              exact hstops .killed (by decide) hpasses (by simp [sequence, hc, exec, hkilled])

/-- **The frame rule**: what every operation keeps, any number of them keep. -/
theorem effects_keep {β : Type*} {f : σ → β} {operations : List (Operation ι σ)}
    (h : ∀ operation ∈ operations, ∀ s, f (operation.effect s) = f s) (s : σ) : f (effects operations s) = f s := by
  induction operations generalizing s with
  | nil => rfl
  | cons operation operations ih =>
      calc f (effects (operation :: operations) s) = f (operation.effect s) :=
            ih (fun operation' hmem => h operation' (List.mem_cons_of_mem _ hmem)) (operation.effect s)
        _ = f s := h operation List.mem_cons_self s

end Pokyh.Lib

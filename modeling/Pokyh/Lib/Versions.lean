import Pokyh.Lib.Runs
import Mathlib.Logic.Function.Basic
import Mathlib.Order.Nat

/-!
# Lib — Versions

Counters that only grow, one for each name, and the times at which they reached each of their values.  An answer that is
kept under the values of some counters is dated by them from both sides: `Before` says that all of the values had been
reached by a time, `After` that one of them was reached no earlier than a time.

* `Extends`: counters some raises later; what was said of values they had stays true.
* `Before.le_of_after`: values that were all reached by `b`, one of them not before `c`, put `c` no later than `b`.
-/

namespace Pokyh.Lib

structure Versions (T : Type*) where
  version : T → ℕ
  reachedAt : T → ℕ → ℕ

namespace Versions

variable {T : Type*}

def zero : Versions T := ⟨fun _ => 0, fun _ _ => 0⟩

/-- When the counter last changed. -/
def latest (s : Versions T) (t : T) : ℕ := s.reachedAt t (s.version t)

def current (s : Versions T) (names : List T) : List ℕ := names.map s.version

/-- No counter has changed after that. -/
def Bounded (s : Versions T) (now : ℕ) : Prop := ∀ t, s.latest t ≤ now

/-- The values had all been reached by then. -/
def Before (s : Versions T) (names : List T) (values : List ℕ) (time : ℕ) : Prop :=
  ∀ e ∈ names.zip values, e.2 ≤ s.version e.1 ∧ s.reachedAt e.1 e.2 ≤ time

/-- One of the values was not reached before then. -/
def After (s : Versions T) (names : List T) (values : List ℕ) (time : ℕ) : Prop :=
  ∃ e ∈ names.zip values, e.2 ≤ s.version e.1 ∧ time ≤ s.reachedAt e.1 e.2

structure Extends (s s' : Versions T) : Prop where
  version : ∀ t, s.version t ≤ s'.version t
  reachedAt : ∀ t, ∀ k ≤ s.version t, s'.reachedAt t k = s.reachedAt t k
  latest : ∀ t, s.latest t ≤ s'.latest t

variable {s s' s'' : Versions T} {names : List T} {values : List ℕ} {now now' b c : ℕ}

theorem zip_current : names.zip (s.current names) = names.map fun t => (t, s.version t) := by
  simpa [current] using List.zip_map' (l := names) (f := id) (g := s.version)

theorem Bounded.mono (h : s.Bounded now) (hle : now ≤ now') : s.Bounded now' := fun t => (h t).trans hle

theorem Bounded.before_current (h : s.Bounded now) : s.Before names (s.current names) now := by
  intro e he
  rw [zip_current] at he
  obtain ⟨t, -, rfl⟩ := List.mem_map.mp he
  exact ⟨le_rfl, h t⟩

theorem after_current {t : T} (ht : t ∈ names) (hc : c ≤ s.latest t) : s.After names (s.current names) c := by
  refine ⟨(t, s.version t), ?_, le_rfl, hc⟩
  rw [zip_current]
  exact List.mem_map_of_mem ht

/-- **What is as old as its values is no older than the newest of them.** -/
theorem Before.le_of_after (hb : s.Before names values b) (hc : s.After names values c) : c ≤ b := by
  obtain ⟨e, he, -, hce⟩ := hc
  exact hce.trans (hb e he).2

theorem Before.mono (h : s.Before names values b) (hle : b ≤ c) : s.Before names values c := fun e he =>
  ⟨(h e he).1, (h e he).2.trans hle⟩

theorem Extends.refl (s : Versions T) : s.Extends s := ⟨fun _ => le_rfl, fun _ _ _ => rfl, fun _ => le_rfl⟩

theorem Extends.trans (h : s.Extends s') (h' : s'.Extends s'') : s.Extends s'' where
  version t := (h.version t).trans (h'.version t)
  reachedAt t k hk := (h'.reachedAt t k (hk.trans (h.version t))).trans (h.reachedAt t k hk)
  latest t := (h.latest t).trans (h'.latest t)

theorem Extends.before (h : s.Extends s') (hb : s.Before names values b) : s'.Before names values b := fun e he => by
  obtain ⟨hle, hbe⟩ := hb e he
  exact ⟨hle.trans (h.version e.1), (h.reachedAt e.1 e.2 hle).trans_le hbe⟩

theorem Extends.after (h : s.Extends s') (hc : s.After names values c) : s'.After names values c := by
  obtain ⟨e, he, hle, hce⟩ := hc
  exact ⟨e, he, hle.trans (h.version e.1), hce.trans_eq (h.reachedAt e.1 e.2 hle).symm⟩

variable [DecidableEq T] {t u : T} {ts : List T}

/-- The counter goes up by one. -/
def raise (s : Versions T) (now : ℕ) (t : T) : Versions T where
  version := Function.update s.version t (s.version t + 1)
  reachedAt := Function.update s.reachedAt t (Function.update (s.reachedAt t) (s.version t + 1) now)

def raiseAll (s : Versions T) (now : ℕ) (ts : List T) : Versions T := ts.foldl (fun s t => s.raise now t) s

@[simp] theorem latest_raise_self : (s.raise now t).latest t = now := by simp [latest, raise]

@[simp] theorem latest_raise_of_ne (h : u ≠ t) : (s.raise now t).latest u = s.latest u := by simp [latest, raise, h]

theorem Bounded.raise (h : s.Bounded now) : (s.raise now t).Bounded now := fun u => by
  rcases eq_or_ne u t with rfl | hne
  · exact latest_raise_self.le
  · exact (latest_raise_of_ne hne).trans_le (h u)

theorem Bounded.extends_raise (h : s.Bounded now) : s.Extends (s.raise now t) where
  version u := by
    rcases eq_or_ne u t with rfl | hne
    · simp [Versions.raise]
    · simp [Versions.raise, hne]
  reachedAt u k hk := by
    rcases eq_or_ne u t with rfl | hne
    · simp [Versions.raise, (Nat.lt_succ_of_le hk).ne]
    · simp [Versions.raise, hne]
  latest u := by
    rcases eq_or_ne u t with rfl | hne
    · exact (h u).trans_eq latest_raise_self.symm
    · exact (latest_raise_of_ne hne).ge

theorem Bounded.raiseAll (h : s.Bounded now) : (s.raiseAll now ts).Bounded now :=
  foldl_invariant (P := fun s' : Versions T => s'.Bounded now) (fun _ _ _ h' => h'.raise) h

theorem Bounded.extends_raiseAll (h : s.Bounded now) : s.Extends (s.raiseAll now ts) :=
  (foldl_invariant (P := fun s' : Versions T => s'.Bounded now ∧ s.Extends s')
    (fun _ _ _ h' => ⟨h'.1.raise, h'.2.trans h'.1.extends_raise⟩) ⟨h, .refl s⟩).2

/-- Every counter that is raised has changed now. -/
theorem Bounded.le_latest_raiseAll (h : s.Bounded now) (ht : t ∈ ts) : now ≤ (s.raiseAll now ts).latest t :=
  foldl_establish (f := fun (s' : Versions T) u => s'.raise now u) (I := fun s' : Versions T => s'.Bounded now)
    (P := fun s' : Versions T => now ≤ s'.latest t)
    (fun _ _ _ h' => h'.raise) (fun _ _ _ h' hnow => hnow.trans (h'.extends_raise.latest t)) ht
    (fun _ _ => latest_raise_self.ge) h

end Versions

end Pokyh.Lib

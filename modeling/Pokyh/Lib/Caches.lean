import Mathlib.Data.Int.Notation
import Mathlib.Logic.Function.Basic
import Mathlib.Order.Basic

/-!
# Lib — Caches

A cache whose entries are kept under a version and for a time.  A write to what the answers are made of
raises the version (`invalidate`), and an entry under an older version is never read again.

`Cache.Good P` says that every entry that can still be read satisfies `P`.  Raising the version makes
any `P` true of the entries; an answer read through the cache satisfies `P` when a fresh one does
(`Good.cached_snd`).
-/

namespace Pokyh.Lib

variable {κ ν : Type*}

structure Entry (ν : Type*) where
  version : ℕ
  expiresAt : ℤ
  value : ν

structure Cache (κ ν : Type*) where
  version : ℕ
  entries : κ → Option (Entry ν)

namespace Cache

def empty : Cache κ ν := ⟨0, fun _ => none⟩

/-- The entry for a key, if it may be read. -/
def lookup (c : Cache κ ν) (now : ℤ) (k : κ) : Option ν :=
  match c.entries k with
  | some e => if e.version = c.version ∧ now ≤ e.expiresAt then some e.value else none
  | none => none

/-- Every entry is out of date from now on. -/
def invalidate (c : Cache κ ν) : Cache κ ν := { c with version := c.version + 1 }

/-- An entry is dropped. -/
def evict [DecidableEq κ] (c : Cache κ ν) (k : κ) : Cache κ ν :=
  { c with entries := Function.update c.entries k none }

/-- The kept answer, or a fresh one, which is then kept. -/
def cached [DecidableEq κ] (c : Cache κ ν) (now ttl : ℤ) (k : κ) (load : ν) : Cache κ ν × ν :=
  match c.lookup now k with
  | some v => (c, v)
  | none => ({ c with entries := Function.update c.entries k (some ⟨c.version, now + ttl, load⟩) }, load)

/-- Every entry that can still be read satisfies `P`. -/
def Good (c : Cache κ ν) (P : κ → ν → Prop) : Prop :=
  ∀ k e, c.entries k = some e → e.version ≤ c.version ∧ (e.version = c.version → P k e.value)

variable {c : Cache κ ν} {P Q : κ → ν → Prop}

theorem good_empty : (empty : Cache κ ν).Good P := fun _ _ h => by cases h

theorem Good.invalidate (h : c.Good P) : c.invalidate.Good Q := fun k e he =>
  have hle := (h k e he).1
  ⟨Nat.le_succ_of_le hle, fun heq => absurd (heq ▸ hle) (Nat.not_succ_le_self _)⟩

theorem Good.imp (h : c.Good P) (hPQ : ∀ k v, P k v → Q k v) : c.Good Q := fun k e he =>
  ⟨(h k e he).1, fun heq => hPQ _ _ ((h k e he).2 heq)⟩

variable {now ttl : ℤ} {k : κ} {load : ν}

theorem Good.lookup (h : c.Good P) {v : ν} (hv : c.lookup now k = some v) : P k v := by
  unfold Cache.lookup at hv
  split at hv
  · next e he =>
      obtain ⟨hcur, ⟨⟩⟩ := Option.ite_none_right_eq_some.mp hv
      exact (h k e he).2 hcur.1
  · cases hv

variable [DecidableEq κ]

theorem Good.evict (h : c.Good P) : (c.evict k).Good P := by
  intro k' e (he : Function.update c.entries k none k' = some e)
  rcases eq_or_ne k' k with rfl | hne
  · rw [Function.update_self] at he
    cases he
  · rw [Function.update_of_ne hne] at he
    exact h k' e he

/-- **An answer read through the cache is as good as a fresh one.** -/
theorem Good.cached_snd (h : c.Good P) (hload : P k load) : P k (c.cached now ttl k load).2 := by
  unfold Cache.cached
  split
  · exact h.lookup ‹_›
  · exact hload

theorem Good.cached_fst (h : c.Good P) (hload : P k load) : (c.cached now ttl k load).1.Good P := by
  unfold Cache.cached
  split
  · exact h
  · intro k' e (he : Function.update c.entries k (some _) k' = some e)
    rcases eq_or_ne k' k with rfl | hne
    · rw [Function.update_self] at he
      cases he
      exact ⟨Nat.le_refl _, fun _ => hload⟩
    · rw [Function.update_of_ne hne] at he
      exact h k' e he

end Cache

end Pokyh.Lib

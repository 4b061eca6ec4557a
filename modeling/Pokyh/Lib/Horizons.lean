import Mathlib.Data.List.TakeWhile

/-!
# Lib — Horizons

Numbers handed out in order, each of them open until whoever took it ends, which may be long after later numbers have ended.  Nothing
stays open for longer than a horizon.

* `Ledger.Closed`: no number up to this one is open, and none will be; it stays so (`Closed.later`).
* `Ledger.closed_of_sound`: a number that was seen at least a horizon ago is closed.
* `latest`: the last of the entries at the front of a list that pass a test, and what adding to the list and dropping from its front
  do to it.
-/

namespace Pokyh.Lib

/-- What was handed out: the time, the next number, and the numbers that are open, with when they were taken. -/
structure Ledger where
  now : ℕ
  next : ℕ
  opened : List (ℕ × ℕ)

namespace Ledger

/-- Nothing is open for longer than the horizon. -/
def Timely (horizon : ℕ) (l : Ledger) : Prop :=
  ∀ o ∈ l.opened, o.1 < l.next ∧ o.2 ≤ l.now ∧ l.now < o.2 + horizon

/-- No number up to this one is open, and all of them have been handed out. -/
def Closed (l : Ledger) (n : ℕ) : Prop := n < l.next ∧ ∀ o ∈ l.opened, n < o.1

/-- What a ledger becomes: time passes, numbers are taken, and what is open ends. -/
structure Later (l l' : Ledger) : Prop where
  now_le : l.now ≤ l'.now
  next_le : l.next ≤ l'.next
  opened : ∀ o ∈ l'.opened, o ∈ l.opened ∨ l.next ≤ o.1

theorem Later.refl (l : Ledger) : l.Later l := ⟨le_rfl, le_rfl, fun _ h => .inl h⟩

theorem Closed.later {l l' : Ledger} {n : ℕ} (h : l.Closed n) (hl : l.Later l') : l'.Closed n := by
  refine ⟨h.1.trans_le hl.next_le, ?_⟩
  intro o ho
  rcases hl.opened o ho with hold | hnew
  · exact h.2 o hold
  · exact h.1.trans_le hnew

theorem Closed.mono {l : Ledger} {m n : ℕ} (h : l.Closed n) (hmn : m ≤ n) : l.Closed m :=
  ⟨hmn.trans_lt h.1, fun o ho => hmn.trans_lt (h.2 o ho)⟩

end Ledger

/-- A number that was seen, with the time. -/
structure Sample where
  time : ℕ
  number : ℕ
  deriving DecidableEq, Repr

/-- What is open up to the number was taken by the time it was seen. -/
structure Sample.Sound (s : Sample) (l : Ledger) : Prop where
  time_le : s.time ≤ l.now
  number_lt : s.number < l.next
  opened : ∀ o ∈ l.opened, o.1 ≤ s.number → o.2 ≤ s.time

/-- What is seen now is sound. -/
theorem Sample.sound_now {l : Ledger} {horizon n : ℕ} (hl : l.Timely horizon) (hn : n < l.next) :
    (⟨l.now, n⟩ : Sample).Sound l :=
  ⟨le_rfl, hn, fun o ho _ => (hl o ho).2.1⟩

theorem Sample.Sound.later {s : Sample} {l l' : Ledger} (h : s.Sound l) (hl : l.Later l') : s.Sound l' := by
  refine ⟨h.time_le.trans hl.now_le, h.number_lt.trans_le hl.next_le, ?_⟩
  intro o ho hle
  rcases hl.opened o ho with hold | hnew
  · exact h.opened o hold hle
  · exact absurd (hle.trans_lt h.number_lt) hnew.not_gt

/-- **A number seen at least a horizon ago** is closed by now. -/
theorem Ledger.closed_of_sound {l : Ledger} {horizon : ℕ} {s : Sample} (hl : l.Timely horizon) (hs : s.Sound l)
    (hold : s.time + horizon ≤ l.now) : l.Closed s.number := by
  refine ⟨hs.number_lt, ?_⟩
  intro o ho
  by_contra hle
  have htaken : o.2 ≤ s.time := hs.opened o ho (not_lt.mp hle)
  have hrecent : l.now < o.2 + horizon := (hl o ho).2.2
  omega

section Latest
variable {α : Type*} {p : α → Bool}

/-- The last of the entries at the front that pass. -/
def latest (p : α → Bool) (l : List α) : Option α := (l.takeWhile p).getLast?

theorem mem_of_latest {l : List α} {a : α} (h : latest p l = some a) : a ∈ l ∧ p a = true := by
  have hmem : a ∈ l.takeWhile p := List.mem_of_getLast? h
  exact ⟨(List.takeWhile_subset p) hmem, List.mem_takeWhile_imp hmem⟩

/-- The last of all entries that pass at the front, once all that come before one that passes do. -/
theorem latest_concat {l : List α} {a : α} (h : p a = true → ∀ b ∈ l, p b = true) :
    latest p (l ++ [a]) = if p a = true then some a else latest p l := by
  by_cases ha : p a = true
  · rw [if_pos ha, latest, List.takeWhile_append_of_pos (h ha), List.takeWhile_cons_of_pos ha, List.takeWhile_nil,
      List.getLast?_concat]
  · rw [if_neg ha, latest, latest]
    by_cases hall : ∀ b ∈ l, p b = true
    · rw [List.takeWhile_append_of_pos hall, List.takeWhile_cons_of_neg ha, List.append_nil,
        List.takeWhile_eq_self_iff.mpr hall]
    · rw [List.takeWhile_append, if_neg]
      intro hlen
      refine hall fun b hb => ?_
      rw [← (List.takeWhile_prefix p).eq_of_length hlen] at hb
      exact List.mem_takeWhile_imp hb

/-- An entry at the front does not count when the one behind it passes. -/
theorem latest_tail {a b : α} {l : List α} (ha : p a = true) (hb : p b = true) : latest p (a :: b :: l) = latest p (b :: l) := by
  rw [latest, latest, List.takeWhile_cons_of_pos ha, List.takeWhile_cons_of_pos hb, List.getLast?_cons_cons]

end Latest

end Pokyh.Lib

import Mathlib.Data.Int.Interval
import Pokyh.Cluster.Frames
import Pokyh.Lib.Answers

/-!
# Cluster — Replay

The replay window (`ReplayWindow` of `crypto.ts`) against one that remembers every counter.

* `UnlimitedWindow.accept`: what the window is to say.
* `ReplayWindow.Refines`: what the two have in common after the same counters.
* `replayWindow_exact`: **they say the same to every sequence of counters**, and the window never remembers more than
  twice its size.
-/

namespace Pokyh.Cluster.Frames
open Pokyh.Lib

/-- A window that forgets nothing. -/
structure UnlimitedWindow where
  size : ℕ
  accepted : List ℤ

namespace UnlimitedWindow

def new (size : ℕ) : UnlimitedWindow := ⟨size, []⟩

/-- A counter is let in once, while it is not negative and less than the size behind the largest one so far. -/
def accept (u : UnlimitedWindow) (counter : ℤ) : Bool × UnlimitedWindow :=
  if 0 ≤ counter ∧ counter ∉ u.accepted ∧ ∀ largest ∈ u.accepted.max?, largest - u.size < counter then
    (true, { u with accepted := counter :: u.accepted })
  else (false, u)

end UnlimitedWindow

namespace ReplayWindow
variable {w : ReplayWindow} {u : UnlimitedWindow} {counter : ℤ}

/-- The highest counter is the largest one let in; below zero, none was. -/
structure Refines (w : ReplayWindow) (u : UnlimitedWindow) : Prop where
  size : w.size = u.size
  tracks : w.Tracks u.accepted
  highest : if w.highest < 0 then u.accepted = [] else w.highest ∈ u.accepted

theorem Refines.new (size : ℕ) : (new size).Refines (.new size) := ⟨rfl, tracks_new size, rfl⟩

theorem Refines.max? (h : w.Refines u) : u.accepted.max? = if w.highest < 0 then none else some w.highest := by
  have hhighest := h.highest
  by_cases hneg : w.highest < 0
  · rw [if_pos hneg] at hhighest ⊢
    simp [hhighest]
  · rw [if_neg hneg] at hhighest ⊢
    rw [List.max?_eq_some_iff]
    exact ⟨hhighest, fun c hc => (h.tracks.highest c hc).2⟩

theorem Refines.accept_iff (h : w.Refines u) : (w.accept counter).1 = true ↔
    0 ≤ counter ∧ counter ∉ u.accepted ∧ ∀ largest ∈ u.accepted.max?, largest - u.size < counter := by
  rw [ReplayWindow.accept_iff h.tracks, h.max?, ← h.size]
  by_cases hneg : w.highest < 0
  · simp [hneg]
  · simp [hneg, and_comm]

theorem Refines.remember (h : w.Refines u) (hpos : 0 ≤ counter) :
    (w.remember counter).Refines { u with accepted := counter :: u.accepted } where
  size := h.size
  tracks := remember_tracks h.tracks hpos
  highest := by
    have hnew : (w.remember counter).highest = max w.highest counter := rfl
    have hnot : ¬ max w.highest counter < 0 := not_lt.mpr (hpos.trans (le_max_right _ _))
    rw [hnew, if_neg hnot]
    -- either the new counter is the largest, or the old largest was let in
    rcases le_total w.highest counter with hle | hle
    · rw [max_eq_right hle]
      exact List.mem_cons_self
    · rw [max_eq_left hle]
      have hold := h.highest
      rw [if_neg (not_lt.mpr (hpos.trans hle))] at hold
      exact List.mem_cons_of_mem _ hold

/-- **The two say the same**, and still have the same in common. -/
theorem Refines.accept (h : w.Refines u) (counter : ℤ) :
    (w.accept counter).1 = (u.accept counter).1 ∧ (w.accept counter).2.Refines (u.accept counter).2 := by
  have hiff : (w.accept counter).1 = true ↔ _ := h.accept_iff
  unfold UnlimitedWindow.accept
  rcases accept_cases w counter with heq | heq
  · rw [heq] at hiff ⊢
    rw [if_neg fun hspec => Bool.false_ne_true (hiff.mpr hspec)]
    exact ⟨rfl, h⟩
  · rw [heq] at hiff ⊢
    have hspec := hiff.mp rfl
    rw [if_pos hspec]
    exact ⟨rfl, h.remember hspec.1⟩

/-! ### How much is remembered -/

structure Bounded (bound : ℕ) (w : ReplayWindow) : Prop where
  size : w.size = bound
  nodup : w.seen.Nodup
  highest : ∀ c ∈ w.seen, c ≤ w.highest
  length : w.seen.length ≤ bound * 2

/-- No more than the size can lie between the floor and the highest. -/
theorem length_le_of_between {seen : List ℤ} {size : ℕ} (highest : ℤ) (hnodup : seen.Nodup)
    (hseen : ∀ c ∈ seen, highest - size < c ∧ c ≤ highest) : seen.length ≤ size := by
  have hsub : seen.toFinset ⊆ Finset.Ioc (highest - size) highest := by
    intro c hc
    rw [Finset.mem_Ioc]
    exact hseen c (List.mem_toFinset.mp hc)
  have hcard := Finset.card_le_card hsub
  rwa [List.toFinset_card_of_nodup hnodup, Int.card_Ioc, sub_sub_cancel, Int.toNat_natCast] at hcard

theorem Bounded.remember {size : ℕ} (h : w.Bounded size) (hnew : counter ∉ w.seen) :
    (w.remember counter).Bounded size := by
  have hnodup : (w.seen ++ [counter]).Nodup := by
    rw [List.nodup_append]
    refine ⟨h.nodup, List.nodup_singleton _, fun a ha b hb => ?_⟩
    rw [List.mem_singleton.mp hb]
    rintro rfl
    exact hnew ha
  have hle : ∀ c ∈ w.seen ++ [counter], c ≤ max w.highest counter := by
    intro c hc
    rcases List.mem_append.mp hc with hold | hone
    · exact (h.highest c hold).trans (le_max_left _ _)
    · rw [List.mem_singleton.mp hone]
      exact le_max_right _ _
  by_cases hmuch : (w.seen ++ [counter]).length > w.size * 2
  · -- what is left after trimming lies within the window
    have hseen : (w.remember counter).seen =
        (w.seen ++ [counter]).filter fun value => !decide (value ≤ max w.highest counter - w.size) := if_pos hmuch
    refine ⟨h.size, hseen ▸ hnodup.filter _, fun c hc => ?_, ?_⟩
    · exact hle c (List.mem_filter.mp (hseen ▸ hc)).1
    · have hlength : (w.remember counter).seen.length ≤ size := by
        refine length_le_of_between (max w.highest counter) (hseen ▸ hnodup.filter _) fun c hc => ?_
        obtain ⟨hmem, hkept⟩ := List.mem_filter.mp (hseen ▸ hc)
        rw [← h.size]
        exact ⟨by simpa using hkept, hle c hmem⟩
      omega
  · have hseen : (w.remember counter).seen = w.seen ++ [counter] := if_neg hmuch
    refine ⟨h.size, hseen ▸ hnodup, fun c hc => hle c (hseen ▸ hc), ?_⟩
    rw [hseen, ← h.size]
    exact not_lt.mp hmuch

theorem Bounded.accept {size : ℕ} (h : w.Bounded size) (counter : ℤ) : (w.accept counter).2.Bounded size := by
  unfold ReplayWindow.accept
  split
  · exact h
  split
  · exact h
  split
  · exact h
  · next hnew => exact h.remember hnew

end ReplayWindow

/-- **The window is exact**, whatever its size: what it says to a sequence of counters is what one that forgets nothing
says, and it never remembers more than twice its size. -/
theorem replayWindow_exact (size : ℕ) (counters : List ℤ) :
    answers ReplayWindow.accept (.new size) counters = answers UnlimitedWindow.accept (.new size) counters ∧
      (after ReplayWindow.accept (.new size) counters).seen.length ≤ size * 2 := by
  constructor
  · exact answers_eq (R := ReplayWindow.Refines) (fun w u c h => h.accept c) (.new size) counters
  · have hnew : (ReplayWindow.new size).Bounded size := ⟨rfl, List.nodup_nil, nofun, Nat.zero_le _⟩
    exact (after_invariant (P := ReplayWindow.Bounded size) (fun w c h => h.accept c) hnew counters).length

example : answers ReplayWindow.accept (.new 8) [0, 0, 3, 2, 2, 100, 92, 93, -1] =
    [true, false, true, true, false, true, false, true, false] := by decide

end Pokyh.Cluster.Frames

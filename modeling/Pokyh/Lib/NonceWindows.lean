import Mathlib.Algebra.Order.Group.Abs
import Mathlib.Algebra.Order.Group.Int
import Mathlib.Data.List.Nodup
import Pokyh.Lib.Runs

/-!
# Lib — NonceWindows

Letting messages in once.  A message says when it was written, and is let in while that is not too far from the clock, in either
direction, and its nonce has not been used; a used nonce is forgotten after a time of its own.  The clock is read once for the one and
once for the other.

* `Window.next`: one message that arrives.
* `Window.Steady`: the nonce does not come of age between the two readings.
* `Window.accepted_nodup`: **no message is let in twice** in a run whose arrivals are steady, where nonces are kept for twice the time a
  message may be off.
-/

namespace Pokyh.Lib

/-- What is let in, and what is remembered of it. -/
structure Window (α ν : Type*) where
  stamp : α → ℤ
  nonce : α → ν
  /-- How far the clock may be off. -/
  skew : ℤ
  /-- How long a nonce is kept. -/
  ttl : ℤ
  /-- Nothing more is let in with so many nonces. -/
  isFull : ℕ → Bool

/-- A message with the two readings of the clock, and what else the program asks of it before the clock and behind the nonce. -/
structure Arrival (α : Type*) where
  message : α
  first : ℤ
  second : ℤ
  isDue : Bool
  isTaken : Bool

structure Gate (α ν : Type*) where
  clock : ℤ
  seen : List (ν × ℤ)
  accepted : List α

/-- Nothing has come yet. -/
def Gate.opening (α ν : Type*) (clock : ℤ) : Gate α ν := ⟨clock, [], []⟩

namespace Window
variable {α ν : Type*} [DecidableEq ν] (w : Window α ν)

/-- The nonces that are not too old. -/
def kept (seen : List (ν × ℤ)) (now : ℤ) : List (ν × ℤ) := seen.filter fun e => ¬ now - e.2 > w.ttl

/-- One message, at a clock that does not go back. -/
def next (g : Gate α ν) (a : Arrival α) : Option (Gate α ν) :=
  if g.clock ≤ a.first ∧ a.first ≤ a.second then
    if !a.isDue || |a.first - w.stamp a.message| > w.skew then some { g with clock := a.second }
    else if w.nonce a.message ∈ (w.kept g.seen a.second).map Prod.fst || w.isFull (w.kept g.seen a.second).length then
      some { g with clock := a.second, seen := w.kept g.seen a.second }
    else
      some
        { clock := a.second
          seen := w.kept g.seen a.second ++ [(w.nonce a.message, a.second)]
          accepted := if a.isTaken then g.accepted ++ [a.message] else g.accepted }
  else none

/-- The message's nonce does not come of age between the two readings of the clock. -/
def Steady (g : Gate α ν) (a : Arrival α) : Prop :=
  ∀ e ∈ g.seen, e.1 = w.nonce a.message → a.first - e.2 ≤ w.ttl → a.second - e.2 ≤ w.ttl

instance (g : Gate α ν) (a : Arrival α) : Decidable (w.Steady g a) := by
  unfold Steady
  infer_instance

variable {w} {g g' : Gate α ν} {a : Arrival α}

/-- Each message was let in once; its nonce is still there, or too old. -/
structure Sound (w : Window α ν) (g : Gate α ν) : Prop where
  nodup : g.accepted.Nodup
  remembered : ∀ m ∈ g.accepted, ∃ at', w.stamp m - w.skew ≤ at' ∧ ((w.nonce m, at') ∈ g.seen ∨ w.ttl < g.clock - at')

omit [DecidableEq ν] in
theorem Sound.opening (clock : ℤ) : w.Sound (Gate.opening α ν clock) := ⟨List.nodup_nil, by simp [Gate.opening]⟩

omit [DecidableEq ν] in
/-- A nonce is still there after some are forgotten, or has become too old. -/
theorem remembered_kept {seen : List (ν × ℤ)} {clock now at' : ℤ} {n : ν} (hclock : clock ≤ now) (h : (n, at') ∈ seen ∨ w.ttl < clock - at') :
    (n, at') ∈ w.kept seen now ∨ w.ttl < now - at' := by
  rcases h with h | h
  · by_cases hold : now - at' > w.ttl
    · exact .inr hold
    · exact .inl (List.mem_filter.mpr ⟨h, by simpa using hold⟩)
  · exact .inr (by omega)

/-- **A message that was let in before finds its nonce.** -/
theorem Sound.not_fresh (h : w.Sound g) (httl : 2 * w.skew ≤ w.ttl) (hsteady : w.Steady g a) (hclock : g.clock ≤ a.first)
    (hskew : |a.first - w.stamp a.message| ≤ w.skew) (hmem : a.message ∈ g.accepted) :
    w.nonce a.message ∈ (w.kept g.seen a.second).map Prod.fst := by
  obtain ⟨at', hat, hthere⟩ := h.remembered a.message hmem
  have hlate := (abs_le.mp hskew).2
  -- it was let in at most twice the skew ago
  have hyoung : a.first - at' ≤ w.ttl := by omega
  rcases hthere with hthere | hold
  · have hstill := hsteady _ hthere rfl hyoung
    exact List.mem_map.mpr ⟨_, List.mem_filter.mpr ⟨hthere, by simpa using hstill⟩, rfl⟩
  · omega

theorem Sound.next (h : w.Sound g) (httl : 2 * w.skew ≤ w.ttl) (hsteady : w.Steady g a) (hstep : w.next g a = some g') : w.Sound g' := by
  rw [Window.next] at hstep
  split at hstep
  · rename_i hclock
    have hpassed : g.clock ≤ a.second := hclock.1.trans hclock.2
    split at hstep
    · obtain rfl := Option.some.inj hstep
      refine ⟨h.nodup, fun m hm => ?_⟩
      obtain ⟨at', hat, hthere⟩ := h.remembered m hm
      refine ⟨at', hat, hthere.imp id fun hold => ?_⟩
      show w.ttl < a.second - at'
      omega
    · rename_i hdue
      split at hstep
      · obtain rfl := Option.some.inj hstep
        refine ⟨h.nodup, fun m hm => ?_⟩
        obtain ⟨at', hat, hthere⟩ := h.remembered m hm
        exact ⟨at', hat, remembered_kept hpassed hthere⟩
      · rename_i hfresh
        obtain rfl := Option.some.inj hstep
        have hskew : |a.first - w.stamp a.message| ≤ w.skew := by
          simp only [Bool.or_eq_true, decide_eq_true_eq, not_or] at hdue
          exact not_lt.mp hdue.2
        have hnew : a.message ∉ g.accepted := by
          intro hmem
          have hfound := h.not_fresh httl hsteady hclock.1 hskew hmem
          simp [hfound] at hfresh
        have hremembered : ∀ m ∈ g.accepted ++ [a.message], ∃ at', w.stamp m - w.skew ≤ at' ∧
            ((w.nonce m, at') ∈ w.kept g.seen a.second ++ [(w.nonce a.message, a.second)] ∨ w.ttl < a.second - at') := by
          intro m hm
          rcases List.mem_append.mp hm with hm | hm
          · obtain ⟨at', hat, hthere⟩ := h.remembered m hm
            exact ⟨at', hat, (remembered_kept hpassed hthere).imp (List.mem_append_left _) id⟩
          · rw [List.mem_singleton.mp hm]
            have hearly := (abs_le.mp hskew).1
            exact ⟨a.second, by omega, .inl (List.mem_append_right _ (List.mem_singleton_self _))⟩
        refine ⟨?_, fun m hm => ?_⟩
        · show (if a.isTaken then g.accepted ++ [a.message] else g.accepted).Nodup
          split
          · exact List.nodup_append.mpr ⟨h.nodup, List.nodup_singleton _, fun m hm m' hm' heq =>
              hnew (List.mem_singleton.mp hm' ▸ heq ▸ hm)⟩
          · exact h.nodup
        · have hm' : m ∈ if a.isTaken then g.accepted ++ [a.message] else g.accepted := hm
          split at hm'
          · exact hremembered m hm'
          · exact hremembered m (List.mem_append_left _ hm')
  · cases hstep

/-- **No message is let in twice** by a program that lets in what the window does, however long after the first time it comes again. -/
theorem accepted_nodup {β : Type*} {step : Gate α ν → β → Option (Gate α ν)} {arrival : β → Arrival α} (httl : 2 * w.skew ≤ w.ttl)
    (hstep : ∀ g b, step g b = w.next g (arrival b)) {clock : ℤ} {arrivals : List β}
    (hsteady : Meets step (fun g b => w.Steady g (arrival b)) (.opening α ν clock) arrivals)
    (h : run step (.opening α ν clock) arrivals = some g) : g.accepted.Nodup := by
  refine (run_invariant_of_meets (P := w.Sound) (fun s b s' hsound hok hnext => ?_) (Sound.opening clock) hsteady h).nodup
  rw [hstep] at hnext
  exact hsound.next httl hok hnext

end Window

end Pokyh.Lib

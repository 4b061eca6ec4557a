import Mathlib.Algebra.GroupWithZero.Nat
import Mathlib.Data.List.Basic
import Mathlib.Data.List.Nodup
import Mathlib.Data.List.Perm.Basic
import Pokyh.Lib.Runs

/-!
# School — Lanes

The grades of a pupil's lessons are asked for a few at a time (`mapLimit` of `utils/singleFlight.ts`): as many lanes as may be
under way at once, each of which takes the next item when its work for the last one has ended, well or not.

* `step`: a lane goes on, or its work ends.
* `Sound`: what every run keeps.  An item that was taken is waited for by one lane, or has its outcome.
* `mapLimit_settles`: **the work is called once for each item, in their order, never for more than the limit at a time**, and each
  item's result is its own outcome; no run gets stuck, and with a limit of at least one, one that has ended has them all.

A lane runs on without a break from where its work has ended to its next call.  Here the two are steps of their own, with those of
other lanes in between.  What was called and what has ended is remembered for the statements.
-/

namespace Pokyh.School.Lanes
open Pokyh.Lib

variable {R E : Type*}

/-- `PromiseSettledResult` -/
inductive Settled (R E : Type*) where
  | fulfilled (value : R)
  | rejected (reason : E)
  deriving DecidableEq, Repr

inductive Lane where
  /-- In front of its loop's condition. -/
  | ready
  | waiting (i : ℕ)
  | ended
  deriving DecidableEq, Repr

/-- The item a lane waits for. -/
def Lane.item : Lane → Option ℕ
  | .waiting i => some i
  | _ => none

structure State (R E : Type*) where
  next : ℕ
  lanes : List Lane
  results : List (Option (Settled R E))
  called : List ℕ
  outcomes : List (ℕ × Settled R E)

inductive Event (R E : Type*) where
  | turn (lane : ℕ)
  | settle (lane : ℕ) (outcome : Settled R E)

/-- As the call is made for `n` items: as many lanes as the limit allows and there are items for. -/
def mapLimit (n limit : ℕ) : State R E where
  next := 0
  lanes := List.replicate (min limit n) .ready
  results := List.replicate n none
  called := []
  outcomes := []

def step (n : ℕ) (s : State R E) : Event R E → Option (State R E)
  | .turn k => s.lanes[k]?.bind fun lane =>
      if lane = .ready then
        some (if s.next < n then
          { s with next := s.next + 1, lanes := s.lanes.set k (.waiting s.next), called := s.called ++ [s.next] }
        else { s with lanes := s.lanes.set k .ended })
      else none
  | .settle k outcome => s.lanes[k]?.bind fun lane => lane.item.map fun i =>
      { s with
        lanes := s.lanes.set k .ready
        results := s.results.set i (some outcome)
        outcomes := s.outcomes ++ [(i, outcome)] }

/-- The items whose work is under way. -/
def State.inFlight (s : State R E) : List ℕ := s.lanes.filterMap Lane.item

/-- The call returns. -/
def State.done (s : State R E) : Bool := s.lanes.all (· = .ended)

/-! ### One step -/

theorem split_lane {lanes : List Lane} {k : ℕ} {lane : Lane} (h : lanes[k]? = some lane) :
    ∃ before after, lanes = before ++ lane :: after ∧ ∀ lane', lanes.set k lane' = before ++ lane' :: after := by
  obtain ⟨hk, rfl⟩ := List.getElem?_eq_some_iff.mp h
  refine ⟨lanes.take k, lanes.drop (k + 1), ?_, fun lane' => List.set_eq_take_append_cons_drop.trans (if_pos hk)⟩
  rw [← List.drop_eq_getElem_cons hk, List.take_append_drop]

/-- What a step does: a lane takes the next item, finds none, or has its work ended. -/
inductive Steps (n : ℕ) (s s' : State R E) (before after : List Lane) : Prop where
  | takes (hnext : s.next < n) (hlanes : s.lanes = before ++ .ready :: after)
      (h : s' = { s with
        next := s.next + 1, lanes := before ++ .waiting s.next :: after, called := s.called ++ [s.next] })
  | ends (hnext : n ≤ s.next) (hlanes : s.lanes = before ++ .ready :: after)
      (h : s' = { s with lanes := before ++ .ended :: after })
  | settles (i : ℕ) (outcome : Settled R E) (hlanes : s.lanes = before ++ .waiting i :: after)
      (h : s' = { s with
        lanes := before ++ .ready :: after
        results := s.results.set i (some outcome)
        outcomes := s.outcomes ++ [(i, outcome)] })

variable {n limit : ℕ} {s s' : State R E}

theorem steps_of_step {event : Event R E} (h : step n s event = some s') : ∃ before after, Steps n s s' before after := by
  cases event with
  | turn k =>
      obtain ⟨lane, hlane, h⟩ := Option.bind_eq_some_iff.mp h
      obtain ⟨rfl, h⟩ := Option.ite_none_right_eq_some.mp h
      obtain ⟨before, after, hlanes, hset⟩ := split_lane hlane
      cases h
      split
      · next hnext => exact ⟨before, after, .takes hnext hlanes (by rw [hset])⟩
      · next hnext => exact ⟨before, after, .ends (Nat.not_lt.mp hnext) hlanes (by rw [hset])⟩
  | settle k outcome =>
      obtain ⟨lane, hlane, h⟩ := Option.bind_eq_some_iff.mp h
      obtain ⟨i, hi, rfl⟩ := Option.map_eq_some_iff.mp h
      obtain ⟨before, after, hlanes, hset⟩ := split_lane hlane
      cases lane with
      | waiting j =>
          cases hi
          exact ⟨before, after, .settles i outcome hlanes (by rw [hset])⟩
      | ready | ended => cases hi

/-! ### What every run keeps -/

structure Sound (n limit : ℕ) (s : State R E) : Prop where
  called : s.called = List.range s.next
  next_le : s.next ≤ n
  lanes : s.lanes.length = min limit n
  results : s.results.length = n
  /-- What was taken is waited for or has its outcome, once. -/
  taken : (s.outcomes.map Prod.fst ++ s.inFlight).Perm (List.range s.next)
  own : ∀ i outcome, s.results[i]? = some (some outcome) ↔ (i, outcome) ∈ s.outcomes
  ended : .ended ∈ s.lanes → s.next = n

theorem sound_mapLimit : Sound n limit (mapLimit n limit : State R E) where
  called := rfl
  next_le := Nat.zero_le n
  lanes := List.length_replicate
  results := List.length_replicate
  taken := by simp [mapLimit, State.inFlight, List.filterMap_replicate, Lane.item]
  own i outcome := by simp [mapLimit, List.getElem?_replicate]
  ended h := absurd (List.eq_of_mem_replicate h) Lane.noConfusion

theorem inFlight_split {before after : List Lane} {lane : Lane} (h : s.lanes = before ++ lane :: after) :
    s.inFlight = before.filterMap Lane.item ++ (lane.item.toList ++ after.filterMap Lane.item) := by
  cases hitem : lane.item <;> simp [State.inFlight, h, hitem]

/-- What is waited for has no outcome yet. -/
theorem Sound.not_settled (h : Sound n limit s) {i : ℕ} (hi : i ∈ s.inFlight) :
    i < n ∧ ∀ outcome, (i, outcome) ∉ s.outcomes := by
  have hnodup := h.taken.symm.nodup List.nodup_range
  have htaken : i ∈ List.range s.next := h.taken.mem_iff.mp (List.mem_append_right _ hi)
  refine ⟨Nat.lt_of_lt_of_le (List.mem_range.mp htaken) h.next_le, fun outcome houtcome => ?_⟩
  exact List.disjoint_of_nodup_append hnodup (List.mem_map_of_mem houtcome) hi

theorem Sound.own_set (h : Sound n limit s) {i : ℕ} (hi : i ∈ s.inFlight) (outcome : Settled R E) (j : ℕ) (other : Settled R E) :
    (s.results.set i (some outcome))[j]? = some (some other) ↔ (j, other) ∈ s.outcomes ++ [(i, outcome)] := by
  obtain ⟨hlt, hfresh⟩ := h.not_settled hi
  rw [List.mem_append, List.mem_singleton]
  by_cases hj : j = i
  · subst hj
    rw [List.getElem?_set_self (h.results ▸ hlt)]
    constructor
    · intro heq
      cases heq
      exact .inr rfl
    · rintro (hold | heq)
      · exact absurd hold (hfresh other)
      · cases heq
        rfl
  · rw [List.getElem?_set_ne (Ne.symm hj), h.own]
    constructor
    · exact .inl
    · rintro (hold | heq)
      · exact hold
      · cases heq
        exact absurd rfl hj

theorem Sound.step (h : Sound n limit s) {event : Event R E} (hs : step n s event = some s') : Sound n limit s' := by
  obtain ⟨before, after, hsteps⟩ := steps_of_step hs
  have hlength := h.lanes
  cases hsteps with
  | takes hnext hlanes heq =>
      subst heq
      rw [hlanes] at hlength
      refine
        { called := ?_
          next_le := hnext
          lanes := by rw [← hlength]; simp
          results := h.results
          taken := ?_
          own := h.own
          ended := ?_ }
      · rw [List.range_succ, h.called]
      · have htaken := h.taken
        rw [inFlight_split hlanes] at htaken
        rw [inFlight_split rfl, List.range_succ]
        -- the item that was taken goes to the end
        refine .trans ?_ (htaken.append_right [s.next])
        simp only [Lane.item, Option.toList_some, Option.toList_none, List.nil_append, List.append_assoc, List.singleton_append]
        exact ((List.perm_append_singleton _ _).symm.append_left _).append_left _
      · intro hended
        refine absurd (h.ended ?_) hnext.ne
        rw [hlanes]
        simpa using hended
  | ends hnext hlanes heq =>
      subst heq
      rw [hlanes] at hlength
      refine
        { called := h.called
          next_le := h.next_le
          lanes := by rw [← hlength]; simp
          results := h.results
          taken := ?_
          own := h.own
          ended := fun _ => Nat.le_antisymm h.next_le hnext }
      have htaken := h.taken
      rw [inFlight_split hlanes] at htaken
      rw [inFlight_split rfl]
      exact htaken
  | settles i outcome hlanes heq =>
      subst heq
      rw [hlanes] at hlength
      have htaken := h.taken
      rw [inFlight_split hlanes] at htaken
      have hi : i ∈ s.inFlight := by
        rw [inFlight_split hlanes]
        exact List.mem_append_right _ (List.mem_append_left _ (List.mem_singleton_self i))
      refine
        { called := h.called
          next_le := h.next_le
          lanes := by rw [← hlength]; simp
          results := by rw [List.length_set, h.results]
          taken := ?_
          own := h.own_set hi outcome
          ended := fun hended => h.ended (by rw [hlanes]; simpa using hended) }
      rw [inFlight_split rfl]
      refine .trans ?_ htaken
      simp only [List.map_append, List.map_cons, List.map_nil, Lane.item, Option.toList_some, Option.toList_none,
        List.nil_append, List.append_assoc, List.singleton_append]
      exact List.perm_middle.symm.append_left _

/-! ### Steps that are left -/

def Lane.weight : Lane → ℕ
  | .ready => 1
  | .waiting _ => 2
  | .ended => 0

def State.left (n : ℕ) (s : State R E) : ℕ := 2 * (n - s.next) + (s.lanes.map Lane.weight).sum

theorem left_split {before after : List Lane} {lane : Lane} (h : s.lanes = before ++ lane :: after) :
    s.left n = 2 * (n - s.next) + ((before.map Lane.weight).sum + (lane.weight + (after.map Lane.weight).sum)) := by
  rw [State.left, h, List.map_append, List.map_cons, List.sum_append, List.sum_cons]

theorem left_step {event : Event R E} (hs : step n s event = some s') : s.left n = s'.left n + 1 := by
  obtain ⟨before, after, hsteps⟩ := steps_of_step hs
  cases hsteps with
  | takes hnext hlanes heq =>
      subst heq
      rw [left_split hlanes, left_split rfl]
      simp only [Lane.weight]
      omega
  | ends hnext hlanes heq =>
      subst heq
      rw [left_split hlanes, left_split rfl]
      simp only [Lane.weight]
      omega
  | settles i outcome hlanes heq =>
      subst heq
      rw [left_split hlanes, left_split rfl]
      simp only [Lane.weight]
      omega

theorem left_run {events : List (Event R E)} (hrun : run (Lanes.step n) s events = some s') :
    s.left n = s'.left n + events.length := by
  induction events generalizing s with
  | nil =>
      cases hrun
      rfl
  | cons event events ih =>
      obtain ⟨t, hstep, hrun⟩ := run_cons_eq_some.mp hrun
      rw [left_step hstep, ih hrun, List.length_cons, Nat.add_assoc]

/-- A lane that has not ended goes on, or has its work ended. -/
theorem exists_step (h : s.done = false) :
    (∃ k, (Lanes.step n s (.turn k)).isSome) ∨ ∃ k, ∀ outcome, (Lanes.step n s (.settle k outcome)).isSome := by
  obtain ⟨lane, hmem, hne⟩ := List.all_eq_false.mp h
  obtain ⟨k, hk⟩ := List.mem_iff_getElem?.mp hmem
  cases lane with
  | ready => exact .inl ⟨k, by simp [Lanes.step, hk]⟩
  | waiting i => exact .inr ⟨k, fun outcome => by simp [Lanes.step, hk, Lane.item]⟩
  | ended => exact absurd (decide_eq_true rfl) hne

theorem eq_ended (h : s.done = true) {lane : Lane} (hlane : lane ∈ s.lanes) : lane = .ended :=
  of_decide_eq_true (List.all_eq_true.mp h lane hlane)

/-- A lane ends when no item is left; without lanes there was none. -/
theorem Sound.next_eq_of_done (h : Sound n limit s) (hlimit : 1 ≤ limit) (hdone : s.done = true) : s.next = n := by
  have hlength := h.lanes
  cases hlanes : s.lanes with
  | nil =>
      have hnext := h.next_le
      rw [hlanes, List.length_nil] at hlength
      omega
  | cons lane lanes =>
      have hmem : lane ∈ s.lanes := hlanes ▸ List.mem_cons_self
      exact h.ended (eq_ended hdone hmem ▸ hmem)

theorem Sound.all_of_done (h : Sound n limit s) (hlimit : 1 ≤ limit) (hdone : s.done = true) {i : ℕ} (hi : i < n) :
    ∃ outcome, s.results[i]? = some (some outcome) := by
  have hnone : s.inFlight = [] := List.filterMap_eq_nil_iff.mpr fun lane hlane => by rw [eq_ended hdone hlane]; rfl
  have htaken := h.taken
  rw [hnone, List.append_nil, h.next_eq_of_done hlimit hdone] at htaken
  obtain ⟨⟨j, outcome⟩, hmem, rfl⟩ := List.mem_map.mp (htaken.mem_iff.mpr (List.mem_range.mpr hi))
  exact ⟨outcome, (h.own _ _).mpr hmem⟩

/-- **The work is called once for each item**, in their order and for no more than the limit at a time; what was called is waited for or
has had its outcome, and what is kept of an item is its own.  A run takes two steps an item and one a lane; until it has taken them one
more is possible, and then, if there were lanes at all, it has every outcome. -/
theorem mapLimit_settles {events : List (Event R E)} (hrun : run (Lanes.step n) (mapLimit n limit) events = some s) :
    s.called = List.range s.called.length ∧ s.called.length ≤ n ∧
      (s.outcomes.map Prod.fst ++ s.inFlight).Perm s.called ∧ s.inFlight.length ≤ limit ∧
      (∀ i outcome, s.results[i]? = some (some outcome) ↔ (i, outcome) ∈ s.outcomes) ∧
      events.length ≤ 2 * n + min limit n ∧
      (s.done = false → (∃ k, (Lanes.step n s (.turn k)).isSome) ∨
        ∃ k, ∀ outcome, (Lanes.step n s (.settle k outcome)).isSome) ∧
      (1 ≤ limit → s.done = true → s.called = List.range n ∧ ∀ i < n, ∃ outcome, s.results[i]? = some (some outcome)) := by
  have h : Sound n limit s := run_invariant (fun _ _ _ h hs => Sound.step h hs) sound_mapLimit hrun
  have hcalled : s.called.length = s.next := by rw [h.called, List.length_range]
  have hleft := left_run hrun
  have hstart : (mapLimit n limit : State R E).left n = 2 * n + min limit n := by
    simp [State.left, mapLimit, Lane.weight]
  refine ⟨hcalled ▸ h.called, hcalled ▸ h.next_le, h.called ▸ h.taken, ?_, h.own, ?_, exists_step, fun hlimit hdone =>
    ⟨?_, fun i hi => h.all_of_done hlimit hdone hi⟩⟩
  · calc s.inFlight.length ≤ s.lanes.length := List.length_filterMap_le _ _
      _ = min limit n := h.lanes
      _ ≤ limit := Nat.min_le_left _ _
  · omega
  · rw [h.called, h.next_eq_of_done hlimit hdone]

/-- Three lessons, two at a time; the second one fails, and the first one ends last. -/
def threeLessons : List (Event String Unit) :=
  [.turn 0, .turn 1, .settle 1 (.rejected ()), .turn 1, .settle 1 (.fulfilled "c"), .turn 1, .settle 0 (.fulfilled "a"), .turn 0]

theorem mapLimit_settles_threeLessons : ∃ s, run (Lanes.step 3) (mapLimit 3 2) threeLessons = some s ∧
    s.called = [0, 1, 2] ∧ ∀ i < 3, ∃ outcome, s.results[i]? = some (some outcome) := by
  obtain ⟨-, -, -, -, -, -, -, hdone⟩ := @mapLimit_settles _ _ 3 2 _ threeLessons rfl
  exact ⟨_, rfl, hdone (by decide) rfl⟩

end Pokyh.School.Lanes

import Mathlib.Data.List.Induction
import Mathlib.Data.Option.Basic
import Mathlib.Order.WellFounded

/-!
# Lib — Runs

Runs of a machine given as a step function `step : σ → α → Option σ`: the machine is in a state,
an action is offered, and it is either taken (`some` next state) or not possible (`none`).  A run
takes the actions of a list one after the other.

* `run_invariant`: what every step preserves, every run preserves.
* `run_invariant_of_meets`: the same where each step is only known to preserve it under a
  condition on the state and the action (`Meets`).
* `run_splits`: the same for an invariant that speaks of the actions already taken.
* `run_total`: a run whose every step is possible while an invariant holds gets through.
* `run_mono`: along a run, a reflexive and transitive relation that every step respects holds
  between the first state and the last.

* `eventually_of_decreasing`: what gets smaller with every step ends.

The second half is about loops: `foldl_splits` is the loop rule for `List.foldl` whose invariant
may speak of the elements already handled.
-/

namespace Pokyh.Lib

variable {σ α : Type*}

/-- What gets smaller with every step as long as it has not come to the end comes to the end. -/
theorem eventually_of_decreasing {α : Type*} [LT α] [WellFoundedLT α] {I P : σ → Prop} (f : σ → α) {s : ℕ → σ}
    (h₀ : I (s 0)) (hstep : ∀ n, I (s n) → P (s (n + 1)) ∨ I (s (n + 1)) ∧ f (s (n + 1)) < f (s n)) :
    ∃ n, P (s n) := by
  by_contra hnever
  have hall : ∀ n, I (s n) := by
    intro n
    induction n with
    | zero => exact h₀
    | succ n ih => exact ((hstep n ih).resolve_left fun h => hnever ⟨_, h⟩).1
  have hless : ∀ n, f (s (n + 1)) < f (s n) := fun n => ((hstep n (hall n)).resolve_left fun h => hnever ⟨_, h⟩).2
  obtain ⟨a, ⟨n, rfl⟩, hmin⟩ := WellFounded.has_min (@wellFounded_lt α _ _) (Set.range fun n => f (s n)) ⟨_, 0, rfl⟩
  exact hmin _ ⟨n + 1, rfl⟩ (hless n)

/-- The state after the actions of a list, if all of them are possible. -/
def run (step : σ → α → Option σ) : σ → List α → Option σ
  | s, [] => some s
  | s, a :: as => (step s a).bind fun s' => run step s' as

@[simp] theorem run_nil (step : σ → α → Option σ) (s : σ) : run step s [] = some s := rfl

theorem run_cons_eq_some {step : σ → α → Option σ} {s t : σ} {a : α} {as : List α} :
    run step s (a :: as) = some t ↔ ∃ s', step s a = some s' ∧ run step s' as = some t := by
  simp [run, Option.bind_eq_some_iff]

/-- A run whose actions are all possible ends where it is said to end. -/
theorem run_eq_getD {step : σ → α → Option σ} {s : σ} {as : List α} (h : (run step s as).isSome = true) (other : σ) :
    run step s as = some ((run step s as).getD other) :=
  (Option.some_get h).symm.trans (congrArg some (Option.get_eq_getD _))

theorem run_append {step : σ → α → Option σ} {s : σ} {as bs : List α} :
    run step s (as ++ bs) = (run step s as).bind fun s' => run step s' bs := by
  induction as generalizing s with
  | nil => rfl
  | cons a as ih =>
      cases h : step s a with
      | none => simp [run, h]
      | some s' => simp [run, h, ih]

/-- **The invariant rule.** -/
theorem run_invariant {step : σ → α → Option σ} {P : σ → Prop}
    (hstep : ∀ s a s', P s → step s a = some s' → P s') {s t : σ} {as : List α}
    (hs : P s) (h : run step s as = some t) : P t := by
  induction as generalizing s with
  | nil => cases h; exact hs
  | cons a as ih =>
      obtain ⟨s', h₁, h₂⟩ := run_cons_eq_some.mp h
      exact ih (hstep s a s' hs h₁) h₂

/-- Every step of the run is taken in a state that meets `Ok` for its action. -/
def Meets (step : σ → α → Option σ) (Ok : σ → α → Prop) : σ → List α → Prop
  | _, [] => True
  | s, a :: as => Ok s a ∧ ∀ s', step s a = some s' → Meets step Ok s' as

/-- **The invariant rule, for runs whose steps meet a condition.** -/
theorem run_invariant_of_meets {step : σ → α → Option σ} {Ok : σ → α → Prop} {P : σ → Prop}
    (hstep : ∀ s a s', P s → Ok s a → step s a = some s' → P s') {s t : σ} {as : List α}
    (hs : P s) (hm : Meets step Ok s as) (h : run step s as = some t) : P t := by
  induction as generalizing s with
  | nil => cases h; exact hs
  | cons a as ih =>
      obtain ⟨s', h₁, h₂⟩ := run_cons_eq_some.mp h
      exact ih (hstep s a s' hs hm.1 h₁) (hm.2 s' h₁) h₂

/-- A condition that the steps meet, along with one on the actions alone. -/
theorem Meets.and {step : σ → α → Option σ} {Ok : σ → α → Prop} {Q : α → Prop} {s : σ} {as : List α}
    (hm : Meets step Ok s as) (hQ : ∀ a ∈ as, Q a) : Meets step (fun s a => Ok s a ∧ Q a) s as := by
  induction as generalizing s with
  | nil => trivial
  | cons a as ih =>
      exact ⟨⟨hm.1, hQ a List.mem_cons_self⟩,
        fun s' h => ih (hm.2 s' h) fun b hb => hQ b (List.mem_cons_of_mem _ hb)⟩

theorem Meets.cons {step : σ → α → Option σ} {Ok : σ → α → Prop} {s s' : σ} {a : α} {as : List α}
    (hok : Ok s a) (h : step s a = some s') (hm : Meets step Ok s' as) : Meets step Ok s (a :: as) :=
  ⟨hok, fun t ht => by rw [h] at ht; cases ht; exact hm⟩

theorem Meets.left {step : σ → α → Option σ} {Ok : σ → α → Prop} {s : σ} {as bs : List α}
    (hm : Meets step Ok s (as ++ bs)) : Meets step Ok s as := by
  induction as generalizing s with
  | nil => trivial
  | cons a as ih => exact ⟨hm.1, fun s' h => ih (hm.2 s' h)⟩

theorem Meets.right {step : σ → α → Option σ} {Ok : σ → α → Prop} {s t : σ} {as bs : List α}
    (hm : Meets step Ok s (as ++ bs)) (h : run step s as = some t) : Meets step Ok t bs := by
  induction as generalizing s with
  | nil => cases h; exact hm
  | cons a as ih =>
      obtain ⟨s', h₁, h₂⟩ := run_cons_eq_some.mp h
      exact ih (hm.2 s' h₁) h₂

/-- For a condition that can be computed, so can whether a run meets it. -/
instance Meets.decidable (step : σ → α → Option σ) (Ok : σ → α → Prop) [∀ s a, Decidable (Ok s a)] :
    (s : σ) → (as : List α) → Decidable (Meets step Ok s as)
  | _, [] => .isTrue trivial
  | s, a :: as =>
      match h : step s a with
      | some s' =>
          have := Meets.decidable step Ok s' as
          decidable_of_iff (Ok s a ∧ Meets step Ok s' as)
            ⟨fun hm => .cons hm.1 h hm.2, fun hm => ⟨hm.1, hm.2 s' h⟩⟩
      | none => decidable_of_iff (Ok s a) ⟨fun hok => ⟨hok, fun _ h' => nomatch h.symm.trans h'⟩, And.left⟩

/-- The condition holds in the state in which an action of the run is taken. -/
theorem Meets.at_split {step : σ → α → Option σ} {Ok : σ → α → Prop} {s t : σ} {pre post : List α}
    {a : α} (hm : Meets step Ok s (pre ++ a :: post)) (h : run step s pre = some t) : Ok t a := by
  induction pre generalizing s with
  | nil => cases h; exact hm.1
  | cons b pre ih =>
      obtain ⟨s', h₁, h₂⟩ := run_cons_eq_some.mp h
      exact ih (hm.2 s' h₁) h₂

theorem Meets.of_forall {step : σ → α → Option σ} {Q : α → Prop} {s : σ} {as : List α}
    (hQ : ∀ a ∈ as, Q a) : Meets step (fun _ a => Q a) s as := by
  induction as generalizing s with
  | nil => trivial
  | cons a as ih =>
      exact ⟨hQ a List.mem_cons_self, fun _ _ => ih fun b hb => hQ b (List.mem_cons_of_mem _ hb)⟩

theorem Meets.imp {step : σ → α → Option σ} {Ok Ok' : σ → α → Prop} (himp : ∀ s a, Ok s a → Ok' s a) {s : σ} {as : List α}
    (h : Meets step Ok s as) : Meets step Ok' s as := by
  induction as generalizing s with
  | nil => trivial
  | cons a as ih => exact ⟨himp s a h.1, fun s' hs' => ih (h.2 s' hs')⟩

/-- A preorder that every step respects holds between a run's first and last state. -/
theorem run_mono {step : σ → α → Option σ} {R : σ → σ → Prop} (hrefl : ∀ s, R s s)
    (htrans : ∀ {s t u}, R s t → R t u → R s u)
    (hstep : ∀ s a s', step s a = some s' → R s s') {s t : σ} {as : List α}
    (h : run step s as = some t) : R s t := by
  induction as generalizing s with
  | nil => cases h; exact hrefl _
  | cons a as ih =>
      obtain ⟨s', h₁, h₂⟩ := run_cons_eq_some.mp h
      exact htrans (hstep s a s' h₁) (ih h₂)

/-- The invariant rule, where the invariant may speak of the actions already taken. -/
theorem run_splits {step : σ → α → Option σ} {P : List α → σ → Prop} {s t : σ} {as : List α}
    (h₀ : P [] s)
    (hstep : ∀ pre a post s₁ s₂, as = pre ++ a :: post → run step s pre = some s₁ → P pre s₁ →
      step s₁ a = some s₂ → P (pre ++ [a]) s₂)
    (h : run step s as = some t) : P as t := by
  have key : ∀ pre post s₁, as = pre ++ post → run step s pre = some s₁ → P pre s₁ := by
    intro pre
    induction pre using List.reverseRecOn with
    | nil => intro _ _ _ hr; cases hr; exact h₀
    | append_singleton pre a ih =>
        intro post s₂ has hr
        rw [run_append, Option.bind_eq_some_iff] at hr
        obtain ⟨s₁, h₁, h₂⟩ := hr
        obtain ⟨s', h₂, h₃⟩ := run_cons_eq_some.mp h₂
        cases h₃
        have has' : as = pre ++ a :: post := by simpa using has
        exact hstep pre a post s₁ _ has' h₁ (ih _ s₁ has' h₁) h₂
  exact key as [] t (by simp) h

/-- A run gets through when every step that keeps the invariant is possible. -/
theorem run_total {step : σ → α → Option σ} {P : List α → σ → Prop} {s : σ} {as : List α} (h₀ : P [] s)
    (hstep : ∀ pre a post s₁, as = pre ++ a :: post → P pre s₁ → ∃ s₂, step s₁ a = some s₂ ∧ P (pre ++ [a]) s₂) :
    ∃ t, run step s as = some t ∧ P as t := by
  suffices hall : ∀ pre post s₁, as = pre ++ post → P pre s₁ → ∃ t, run step s₁ post = some t ∧ P as t from hall [] as s rfl h₀
  intro pre post
  induction post generalizing pre with
  | nil =>
      intro s₁ has hs
      rw [List.append_nil] at has
      exact ⟨s₁, rfl, has ▸ hs⟩
  | cons a post ih =>
      intro s₁ has hs
      obtain ⟨s₂, h₂, hs₂⟩ := hstep pre a post s₁ has hs
      obtain ⟨t, ht, hP⟩ := ih (pre ++ [a]) s₂ (by rw [has, List.append_assoc, List.singleton_append]) hs₂
      exact ⟨t, run_cons_eq_some.mpr ⟨s₂, h₂, ht⟩, hP⟩

/-- **The loop rule.**  An invariant of the handled elements and the state, established before
the loop and kept by every iteration, holds after it. -/
theorem foldl_splits {f : σ → α → σ} {s : σ} {l : List α} {P : List α → σ → Prop}
    (h₀ : P [] s)
    (hstep : ∀ pre a post, l = pre ++ a :: post → P pre (pre.foldl f s) →
      P (pre ++ [a]) (f (pre.foldl f s) a)) :
    P l (l.foldl f s) := by
  have key : ∀ pre post, l = pre ++ post → P pre (pre.foldl f s) := by
    intro pre
    induction pre using List.reverseRecOn with
    | nil => intro _ _; exact h₀
    | append_singleton pre a ih =>
        intro post hl
        have hl' : l = pre ++ a :: post := by simpa using hl
        simpa using hstep pre a post hl' (ih _ hl')
  exact key l [] (by simp)

/-- The loop rule for an invariant of the state alone. -/
theorem foldl_invariant {f : σ → α → σ} {P : σ → Prop} {l : List α}
    (hstep : ∀ s, ∀ a ∈ l, P s → P (f s a)) {s : σ} (hs : P s) : P (l.foldl f s) := by
  induction l generalizing s with
  | nil => exact hs
  | cons a l ih =>
      exact ih (fun s b hb => hstep s b (List.mem_cons_of_mem _ hb))
        (hstep s a List.mem_cons_self hs)

/-- A loop whose every iteration adds one reason for a property adds all of them. -/
theorem foldl_iff_exists {f : σ → α → σ} {P : σ → Prop} {Q : α → Prop}
    (hstep : ∀ s a, P (f s a) ↔ P s ∨ Q a) (s : σ) (l : List α) :
    P (l.foldl f s) ↔ P s ∨ ∃ a ∈ l, Q a := by
  induction l generalizing s with
  | nil => simp
  | cons a l ih => simp [ih, hstep, or_assoc]

/-- A loop establishes what one iteration makes true and no iteration makes false. -/
theorem foldl_establish {f : σ → α → σ} {I P : σ → Prop} {l : List α} (hinv : ∀ s, ∀ a ∈ l, I s → I (f s a))
    (hkeep : ∀ s, ∀ a ∈ l, I s → P s → P (f s a)) {a : α} (ha : a ∈ l) (hset : ∀ s, I s → P (f s a)) {s : σ}
    (hs : I s) : P (l.foldl f s) := by
  obtain ⟨pre, post, rfl⟩ := List.append_of_mem ha
  have hpre : I (pre.foldl f s) := foldl_invariant (fun s b hb => hinv s b (List.mem_append_left _ hb)) hs
  rw [List.foldl_append, List.foldl_cons]
  refine (foldl_invariant (P := fun s => I s ∧ P s) (fun s b hb h => ?_) ⟨hinv _ a ha hpre, hset _ hpre⟩).2
  have hb' := List.mem_append_right pre (List.mem_cons_of_mem a hb)
  exact ⟨hinv s b hb' h.1, hkeep s b hb' h.1 h.2⟩

/-- Where no iteration leads up, a loop comes back up to where it began exactly when every iteration does. -/
theorem foldl_returns_iff {f : σ → α → σ} {R : σ → σ → Prop} (hrefl : ∀ s, R s s) (htrans : ∀ s t u, R s t → R t u → R s u) {s : σ}
    {l : List α} (hdown : ∀ pre a post, l = pre ++ a :: post → R (f (pre.foldl f s) a) (pre.foldl f s)) :
    R s (l.foldl f s) ↔ ∀ pre a post, l = pre ++ a :: post → R (pre.foldl f s) (f (pre.foldl f s) a) := by
  induction l generalizing s with
  | nil => simp [hrefl]
  | cons a l ih =>
      have hdownRest : ∀ pre b post, l = pre ++ b :: post → R (f (pre.foldl f (f s a)) b) (pre.foldl f (f s a)) :=
        fun pre b post heq => hdown (a :: pre) b post (by rw [heq, List.cons_append])
      have hfirst := hdown [] a l rfl
      have hend : R (l.foldl f (f s a)) (f s a) := by
        refine foldl_splits (P := fun _ t => R t (f s a)) (hrefl _) fun pre b post heq h => ?_
        exact htrans _ _ _ (hdownRest pre b post heq) h
      rw [List.foldl_cons]
      constructor
      · intro h pre b post heq
        have hrest := (ih hdownRest).mp (htrans _ _ _ hfirst h)
        cases pre with
        | nil =>
            obtain ⟨rfl, -⟩ := List.cons.inj heq
            exact htrans _ _ _ h hend
        | cons c pre =>
            obtain ⟨rfl, hbehind⟩ := List.cons.inj heq
            exact hrest pre b post hbehind
      · intro h
        have hrest := (ih hdownRest).mpr fun pre b post heq => h (a :: pre) b post (by rw [heq, List.cons_append])
        exact htrans _ _ _ (h [] a l rfl) hrest

/-- A loop of passes over a list is one pass, with a loop for each element. -/
theorem foldl_map_rows {f : α → σ → σ} {l : List α} {rows : List σ} :
    l.foldl (fun rows a => rows.map (f a)) rows = rows.map fun s => l.foldl (fun s a => f a s) s := by
  induction l generalizing rows with
  | nil => simp
  | cons a l ih => simp [ih, Function.comp_def]

end Pokyh.Lib

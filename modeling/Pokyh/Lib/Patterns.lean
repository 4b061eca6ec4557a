import Mathlib.Data.List.Basic
import Mathlib.Tactic.Cases

/-!
# Lib — Patterns

Regular expressions as backtracking readers.  A pattern gives the ways it matches at a place of a text, in the order in which they
are tried, each with what it reads and the place behind it; the first one is the match.  `pieces` goes through a text from left to
right and splits it into the matches and the symbols between them.

* `pieces_miss`, `pieces_hit`: what stands at a place, when nothing matches there and when something does.
* `pieces_pass`: a stretch of a text without a match in it.
-/

namespace Pokyh.Lib

variable {σ α β : Type*}

/-- A place in a text: what stands before it, the last symbol first, and what follows. -/
structure Place (σ : Type*) where
  before : List σ
  after : List σ

/-- The ways to match at a place, each with what it reads and the place behind it. -/
abbrev Pattern (σ α : Type*) := Place σ → List (α × Place σ)

namespace Pattern

def give (a : α) : Pattern σ α := fun p => [(a, p)]

def bind (x : Pattern σ α) (f : α → Pattern σ β) : Pattern σ β := fun p => (x p).flatMap fun way => f way.1 way.2

def map (f : α → β) (x : Pattern σ α) : Pattern σ β := fun p => (x p).map fun way => (f way.1, way.2)

/-- One symbol of a class. -/
def one (accepts : σ → Bool) : Pattern σ σ
  | ⟨before, c :: after⟩ => if accepts c then [(c, ⟨c :: before, after⟩)] else []
  | ⟨_, []⟩ => []

/-- From `least` to `most` symbols of a class, as many as possible first. -/
def many (accepts : σ → Bool) : ℕ → ℕ → Pattern σ (List σ)
  | least, most + 1, ⟨before, c :: after⟩ =>
    (if accepts c then (many accepts (least - 1) most ⟨c :: before, after⟩).map fun way => (c :: way.1, way.2) else []) ++
      if least = 0 then [([], ⟨before, c :: after⟩)] else []
  | least, _, p => if least = 0 then [([], p)] else []

/-- Any number of symbols of a class, at least `least`. -/
def atLeast (accepts : σ → Bool) (least : ℕ) : Pattern σ (List σ) := fun p => many accepts least p.after.length p

/-- No symbol of a class stands before the place. -/
def notBehind (accepts : σ → Bool) : Pattern σ Unit := fun p => if p.before.head?.any accepts then [] else [((), p)]

/-- The text ends here. -/
def ends : Pattern σ Unit := fun p => if p.after.isEmpty then [((), p)] else []

/-- No symbol of a class follows. -/
def notAhead (accepts : σ → Bool) : Pattern σ Unit := fun p => if p.after.head?.any accepts then [] else [((), p)]

/-! ### Going through a text -/

/-- The symbols outside the matches and the matches, from left to right; the first `skip` symbols belong to a match before. -/
def piecesFrom (x : Pattern σ α) : ℕ → List σ → List σ → List (σ ⊕ α)
  | skip + 1, before, c :: after => piecesFrom x skip (c :: before) after
  | 0, before, c :: after =>
    match (x ⟨before, c :: after⟩).head? with
    | none => .inl c :: piecesFrom x 0 (c :: before) after
    | some (a, q) =>
      if q.after.length = after.length + 1 then .inr a :: .inl c :: piecesFrom x 0 (c :: before) after
      else .inr a :: piecesFrom x (after.length - q.after.length) (c :: before) after
  | 0, before, [] => ((x ⟨before, []⟩).head?.map fun way => Sum.inr way.1).toList
  | _ + 1, _, [] => []

def pieces (x : Pattern σ α) (text : List σ) : List (σ ⊕ α) := piecesFrom x 0 [] text

/-- What the matches from a place on read. -/
def matchesFrom (x : Pattern σ α) (before after : List σ) : List α := (piecesFrom x 0 before after).filterMap Sum.getRight?

def matchAll (x : Pattern σ α) (text : List σ) : List α := matchesFrom x [] text

/-- The first match from a place on, with what stands before it. -/
def search (x : Pattern σ α) : List σ → List σ → Option (List σ × α)
  | before, [] => (x ⟨before, []⟩).head?.map fun way => (before.reverse, way.1)
  | before, c :: after =>
    match (x ⟨before, c :: after⟩).head? with
    | some way => some (before.reverse, way.1)
    | none => search x (c :: before) after

variable {x : Pattern σ α} {before after : List σ} {c : σ}

theorem bind_notBehind_miss (accepts : σ → Bool) {p : Place σ} (h : x p = []) : (notBehind accepts).bind (fun _ => x) p = [] := by
  unfold bind notBehind
  split
  · rfl
  · rw [List.flatMap_singleton]
    exact h

/-- Behind symbols of a class stands another one, or the first that is none. -/
theorem many_next {accepts : σ → Bool} {least most : ℕ} {p : Place σ} {way : List σ × Place σ} (h : way ∈ many accepts least most p)
    {c : σ} (hc : c ∈ way.2.after.head?) : accepts c = true ∨ c ∈ (p.after.dropWhile accepts).head? := by
  have hstay : ∀ p : Place σ, c ∈ p.after.head? → accepts c = true ∨ c ∈ (p.after.dropWhile accepts).head? := by
    rintro ⟨before, after⟩ hc
    cases after with
    | nil => cases hc
    | cons d after =>
        obtain rfl : d = c := Option.some.inj hc
        cases hd : accepts d with
        | true => exact .inl rfl
        | false => exact .inr (by rw [List.dropWhile_cons_of_neg (by simp [hd])]; rfl)
  fun_induction many accepts least most p generalizing way with
  | case1 least most before d after ih =>
      rcases List.mem_append.mp h with h | h
      · split at h
        · rename_i hd
          obtain ⟨way', hway', rfl⟩ := List.mem_map.mp h
          rw [List.dropWhile_cons_of_pos hd]
          exact ih hway' hc
        · cases h
      · split at h
        · obtain rfl := List.mem_singleton.mp h
          exact hstay _ hc
        · cases h
  | case2 =>
      obtain rfl := List.mem_singleton.mp h
      exact hstay _ hc
  | case3 => cases h

/-- The first way of a pattern is the one in which its parts match first. -/
theorem head_bind {y : Pattern σ β} {f : β → Pattern σ α} {p q r : Place σ} {a : α} {b : β} (hy : (y p).head? = some (b, q))
    (hf : (f b q).head? = some (a, r)) : ((y.bind f) p).head? = some (a, r) := by
  unfold bind
  cases hways : y p with
  | nil =>
      rw [hways] at hy
      cases hy
  | cons way ways =>
      rw [hways] at hy
      obtain rfl := Option.some.inj hy
      rw [List.flatMap_cons, List.head?_append, hf]
      rfl

/-- **A run of symbols of a class** is read as a whole first. -/
theorem head_many {accepts : σ → Bool} {least most : ℕ} {run : List σ} (hrun : ∀ c ∈ run, accepts c = true)
    (hleast : least ≤ run.length) (hmost : run.length ≤ most) (hafter : ∀ c ∈ after.head?, accepts c = false) :
    (many accepts least most ⟨before, run ++ after⟩).head? = some (run, ⟨run.reverse ++ before, after⟩) := by
  induction run generalizing least most before with
  | nil =>
      obtain rfl : least = 0 := Nat.le_zero.mp hleast
      cases most with
      | zero => rfl
      | succ most =>
          cases after with
          | nil => rfl
          | cons c after =>
              have hc : accepts c = false := hafter c rfl
              simp [many, hc]
  | cons c run ih =>
      obtain ⟨most, rfl⟩ : ∃ n, most = n + 1 := ⟨most - 1, by simp only [List.length_cons] at hmost; omega⟩
      have hc : accepts c = true := hrun c List.mem_cons_self
      have hrest : (many accepts (least - 1) most ⟨c :: before, run ++ after⟩).head? =
          some (run, ⟨run.reverse ++ c :: before, after⟩) := by
        refine ih (fun d hd => hrun d (List.mem_cons_of_mem _ hd)) ?_ ?_
        · simp only [List.length_cons] at hleast
          omega
        · simp only [List.length_cons] at hmost
          omega
      rw [List.cons_append, many, if_pos hc, List.head?_append, List.head?_map, hrest]
      simp

/-- Nothing matches where the symbols of a class are followed by none of the class behind them. -/
theorem many_one_miss {accepts stop : σ → Bool} {least most : ℕ} {f : List σ → σ → Pattern σ α} {p : Place σ}
    (hstop : ∀ c, accepts c = true → stop c = false) (hnext : ∀ c ∈ (p.after.dropWhile accepts).head?, stop c = false) :
    ((many accepts least most).bind fun read => (one stop).bind (f read)) p = [] := by
  refine List.flatMap_eq_nil_iff.mpr fun way hway => ?_
  have hone : one stop way.2 = [] := by
    obtain ⟨read, before, after⟩ := way
    cases after with
    | nil => rfl
    | cons c after =>
        have hc : stop c = false := (many_next hway (c := c) rfl).elim (hstop c) (hnext c)
        simp [one, hc]
  simp [bind, hone]

theorem atLeast_one_miss {accepts stop : σ → Bool} {least : ℕ} {f : List σ → σ → Pattern σ α} {p : Place σ}
    (hstop : ∀ c, accepts c = true → stop c = false) (hnext : ∀ c ∈ (p.after.dropWhile accepts).head?, stop c = false) :
    ((atLeast accepts least).bind fun read => (one stop).bind (f read)) p = [] :=
  many_one_miss hstop hnext

theorem piecesFrom_skip (x : Pattern σ α) (before read after : List σ) :
    piecesFrom x read.length before (read ++ after) = piecesFrom x 0 (read.reverse ++ before) after := by
  induction read generalizing before with
  | nil => rfl
  | cons c read ih =>
      rw [List.length_cons, List.cons_append, piecesFrom, ih, List.reverse_cons, List.append_assoc]
      rfl

/-- Nothing matches here. -/
theorem pieces_miss (h : x ⟨before, c :: after⟩ = []) :
    piecesFrom x 0 before (c :: after) = .inl c :: piecesFrom x 0 (c :: before) after := by
  rw [piecesFrom, h]
  rfl

/-- **Something is read here**, and the search goes on behind it. -/
theorem pieces_hit {read : List σ} {a : α} (hread : read ≠ [])
    (h : (x ⟨before, read ++ after⟩).head? = some (a, ⟨read.reverse ++ before, after⟩)) :
    piecesFrom x 0 before (read ++ after) = .inr a :: piecesFrom x 0 (read.reverse ++ before) after := by
  cases read with
  | nil => exact absurd rfl hread
  | cons c read =>
      rw [List.cons_append] at h ⊢
      have hlength : (read ++ after).length - after.length = read.length := by rw [List.length_append]; omega
      have hsome : ¬ after.length = (read ++ after).length + 1 := by rw [List.length_append]; omega
      rw [piecesFrom, h]
      dsimp only
      rw [if_neg hsome, hlength, piecesFrom_skip, List.reverse_cons, List.append_assoc]
      rfl

/-- **A stretch without a match in it**. -/
theorem pieces_pass {stretch : List σ}
    (h : ∀ done c rest, stretch = done ++ c :: rest → x ⟨done.reverse ++ before, c :: rest ++ after⟩ = []) :
    piecesFrom x 0 before (stretch ++ after) = stretch.map .inl ++ piecesFrom x 0 (stretch.reverse ++ before) after := by
  induction stretch generalizing before with
  | nil => rfl
  | cons c stretch ih =>
      have hmiss : x ⟨before, c :: (stretch ++ after)⟩ = [] := h [] c stretch rfl
      have hrest : piecesFrom x 0 (c :: before) (stretch ++ after) =
          stretch.map .inl ++ piecesFrom x 0 (stretch.reverse ++ c :: before) after := by
        refine ih fun done d rest heq => ?_
        have hplace := h (c :: done) d rest (by rw [heq]; rfl)
        rwa [List.reverse_cons, List.append_assoc] at hplace
      rw [List.cons_append, pieces_miss hmiss, hrest, List.map_cons, List.reverse_cons, List.append_assoc]
      rfl

theorem matches_hit {read : List σ} {a : α} (hread : read ≠ [])
    (h : (x ⟨before, read ++ after⟩).head? = some (a, ⟨read.reverse ++ before, after⟩)) :
    matchesFrom x before (read ++ after) = a :: matchesFrom x (read.reverse ++ before) after := by
  rw [matchesFrom, pieces_hit hread h]
  rfl

theorem matches_pass {stretch : List σ}
    (h : ∀ done c rest, stretch = done ++ c :: rest → x ⟨done.reverse ++ before, c :: rest ++ after⟩ = []) :
    matchesFrom x before (stretch ++ after) = matchesFrom x (stretch.reverse ++ before) after := by
  have hnone : (stretch.map (Sum.inl : σ → σ ⊕ α)).filterMap Sum.getRight? = [] := by
    rw [List.filterMap_map]
    exact List.filterMap_eq_nil_iff.mpr fun _ _ => rfl
  rw [matchesFrom, pieces_pass h, List.filterMap_append, hnone]
  rfl

theorem matches_miss (h : x ⟨before, c :: after⟩ = []) :
    matchesFrom x before (c :: after) = matchesFrom x (c :: before) after := by
  rw [matchesFrom, pieces_miss h]
  rfl

/-- The first match is behind a stretch without one. -/
theorem search_pass {stretch : List σ} {a : α} {q : Place σ}
    (hpass : ∀ done c rest, stretch = done ++ c :: rest → x ⟨done.reverse ++ before, c :: rest ++ after⟩ = [])
    (hmatch : (x ⟨stretch.reverse ++ before, after⟩).head? = some (a, q)) :
    search x before (stretch ++ after) = some (before.reverse ++ stretch, a) := by
  induction stretch generalizing before with
  | nil =>
      rw [List.append_nil]
      cases after <;> simp only [List.reverse_nil, List.nil_append] at hmatch ⊢ <;> simp [search, hmatch]
  | cons c stretch ih =>
      have hmiss : x ⟨before, c :: (stretch ++ after)⟩ = [] := hpass [] c stretch rfl
      have hrest : search x (c :: before) (stretch ++ after) = some ((c :: before).reverse ++ stretch, a) := by
        refine ih (fun done d rest heq => ?_) ?_
        · have hplace := hpass (c :: done) d rest (by rw [heq]; rfl)
          rwa [List.reverse_cons, List.append_assoc] at hplace
        · rwa [List.reverse_cons, List.append_assoc] at hmatch
      rw [List.cons_append, search, hmiss]
      simpa using hrest

/-- There is no match in a text where none is anywhere. -/
theorem search_none {text : List σ} (h : ∀ before after, x ⟨before, after⟩ = [] ∨ ¬ after <:+ text) (before : List σ) :
    search x before text = none := by
  induction text generalizing before with
  | nil =>
      have hmiss := (h before []).resolve_right (not_not.mpr (List.suffix_refl []))
      simp [search, hmiss]
  | cons c text ih =>
      have hmiss := (h before (c :: text)).resolve_right (not_not.mpr (List.suffix_refl _))
      simp only [search, hmiss, List.head?_nil]
      exact ih (fun before after => (h before after).imp_right fun hno hsuffix => hno (hsuffix.trans (List.suffix_cons c text))) _

end Pattern

end Pokyh.Lib

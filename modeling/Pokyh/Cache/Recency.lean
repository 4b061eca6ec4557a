import Pokyh.Cache.SessionMemo

/-!
# Cache — Recency

Which answers of the session memo are recent.

* `Memo.Sound`: the invariant.  A load that a key may still be kept from began after the key was last kept or forgotten.
* `Memo.Sound.perform`, `Memo.Sound.fine`: careful calls keep it, and in it every answer is fine.
* `answers_fine`: **every answer is fine in every run whose calls are careful**.
* `kept_over`: a load under way keeps its older value over a newer one.
-/

namespace Pokyh.Cache.SessionMemo
open Pokyh.Lib
variable {S K V : Type} [DecidableEq S] [DecidableEq K]

namespace Memo

/-! ### The invariant -/

structure Sound (m : Memo S K V) : Prop where
  bound : ∀ {s e}, m.sessions.lookup s = some e → e < m.made
  apart : ∀ {s s' e}, m.sessions.lookup s = some e → m.sessions.lookup s' = some e → s = s'
  past : ∀ {n l}, m.loads n = some l → n < m.begun
  own : ∀ {e k n}, (m.entries e).loading k = some n → ∃ l, m.loads n = some l ∧ l.entry = e ∧ l.key = k
  kept : ∀ {s e k kept n}, m.sessions.lookup s = some e → (m.entries e).kept k = some kept → kept.load = some n → m.changed (s, k) ≤ n
  loading : ∀ {s e k n}, m.sessions.lookup s = some e → (m.entries e).loading k = some n → m.changed (s, k) ≤ n
  running : ∀ {n l}, m.loads n = some l → l.stage = .running → m.Shares n l ∨ n < m.forgotten (l.session, l.key)
  changed : ∀ p, m.changed p ≤ m.begun

theorem sound_empty : (empty : Memo S K V).Sound where
  bound h := by simp [empty] at h
  apart h := by simp [empty] at h
  past h := by simp [empty] at h
  own h := by simp [empty] at h
  kept h := by simp [empty] at h
  loading h := by simp [empty] at h
  running h := by simp [empty] at h
  changed _ := Nat.le_refl 0

variable {m : Memo S K V} {o : Options}

/-! ### Entries -/

theorem lookup_evicted {s : S} {e : ℕ} {t : Time} (h : (m.evicted o t).lookup s = some e) : m.sessions.lookup s = some e := by
  rw [evicted] at h
  split at h
  · exact (Table.lookup_keep.mp h).1
  · exact h

/-- Sessions may be dropped that no running load is to be kept for. -/
theorem Sound.evict (hm : m.Sound) {t : Time} (hholds : m.Holds o t) : (m.evict o t).Sound where
  bound h := hm.bound (lookup_evicted h)
  apart h h' := hm.apart (lookup_evicted h) (lookup_evicted h')
  past := hm.past
  own := hm.own
  kept h := hm.kept (lookup_evicted h)
  loading h := hm.loading (lookup_evicted h)
  running {n l} hl hrunning := by
    refine (hm.running hl hrunning).imp (fun hshares => ⟨?_, hshares.2⟩) id
    exact hholds n (hm.past hl) l hl hrunning hshares
  changed := hm.changed

/-- Changes to an entry that leave what it loads and keep only what has not changed since. -/
theorem Sound.setEntry (hm : m.Sound) {e : ℕ} {f : Entry K V → Entry K V} (hloading : (f (m.entries e)).loading = (m.entries e).loading)
    (hkept : ∀ s k kept n, m.sessions.lookup s = some e → (f (m.entries e)).kept k = some kept → kept.load = some n → m.changed (s, k) ≤ n) :
    (m.setEntry e f).Sound := by
  have hall : ∀ e', ((m.setEntry e f).entries e').loading = (m.entries e').loading := by
    intro e'
    by_cases he : e' = e
    · subst he
      simpa [Memo.setEntry] using hloading
    · simp [Memo.setEntry, Function.update_of_ne he]
  exact {
    bound := hm.bound
    apart := hm.apart
    past := hm.past
    own := fun {e' k n} h => hm.own (hall e' ▸ h)
    kept := by
      intro s e' k kept n hlookup h hload
      by_cases he : e' = e
      · subst he
        exact hkept s k kept n hlookup (by simpa [Memo.setEntry] using h) hload
      · exact hm.kept hlookup (by simpa [Memo.setEntry, Function.update_of_ne he] using h) hload
    loading := fun {s e' k n} hlookup h => hm.loading hlookup (hall e' ▸ h)
    running := fun {n l} hl hrunning => (hm.running hl hrunning).imp (fun hshares => ⟨hshares.1, (congrFun (hall l.entry) l.key).trans hshares.2⟩) id
    changed := hm.changed }

/-- What is kept under a key was found by no load that began before it changed. -/
theorem Sound.setKept (hm : m.Sound) {e : ℕ} {k : K} {kept : Option (Kept V)}
    (hkept : ∀ s, m.sessions.lookup s = some e → ∀ found ∈ kept, ∀ n ∈ found.load, m.changed (s, k) ≤ n) : (m.setKept e k kept).Sound := by
  unfold Memo.setKept
  refine hm.setEntry rfl fun s k' found n hlookup hfound hload => ?_
  change Function.update (m.entries e).kept k kept k' = some found at hfound
  by_cases hk : k' = k
  · subst hk
    rw [Function.update_self] at hfound
    exact hkept s hlookup found hfound n hload
  · rw [Function.update_of_ne hk] at hfound
    exact hm.kept hlookup hfound hload

theorem Sound.touch (hm : m.Sound) (e : ℕ) (t : Time) : (m.touch e t).Sound :=
  hm.setEntry rfl fun _ _ _ _ hlookup => hm.kept hlookup

theorem Sound.create (hm : m.Sound) {s : S} (hs : m.sessions.lookup s = none) (t : Time) : (m.create s t).Sound := by
  have hlookup : ∀ {s' e}, (m.create s t).sessions.lookup s' = some e → s' = s ∧ e = m.made ∨ m.sessions.lookup s' = some e ∧ e ≠ m.made := by
    intro s' e h
    rw [Memo.create, Table.lookup_insert_of] at h
    split at h
    · rename_i heq
      exact .inl ⟨heq, (Option.some.inj h).symm⟩
    · exact .inr ⟨h, (hm.bound h).ne⟩
  have hnew : ∀ k, ((m.create s t).entries m.made).kept k = none ∧ ((m.create s t).entries m.made).loading k = none := by
    intro k
    simp [Memo.create]
  have hold : ∀ {e}, e ≠ m.made → (m.create s t).entries e = m.entries e := fun he => Function.update_of_ne he _ _
  exact {
    bound := by
      intro s' e h
      rcases hlookup h with ⟨-, rfl⟩ | ⟨h, -⟩
      · exact Nat.lt_succ_self _
      · exact Nat.lt_succ_of_lt (hm.bound h)
    apart := by
      intro s₁ s₂ e h₁ h₂
      rcases hlookup h₁ with ⟨rfl, he⟩ | ⟨h₁, he⟩
      · rcases hlookup h₂ with ⟨rfl, -⟩ | ⟨-, hne⟩
        · rfl
        · exact absurd he hne
      · rcases hlookup h₂ with ⟨-, heq⟩ | ⟨h₂, -⟩
        · exact absurd heq he
        · exact hm.apart h₁ h₂
    past := hm.past
    own := by
      intro e k n h
      by_cases he : e = m.made
      · subst he
        rw [(hnew k).2] at h
        cases h
      · rw [hold he] at h
        exact hm.own h
    kept := by
      intro s' e k kept n h hkept hload
      rcases hlookup h with ⟨-, rfl⟩ | ⟨h, he⟩
      · rw [(hnew k).1] at hkept
        cases hkept
      · rw [hold he] at hkept
        exact hm.kept h hkept hload
    loading := by
      intro s' e k n h hloading
      rcases hlookup h with ⟨-, rfl⟩ | ⟨h, he⟩
      · rw [(hnew k).2] at hloading
        cases hloading
      · rw [hold he] at hloading
        exact hm.loading h hloading
    running := by
      intro n l hl hrunning
      refine (hm.running hl hrunning).imp (fun hshares => ?_) id
      have hne : l.session ≠ s := by
        rintro rfl
        exact absurd (hs.symm.trans hshares.1) (by simp)
      have he : l.entry ≠ m.made := (hm.bound hshares.1).ne
      refine ⟨?_, by rw [hold he]; exact hshares.2⟩
      rw [Memo.create, Table.lookup_insert_of, if_neg hne]
      exact hshares.1
    changed := hm.changed }

theorem Sound.entry (hm : m.Sound) {s : S} {t : Time} (hholds : m.Holds o t) : (m.entry o s t).1.Sound := by
  unfold Memo.entry
  split
  · exact (hm.evict hholds).touch _ _
  · exact (hm.evict hholds).create (by assumption) t

/-- What entering an entry leaves as it is, and the entry in hand: the one that was there, or a new one. -/
structure Entered (m m' : Memo S K V) (s : S) (e : ℕ) : Prop where
  loads : m'.loads = m.loads
  begun : m'.begun = m.begun
  changed : m'.changed = m.changed
  forgotten : m'.forgotten = m.forgotten
  here : m'.sessions.lookup s = some e
  kept : ∀ {k kept}, (m'.entries e).kept k = some kept → m.sessions.lookup s = some e ∧ (m.entries e).kept k = some kept
  loading : ∀ {k n}, (m'.entries e).loading k = some n → m.sessions.lookup s = some e ∧ (m.entries e).loading k = some n

theorem entered (m : Memo S K V) (o : Options) (s : S) (t : Time) : Entered m (m.entry o s t).1 s (m.entry o s t).2 := by
  unfold Memo.entry
  split
  · rename_i e he
    refine ⟨rfl, rfl, rfl, rfl, he, fun h => ⟨lookup_evicted he, ?_⟩, fun h => ⟨lookup_evicted he, ?_⟩⟩
    · simpa [touch, setEntry, evict] using h
    · simpa [touch, setEntry, evict] using h
  · refine ⟨rfl, rfl, rfl, rfl, AList.lookup_insert _, fun h => ?_, fun h => ?_⟩
    · simp [create, evict] at h
    · simp [create, evict] at h

/-! ### Calls -/

theorem Sound.fresh (hm : m.Sound) (e : ℕ) (k : K) (now : Time) : (m.fresh e k now).1.Sound := by
  unfold Memo.fresh
  split
  · split
    · exact hm
    · exact hm.setKept fun _ _ found hfound => absurd hfound (by simp)
  · exact hm

/-- What is fresh was kept, and is not up. -/
theorem fresh_some {e : ℕ} {k : K} {now : Time} {kept : Kept V} (h : (m.fresh e k now).2 = some kept) :
    (m.entries e).kept k = some kept ∧ now < kept.ends := by
  unfold Memo.fresh at h
  split at h
  · rename_i found hfound
    split at h
    · rename_i hnow
      obtain rfl := Option.some.inj h
      exact ⟨hfound, hnow⟩
    · cases h
  · cases h

/-- Looking for what is fresh may drop what is up. -/
theorem fresh_frame (e : ℕ) (k : K) (now : Time) : (m.fresh e k now).1.loads = m.loads ∧ (m.fresh e k now).1.begun = m.begun ∧
    (m.fresh e k now).1.changed = m.changed ∧ (m.fresh e k now).1.forgotten = m.forgotten ∧
    (m.fresh e k now).1.sessions = m.sessions ∧ ((m.fresh e k now).1.entries e).loading = (m.entries e).loading := by
  unfold Memo.fresh
  split
  · split
    · exact ⟨rfl, rfl, rfl, rfl, rfl, rfl⟩
    · exact ⟨rfl, rfl, rfl, rfl, rfl, by simp [setKept, setEntry]⟩
  · exact ⟨rfl, rfl, rfl, rfl, rfl, rfl⟩

/-- A key whose load is not under way and which is kept from none may be changed. -/
theorem Sound.change (hm : m.Sound) {s : S} {k : K} (hsettled : m.Settled s k) (hunloaded : m.Unloaded s k) : (m.change s k).Sound where
  bound := hm.bound
  apart := hm.apart
  past := hm.past
  own := hm.own
  kept := by
    intro s' e k' kept n hlookup hkept hload
    by_cases hp : (s', k') = (s, k)
    · obtain ⟨rfl, rfl⟩ := Prod.mk.inj hp
      exact absurd (hunloaded e hlookup kept hkept) (by simp [hload])
    · simp only [Memo.change, Function.update_of_ne hp]
      exact hm.kept hlookup hkept hload
  loading := by
    intro s' e k' n hlookup hloading
    by_cases hp : (s', k') = (s, k)
    · obtain ⟨rfl, rfl⟩ := Prod.mk.inj hp
      exact absurd ((hsettled e hlookup).symm.trans hloading) (by simp)
    · simp only [Memo.change, Function.update_of_ne hp]
      exact hm.loading hlookup hloading
  running := hm.running
  changed := by
    intro p
    by_cases hp : p = (s, k)
    · subst hp
      simp [Memo.change]
    · simp only [Memo.change, Function.update_of_ne hp]
      exact hm.changed p

/-- A load begins where none is under way. -/
theorem Sound.begin (hm : m.Sound) {s : S} {k : K} {e : ℕ} (he : m.sessions.lookup s = some e) (hnone : (m.entries e).loading k = none) :
    (m.begin s k e).Sound := by
  have hentry : ∀ e' k', ((m.begin s k e).entries e').loading k' = if e' = e ∧ k' = k then some m.begun else (m.entries e').loading k' := by
    intro e' k'
    by_cases he' : e' = e
    · subst he'
      by_cases hk : k' = k
      · subst hk
        simp [Memo.begin, Memo.setLoading, Memo.setEntry]
      · simp [Memo.begin, Memo.setLoading, Memo.setEntry, hk]
    · simp [Memo.begin, Memo.setLoading, Memo.setEntry, he']
  have hkept : ∀ e', ((m.begin s k e).entries e').kept = (m.entries e').kept := by
    intro e'
    by_cases he' : e' = e
    · subst he'
      simp [Memo.begin, Memo.setLoading, Memo.setEntry]
    · simp [Memo.begin, Memo.setLoading, Memo.setEntry, he']
  have hloads : ∀ {n l}, m.loads n = some l → (m.begin s k e).loads n = some l := by
    intro n l hl
    have hne : n ≠ m.begun := (hm.past hl).ne
    simp only [Memo.begin, Function.update_of_ne hne]
    exact hl
  have hnew : (m.begin s k e).loads m.begun = some ⟨s, k, e, .running⟩ := Function.update_self _ _ _
  exact {
    bound := hm.bound
    apart := hm.apart
    past := by
      intro n l hl
      by_cases hn : n = m.begun
      · exact hn ▸ Nat.lt_succ_self _
      · simp only [Memo.begin, Function.update_of_ne hn] at hl
        exact Nat.lt_succ_of_lt (hm.past hl)
    own := by
      intro e' k' n h
      rw [hentry] at h
      split at h
      · rename_i hhere
        obtain rfl := Option.some.inj h
        exact ⟨_, hnew, hhere.1.symm, hhere.2.symm⟩
      · obtain ⟨l, hl, hown⟩ := hm.own h
        exact ⟨l, hloads hl, hown⟩
    kept := fun hlookup h => hm.kept hlookup (hkept _ ▸ h)
    loading := by
      intro s' e' k' n hlookup h
      rw [hentry] at h
      split at h
      · rw [← Option.some.inj h]
        exact hm.changed _
      · exact hm.loading hlookup h
    running := by
      intro n l hl hrunning
      by_cases hn : n = m.begun
      · subst hn
        obtain rfl := Option.some.inj (hnew.symm.trans hl)
        exact .inl ⟨he, by rw [hentry, if_pos ⟨rfl, rfl⟩]⟩
      · simp only [Memo.begin, Function.update_of_ne hn] at hl
        refine (hm.running hl hrunning).imp (fun hshares => ⟨hshares.1, ?_⟩) id
        rw [hentry, if_neg]
        · exact hshares.2
        · rintro ⟨he', hk⟩
          have hloading := hshares.2
          rw [he', hk, hnone] at hloading
          cases hloading
    changed := fun p => Nat.le_succ_of_le (hm.changed p) }

theorem Sound.setStage (hm : m.Sound) {n : ℕ} {l : Load S K} (hl : m.loads n = some l) {stage : Stage} (hstage : stage ≠ .running) :
    (m.setStage n l stage).Sound := by
  have hloads : ∀ {i l'}, (m.setStage n l stage).loads i = some l' → i = n ∧ l' = { l with stage := stage } ∨ i ≠ n ∧ m.loads i = some l' := by
    intro i l' h
    by_cases hi : i = n
    · subst hi
      simp only [Memo.setStage, Function.update_self] at h
      exact .inl ⟨rfl, (Option.some.inj h).symm⟩
    · simp only [Memo.setStage, Function.update_of_ne hi] at h
      exact .inr ⟨hi, h⟩
  exact {
    bound := hm.bound
    apart := hm.apart
    past := by
      intro i l' h
      rcases hloads h with ⟨rfl, -⟩ | ⟨-, h⟩
      · exact hm.past hl
      · exact hm.past h
    own := by
      intro e k i h
      obtain ⟨l', hl', hown⟩ := hm.own h
      by_cases hi : i = n
      · subst hi
        obtain rfl := Option.some.inj (hl.symm.trans hl')
        exact ⟨_, Function.update_self _ _ _, hown⟩
      · exact ⟨l', (Function.update_of_ne hi _ _).trans hl', hown⟩
    kept := hm.kept
    loading := hm.loading
    running := by
      intro i l' h hrunning
      rcases hloads h with ⟨-, rfl⟩ | ⟨-, h⟩
      · exact absurd hrunning hstage
      · exact hm.running h hrunning
    changed := hm.changed }

/-- A load that is not running leaves the key. -/
theorem Sound.clear (hm : m.Sound) {n : ℕ} {l : Load S K} (hl : m.loads n = some l) (hstage : l.stage ≠ .running)
    (hloading : (m.entries l.entry).loading l.key = some n) : (m.setLoading l.entry l.key none).Sound := by
  have hentry : ∀ {e k i}, ((m.setLoading l.entry l.key none).entries e).loading k = some i → (m.entries e).loading k = some i := by
    intro e k i h
    by_cases he : e = l.entry
    · subst he
      by_cases hk : k = l.key
      · subst hk
        simp [Memo.setLoading, Memo.setEntry] at h
      · simpa [Memo.setLoading, Memo.setEntry, hk] using h
    · simpa [Memo.setLoading, Memo.setEntry, he] using h
  have hkept : ∀ e, ((m.setLoading l.entry l.key none).entries e).kept = (m.entries e).kept := by
    intro e
    by_cases he : e = l.entry
    · subst he
      simp [Memo.setLoading, Memo.setEntry]
    · simp [Memo.setLoading, Memo.setEntry, he]
  exact {
    bound := hm.bound
    apart := hm.apart
    past := hm.past
    own := fun h => hm.own (hentry h)
    kept := fun hlookup h => hm.kept hlookup (hkept _ ▸ h)
    loading := fun hlookup h => hm.loading hlookup (hentry h)
    running := by
      intro i l' hl' hrunning
      refine (hm.running hl' hrunning).imp (fun hshares => ⟨hshares.1, ?_⟩) id
      have hne : i ≠ n := by
        rintro rfl
        obtain rfl := Option.some.inj (hl.symm.trans hl')
        exact hstage hrunning
      by_cases he : l'.entry = l.entry
      · have hk : l'.key ≠ l.key := by
          intro hk
          have heq := hshares.2
          rw [he, hk, hloading] at heq
          exact hne (Option.some.inj heq).symm
        have hold := hshares.2
        rw [he] at hold ⊢
        simpa [Memo.setLoading, Memo.setEntry, hk] using hold
      · simpa [Memo.setLoading, Memo.setEntry, he] using hshares.2
    changed := hm.changed }

/-- The key is without a value and without a load. -/
theorem Sound.forget (hm : m.Sound) (s : S) (k : K) : (m.forget s k).Sound := by
  have hsessions : (m.forget s k).sessions = m.sessions := by
    unfold Memo.forget
    cases m.sessions.lookup s <;> rfl
  have hloads : (m.forget s k).loads = m.loads ∧ (m.forget s k).begun = m.begun ∧ (m.forget s k).made = m.made := by
    unfold Memo.forget
    cases m.sessions.lookup s <;> exact ⟨rfl, rfl, rfl⟩
  have hnoted : (m.forget s k).changed = Function.update m.changed (s, k) m.begun ∧
      (m.forget s k).forgotten = Function.update m.forgotten (s, k) m.begun := by
    unfold Memo.forget
    cases m.sessions.lookup s <;> exact ⟨rfl, rfl⟩
  have hentry : ∀ e k', ((m.forget s k).entries e).kept k' = (if m.sessions.lookup s = some e ∧ k' = k then none else (m.entries e).kept k') ∧
      ((m.forget s k).entries e).loading k' = if m.sessions.lookup s = some e ∧ k' = k then none else (m.entries e).loading k' := by
    intro e k'
    unfold Memo.forget
    cases hlookup : m.sessions.lookup s with
    | none => simp [Memo.change]
    | some here =>
        by_cases he : e = here
        · subst he
          by_cases hk : k' = k
          · subst hk
            simp [Memo.change, Memo.setKept, Memo.setLoading, Memo.setEntry]
          · simp [Memo.change, Memo.setKept, Memo.setLoading, Memo.setEntry, hk]
        · simp [Memo.change, Memo.setKept, Memo.setLoading, Memo.setEntry, he, Ne.symm he]
  exact {
    bound := by
      intro s' e h
      rw [hsessions] at h
      rw [hloads.2.2]
      exact hm.bound h
    apart := by
      intro s₁ s₂ e h₁ h₂
      rw [hsessions] at h₁ h₂
      exact hm.apart h₁ h₂
    past := by
      intro n l h
      rw [hloads.1] at h
      rw [hloads.2.1]
      exact hm.past h
    own := by
      intro e k' n h
      rw [(hentry e k').2] at h
      rw [hloads.1]
      split at h
      · cases h
      · exact hm.own h
    kept := by
      intro s' e k' kept n hlookup hkept hload
      rw [hsessions] at hlookup
      rw [(hentry e k').1] at hkept
      split at hkept
      · cases hkept
      · rename_i hother
        have hp : (s', k') ≠ (s, k) := by
          rintro heq
          obtain ⟨rfl, rfl⟩ := Prod.mk.inj heq
          exact hother ⟨hlookup, rfl⟩
        rw [hnoted.1, Function.update_of_ne hp]
        exact hm.kept hlookup hkept hload
    loading := by
      intro s' e k' n hlookup hloading
      rw [hsessions] at hlookup
      rw [(hentry e k').2] at hloading
      split at hloading
      · cases hloading
      · rename_i hother
        have hp : (s', k') ≠ (s, k) := by
          rintro heq
          obtain ⟨rfl, rfl⟩ := Prod.mk.inj heq
          exact hother ⟨hlookup, rfl⟩
        rw [hnoted.1, Function.update_of_ne hp]
        exact hm.loading hlookup hloading
    running := by
      intro n l hl hrunning
      rw [hloads.1] at hl
      rw [hnoted.2]
      by_cases hp : (l.session, l.key) = (s, k)
      · rw [hp, Function.update_self]
        exact .inr (hm.past hl)
      · rw [Function.update_of_ne hp]
        refine (hm.running hl hrunning).imp (fun hshares => ⟨hsessions ▸ hshares.1, ?_⟩) id
        rw [(hentry l.entry l.key).2, if_neg]
        · exact hshares.2
        · rintro ⟨hhere, hk⟩
          exact hp (by rw [hm.apart hshares.1 hhere, hk])
    changed := by
      intro p
      rw [hnoted.1, hloads.2.1]
      by_cases hp : p = (s, k)
      · rw [hp, Function.update_self]
      · rw [Function.update_of_ne hp]
        exact hm.changed p }

theorem Sound.forgetSession (hm : m.Sound) (s : S) : (m.forgetSession s).Sound := by
  have hlookup : ∀ {s' e}, (m.forgetSession s).sessions.lookup s' = some e → s' ≠ s ∧ m.sessions.lookup s' = some e := by
    intro s' e h
    rw [Memo.forgetSession, Table.lookup_erase_of] at h
    split at h
    · cases h
    · rename_i hne
      exact ⟨hne, h⟩
  exact {
    bound := fun h => hm.bound (hlookup h).2
    apart := fun h₁ h₂ => hm.apart (hlookup h₁).2 (hlookup h₂).2
    past := hm.past
    own := hm.own
    kept := by
      intro s' e k kept n h hkept hload
      obtain ⟨hne, h⟩ := hlookup h
      simp only [Memo.forgetSession, if_neg hne]
      exact hm.kept h hkept hload
    loading := by
      intro s' e k n h hloading
      obtain ⟨hne, h⟩ := hlookup h
      simp only [Memo.forgetSession, if_neg hne]
      exact hm.loading h hloading
    running := by
      intro n l hl hrunning
      by_cases hs : l.session = s
      · exact .inr (by simpa [Memo.forgetSession, hs] using hm.past hl)
      · simp only [Memo.forgetSession, if_neg hs]
        refine (hm.running hl hrunning).imp (fun hshares => ⟨?_, hshares.2⟩) id
        rw [Table.lookup_erase_of, if_neg hs]
        exact hshares.1
    changed := by
      intro p
      simp only [Memo.forgetSession]
      split
      · exact Nat.le_refl _
      · exact hm.changed p }

/-- A value that is found is kept under a key that has not changed since its load began. -/
theorem Sound.found (hm : m.Sound) {n : ℕ} {l : Load S K} (hl : m.loads n = some l) (value : V) (ttlMs now : Time) :
    (m.found n l value ttlMs now).Sound := by
  unfold Memo.found
  refine Sound.setStage ?_ ?_ (by simp)
  · split
    · rename_i hkeeps
      refine hm.setKept fun s hlookup found hfound i hi => ?_
      obtain rfl := Option.some.inj hfound
      obtain rfl := Option.some.inj hi
      exact hm.loading hlookup hkeeps.1
    · exact hm
  · split
    · exact hl
    · exact hl

theorem Sound.cleared (hm : m.Sound) {n : ℕ} {l : Load S K} (hl : m.loads n = some l) (hstage : l.stage ≠ .running) : (m.cleared n l).Sound := by
  unfold Memo.cleared
  refine Sound.setStage ?_ ?_ (by simp)
  · split
    · rename_i hloading
      exact hm.clear hl hstage hloading
    · exact hm
  · split
    · exact hl
    · exact hl

/-! ### Steps and runs -/

theorem settled_entry {s : S} {k : K} {t : Time} (h : m.Settled s k) : ((m.entry o s t).1.entries (m.entry o s t).2).loading k = none := by
  cases hloading : ((m.entry o s t).1.entries (m.entry o s t).2).loading k with
  | none => rfl
  | some n =>
      obtain ⟨hlookup, hold⟩ := (entered m o s t).loading hloading
      exact absurd ((h _ hlookup).symm.trans hold) (by simp)

theorem Sound.keep (hm : m.Sound) {s : S} {k : K} {t : Time} (hholds : m.Holds o t) (hsettled : m.Settled s k) (value : V) (ends : Time) :
    (((m.entry o s t).1.setKept (m.entry o s t).2 k (some ⟨value, ends, none⟩)).change s k).Sound := by
  have hhere := (entered m o s t).here
  refine Sound.change ((hm.entry hholds).setKept fun _ _ found hfound => ?_) ?_ ?_
  · obtain rfl := Option.some.inj hfound
    simp
  · intro e he
    obtain rfl := Option.some.inj (hhere.symm.trans he)
    simpa [Memo.setKept, Memo.setEntry] using settled_entry hsettled
  · intro e he kept hkept
    obtain rfl := Option.some.inj (hhere.symm.trans he)
    obtain rfl : _ = kept := by simpa [Memo.setKept, Memo.setEntry] using hkept
    rfl

theorem perform_peek (s : S) (k : K) (t now : Time) : m.perform o (.peek s k t now) =
    some (((m.entry o s t).1.fresh (m.entry o s t).2 k now).1, ((m.entry o s t).1.fresh (m.entry o s t).2 k now).2.elim .nothing .value) := rfl

theorem perform_keep (s : S) (k : K) (value : V) (ttlMs t now : Time) : m.perform o (.keep s k value ttlMs t now) =
    if ttlMs > 0 then some (((m.entry o s t).1.setKept (m.entry o s t).2 k (some ⟨value, now + ttlMs, none⟩)).change s k, .nothing)
    else some (m.change s k, .nothing) := rfl

/-- A call of `get` either answers with what is fresh, or joins the load under way, or begins one. -/
theorem perform_get {s : S} {k : K} {t now : Time} {m' : Memo S K V} {answer : Answer V} (h : m.perform o (.get s k t now) = some (m', answer)) :
    (∃ kept, ((m.entry o s t).1.fresh (m.entry o s t).2 k now).2 = some kept ∧ m' = ((m.entry o s t).1.fresh (m.entry o s t).2 k now).1 ∧
      answer = .value kept) ∨
    (∃ n, ((m.entry o s t).1.entries (m.entry o s t).2).loading k = some n ∧ m' = ((m.entry o s t).1.fresh (m.entry o s t).2 k now).1 ∧
      answer = .joined n) ∨
    ((m.entry o s t).1.entries (m.entry o s t).2).loading k = none ∧
      m' = ((m.entry o s t).1.fresh (m.entry o s t).2 k now).1.begin s k (m.entry o s t).2 ∧ answer = .begun m.begun := by
  have hbegun := (entered m o s t).begun
  generalize hentry : m.entry o s t = r at hbegun ⊢
  obtain ⟨m₁, e⟩ := r
  obtain ⟨-, hbegun', -, -, -, hloading⟩ := fresh_frame (m := m₁) e k now
  generalize hfresh : m₁.fresh e k now = q at hbegun' hloading ⊢
  obtain ⟨m₂, kept⟩ := q
  simp only [perform, hentry, hfresh] at h
  dsimp only at hbegun hbegun' hloading
  cases kept with
  | some kept =>
      obtain ⟨rfl, rfl⟩ := Prod.mk.inj (Option.some.inj h)
      exact .inl ⟨kept, rfl, rfl, rfl⟩
  | none =>
      simp only [hloading] at h
      cases hunder : (m₁.entries e).loading k with
      | some n =>
          rw [hunder] at h
          obtain ⟨rfl, rfl⟩ := Prod.mk.inj (Option.some.inj h)
          exact .inr (.inl ⟨n, rfl, rfl, rfl⟩)
      | none =>
          rw [hunder] at h
          obtain ⟨rfl, rfl⟩ := Prod.mk.inj (Option.some.inj h)
          exact .inr (.inr ⟨rfl, rfl, by rw [hbegun', hbegun]⟩)

theorem Sound.perform (hm : m.Sound) {a : Move S K V} (hcareful : Careful o m a) {m' : Memo S K V} {answer : Answer V}
    (h : m.perform o a = some (m', answer)) : m'.Sound := by
  cases a with
  | peek s k t now =>
      rw [perform_peek] at h
      obtain ⟨rfl, -⟩ := Prod.mk.inj (Option.some.inj h)
      exact (hm.entry hcareful).fresh _ k now
  | keep s k value ttlMs t now =>
      obtain ⟨hsettled, hcareful⟩ := hcareful
      rw [perform_keep] at h
      split at h
      · rename_i hpos
        obtain ⟨rfl, -⟩ := Prod.mk.inj (Option.some.inj h)
        exact hm.keep (by rwa [if_pos hpos] at hcareful) hsettled value _
      · rename_i hpos
        obtain ⟨rfl, -⟩ := Prod.mk.inj (Option.some.inj h)
        exact hm.change hsettled (by rwa [if_neg hpos] at hcareful)
  | get s k t now =>
      have hfresh := (hm.entry hcareful.1 (s := s)).fresh (m.entry o s t).2 k now
      rcases perform_get h with ⟨kept, -, rfl, -⟩ | ⟨n, -, rfl, -⟩ | ⟨hnone, rfl, -⟩
      · exact hfresh
      · exact hfresh
      · obtain ⟨-, -, -, -, hsessions, hloading⟩ := fresh_frame (m := (m.entry o s t).1) (m.entry o s t).2 k now
        exact hfresh.begin (hsessions ▸ (entered m o s t).here) (by rw [hloading]; exact hnone)
  | forget s k =>
      obtain ⟨rfl, -⟩ := Prod.mk.inj (Option.some.inj h)
      exact hm.forget s k
  | forgetSession s =>
      obtain ⟨rfl, -⟩ := Prod.mk.inj (Option.some.inj h)
      exact hm.forgetSession s
  | found n value ttlMs now =>
      simp only [Memo.perform] at h
      split at h
      · rename_i l hl
        split at h
        · obtain ⟨rfl, -⟩ := Prod.mk.inj (Option.some.inj h)
          exact hm.found hl value ttlMs now
        · cases h
      · cases h
  | failed n =>
      simp only [Memo.perform] at h
      split at h
      · rename_i l hl
        split at h
        · obtain ⟨rfl, -⟩ := Prod.mk.inj (Option.some.inj h)
          exact hm.setStage hl (by simp)
        · cases h
      · cases h
  | cleared n =>
      simp only [Memo.perform] at h
      split at h
      · rename_i l hl
        split at h
        · rename_i hstage
          obtain ⟨rfl, -⟩ := Prod.mk.inj (Option.some.inj h)
          exact hm.cleared hl hstage.1
        · cases h
      · cases h

/-- What is fresh is a fine answer. -/
theorem Sound.fine_fresh (hm : m.Sound) {s : S} {k : K} {t now : Time} {kept : Kept V}
    (h : ((m.entry o s t).1.fresh (m.entry o s t).2 k now).2 = some kept) : (Answer.value kept).Fine m s k now := by
  obtain ⟨hkept, hnow⟩ := fresh_some h
  obtain ⟨hlookup, hkept⟩ := (entered m o s t).kept hkept
  exact ⟨hnow, fun n hn => hm.kept hlookup hkept hn⟩

/-- No running load of the key is left that has not been forgotten. -/
theorem Sound.fine_begun (hm : m.Sound) {s : S} {k : K} {t : Time} (now : Time) (hholds : m.Holds o t)
    (hnone : ((m.entry o s t).1.entries (m.entry o s t).2).loading k = none) : (Answer.begun m.begun : Answer V).Fine m s k now := by
  have hframe := entered m o s t
  intro i _ l hl hrunning hsession hkey
  have hl' : (m.entry o s t).1.loads i = some l := by rw [hframe.loads]; exact hl
  rcases (hm.entry hholds).running hl' hrunning with hshares | hforgotten
  · have hentry : l.entry = (m.entry o s t).2 := by
      have hlookup := hshares.1
      rw [hsession, hframe.here] at hlookup
      exact (Option.some.inj hlookup).symm
    have hloading := hshares.2
    rw [hentry, hkey, hnone] at hloading
    cases hloading
  · rwa [hframe.forgotten, hsession, hkey] at hforgotten

/-- **Every answer to a careful call is fine.** -/
theorem Sound.fine (hm : m.Sound) {a : Move S K V} (hcareful : Careful o m a) {m' : Memo S K V} {answer : Answer V}
    (h : m.perform o a = some (m', answer)) : a.Fine m answer := by
  cases a with
  | peek s k t now =>
      rw [perform_peek] at h
      obtain ⟨-, rfl⟩ := Prod.mk.inj (Option.some.inj h)
      cases hfresh : ((m.entry o s t).1.fresh (m.entry o s t).2 k now).2 with
      | none => trivial
      | some kept => exact hm.fine_fresh hfresh
  | get s k t now =>
      rcases perform_get h with ⟨kept, hfresh, -, rfl⟩ | ⟨n, hloading, -, rfl⟩ | ⟨hnone, -, rfl⟩
      · exact hm.fine_fresh hfresh
      · obtain ⟨hlookup, hloading⟩ := (entered m o s t).loading hloading
        exact ⟨hm.loading hlookup hloading, hcareful.2 _ hlookup n hloading⟩
      · exact hm.fine_begun now hcareful.1 hnone
  | keep | forget | forgetSession | found | failed | cleared => trivial

theorem Sound.run {as : List (Move S K V)} (hm : m.Sound) (hcareful : Meets (step o) (Careful o) m as) {m' : Memo S K V}
    (h : run (step o) m as = some m') : m'.Sound := by
  refine run_invariant_of_meets (P := Memo.Sound) (fun m₁ a m₂ hm hcareful hstep => ?_) hm hcareful h
  obtain ⟨⟨m₂, answer⟩, hperform, rfl⟩ := Option.map_eq_some_iff.mp hstep
  exact hm.perform hcareful hperform

end Memo

/-- **No answer brings back something older**: in a run whose calls are careful, what `get` and `peek` answer is not up, is of no load that
began before its key was last kept or forgotten, and begins a second load of its key only when the first was forgotten. -/
theorem answers_fine {o : Options} {as : List (Move S K V)} {a : Move S K V} {m m' : Memo S K V} {answer : Answer V}
    (hcareful : Meets (Memo.step o) (Careful o) Memo.empty (as ++ [a])) (hrun : run (Memo.step o) Memo.empty as = some m)
    (h : m.perform o a = some (m', answer)) : a.Fine m answer :=
  (Memo.sound_empty.run hcareful.left hrun).fine (hcareful.at_split hrun) h

/-- As many sessions, and as long, as the server keeps. -/
def SERVER : Options := ⟨2000, 1800000⟩

/-- A load of the CSRF token is forgotten while it runs. -/
def forgottenWhile : List (Move String String String) := [.get "s1" "csrf" 0 0, .forget "s1" "csrf"]

def afterForgotten : Memo String String String := (run (Memo.step SERVER) Memo.empty forgottenWhile).getD Memo.empty

/-- The next call begins a load of its own. -/
theorem forgotten_begins : (Move.get "s1" "csrf" 1 1 : Move String String String).Fine afterForgotten (.begun 1) := by
  have hcareful : Meets (Memo.step SERVER) (Careful SERVER) Memo.empty (forgottenWhile ++ [.get "s1" "csrf" 1 1]) := by decide
  exact answers_fine (a := .get "s1" "csrf" 1 1) hcareful rfl rfl

/-- The token is kept while it is looked up, and the lookup ends after that. -/
def keptWhile : List (Move String String String) :=
  [.get "s1" "token" 0 0, .keep "s1" "token" "newer" 60000 1 1, .found 0 "older" 60000 2]

/-- The older token is kept over the newer one. -/
theorem kept_over : ¬ ∀ (o : Options) (as : List (Move String String String)) (a : Move String String String)
    (m m' : Memo String String String) (answer : Answer String), run (Memo.step o) Memo.empty as = some m →
    m.perform o a = some (m', answer) → a.Fine m answer := by
  intro hall
  have hanswer := hall SERVER keptWhile (.peek "s1" "token" 3 3) _ _ (.value ⟨"older", 60002, some 0⟩) rfl rfl
  exact absurd (hanswer.2 0 rfl) (by decide)

end Pokyh.Cache.SessionMemo

import Mathlib.Data.List.Perm.Basic
import Mathlib.Data.List.Pairwise
import Pokyh.Lib.Runs

/-!
# Lib — Rows

Tables as lists of rows.  A table's unique keys are given as a relation `clash`: two rows clash when
they share one of them.  `insertIgnore` is `INSERT IGNORE`: a row is left out when it clashes with one
already there or when a row it refers to is missing.

* `insertIgnore_parents`: rows that clash with nothing and miss no parent all go in.
* `filter_marked`, `exists_marked`, `filter_unmarked`: what was added to a table under a mark, and the rest of it.
-/

namespace Pokyh.Lib

variable {α β κ : Type*}

/-- No two rows of the table share a unique key. -/
def Unclashing (clash : α → α → Prop) (t : List α) : Prop :=
  t.Pairwise fun a b => ¬ clash a b

instance (clash : α → α → Prop) [DecidableRel clash] (t : List α) : Decidable (Unclashing clash t) :=
  inferInstanceAs (Decidable (t.Pairwise fun a b => ¬ clash a b))

theorem Unclashing.perm {clash : α → α → Prop} (hsymm : ∀ a b, clash a b → clash b a) {t t' : List α}
    (h : Unclashing clash t) (hp : t.Perm t') : Unclashing clash t' :=
  List.Pairwise.perm h hp fun hab hba => hab (hsymm _ _ hba)

theorem Unclashing.filter {clash : α → α → Prop} {t : List α} (h : Unclashing clash t) (p : α → Bool) :
    Unclashing clash (t.filter p) :=
  List.Pairwise.filter p h

/-- The row with a given key is the only one. -/
theorem Unclashing.eq_of {clash : α → α → Prop} (hsymm : ∀ a b, clash a b → clash b a) {t : List α}
    (h : Unclashing clash t) {a b : α} (ha : a ∈ t) (hb : b ∈ t) (hab : clash a b) : a = b := by
  have : Std.Symm fun a b => ¬ clash a b := ⟨fun _ _ h h' => h (hsymm _ _ h')⟩
  by_contra hne
  exact List.Pairwise.forall h ha hb hne hab

/-- Keys that clash are distinct along the table. -/
theorem Unclashing.nodup_map {clash : α → α → Prop} {t : List α} (h : Unclashing clash t) {f : α → κ}
    (hf : ∀ a b, f a = f b → clash a b) : (t.map f).Nodup := by
  rw [List.Nodup, List.pairwise_map]
  exact List.Pairwise.imp (fun hab heq => hab (hf _ _ heq)) h

/-- No row of the table shares a unique key with the new one. -/
def free (clash : α → α → Prop) [DecidableRel clash] (t : List α) (r : α) : Bool :=
  t.all fun x => !decide (clash x r)

/-- The first row with a property is the first one with a stronger property, if it has that. -/
theorem find?_eq_some_of_imp {p q : α → Bool} {t : List α} {a : α} (h : t.find? p = some a) (ha : q a = true)
    (himp : ∀ b ∈ t, q b = true → p b = true) : t.find? q = some a := by
  obtain ⟨-, before, after, rfl, hno⟩ := List.find?_eq_some_iff_append.mp h
  refine List.find?_eq_some_iff_append.mpr ⟨ha, before, after, rfl, fun b hb => ?_⟩
  have hp : p b = false := by simpa using hno b hb
  cases hq : q b with
  | false => rfl
  | true =>
      have := himp b (List.mem_append_left _ hb) hq
      rw [hp] at this
      cases this

/-- A table is its rows with a property and those without. -/
theorem filter_append_not_perm (P : α → Prop) [DecidablePred P] (t : List α) :
    ((t.filter fun a => P a) ++ t.filter fun a => ¬ P a).Perm t := by
  simpa using List.filter_append_perm (fun a => decide (P a)) t

/-- `INSERT IGNORE`: the rows that fit go in, in turn. -/
def insertIgnore (fits : List α → α → Bool) (t rows : List α) : List α :=
  rows.foldl (fun t r => if fits t r then t ++ [r] else t) t

theorem insertIgnore_eq_append {fits : List α → α → Bool} {t rows : List α}
    (h : ∀ pre r post, rows = pre ++ r :: post → fits (t ++ pre) r = true) :
    insertIgnore fits t rows = t ++ rows := by
  refine foldl_splits (P := fun pre s => s = t ++ pre) (by simp) fun pre r post hrows hpre => ?_
  rw [hpre, if_pos (h pre r post hrows), List.append_assoc]

theorem mem_insertIgnore {fits : List α → α → Bool} {t rows : List α} {r : α}
    (h : r ∈ insertIgnore fits t rows) : r ∈ t ∨ r ∈ rows := by
  refine foldl_splits (P := fun pre s => r ∈ s → r ∈ t ∨ r ∈ pre) .inl (fun pre a post _ hpre ha => ?_) h
  split at ha
  · rcases List.mem_append.mp ha with hs | hs
    · exact (hpre hs).imp_right (List.mem_append_left _)
    · exact .inr (List.mem_append_right _ hs)
  · exact (hpre ha).imp_right (List.mem_append_left _)

/-- A row of a table without clashes finds its keys free behind the rows before it. -/
theorem Unclashing.free_before {clash : α → α → Prop} [DecidableRel clash] {t pre post : List α} {r : α}
    (h : Unclashing clash (t ++ (pre ++ r :: post))) : free clash (t ++ pre) r = true := by
  rw [← List.append_assoc, Unclashing, List.pairwise_append] at h
  refine List.all_eq_true.mpr fun x hx => ?_
  simpa using h.2.2 x hx r List.mem_cons_self

theorem insertIgnore_free {clash : α → α → Prop} [DecidableRel clash] {t rows : List α}
    (h : Unclashing clash (t ++ rows)) : insertIgnore (free clash) t rows = t ++ rows := by
  refine insertIgnore_eq_append fun pre r post hrows => ?_
  subst hrows
  exact h.free_before

/-- **Rows without clashes, whose parents are all there, all go in.** -/
theorem insertIgnore_parents {clash : α → α → Prop} [DecidableRel clash] {parents : α → Bool}
    {t rows : List α} (h : Unclashing clash (t ++ rows)) (hp : ∀ r ∈ rows, parents r = true) :
    insertIgnore (fun t r => free clash t r && parents r) t rows = t ++ rows := by
  refine insertIgnore_eq_append fun pre r post hrows => ?_
  have hr : r ∈ rows := hrows ▸ List.mem_append_right _ List.mem_cons_self
  subst hrows
  rw [h.free_before, hp r hr, Bool.and_self]

/-- A change that touches no unique key brings no clash. -/
theorem Unclashing.append_map {clash : α → α → Prop} {f : α → α} {t rows : List α}
    (h : Unclashing clash (t ++ rows)) (hl : ∀ a b, clash a (f b) → clash a b)
    (hr : ∀ a b, clash (f a) b → clash a b) : Unclashing clash (t ++ rows.map f) := by
  rw [Unclashing, List.pairwise_append] at h ⊢
  refine ⟨h.1, List.pairwise_map.mpr (List.Pairwise.imp (fun hab h' => hab (hl _ _ (hr _ _ h'))) h.2.1),
    fun a ha b hb h' => ?_⟩
  obtain ⟨c, hc, rfl⟩ := List.mem_map.mp hb
  exact h.2.2 a ha c hc (hl a c h')

/-! ### Old rows and new ones, told apart by a column -/

variable [DecidableEq κ]

theorem filter_marked {f : α → β} {mark : β → κ} {k : κ} {old : List β} {rows : List α}
    (hold : ∀ b ∈ old, mark b ≠ k) (hnew : ∀ a, mark (f a) = k) :
    (old ++ rows.map f).filter (fun b => decide (mark b = k)) = rows.map f := by
  have hfst : old.filter (fun b => decide (mark b = k)) = [] :=
    List.filter_eq_nil_iff.mpr fun b hb => by simpa using hold b hb
  rw [List.filter_append, hfst, List.nil_append]
  refine List.filter_eq_self.mpr fun b hb => ?_
  obtain ⟨a, -, rfl⟩ := List.mem_map.mp hb
  simpa using hnew a

theorem exists_marked {f : α → β} {mark : β → κ} {k : κ} {old : List β} {rows : List α} {Q : β → Prop}
    (hold : ∀ b ∈ old, mark b ≠ k) (hnew : ∀ a, mark (f a) = k) :
    (∃ b ∈ old ++ rows.map f, mark b = k ∧ Q b) ↔ ∃ a ∈ rows, Q (f a) := by
  constructor
  · rintro ⟨b, hb, hk, hQ⟩
    have hb : b ∈ rows.map f := by
      rw [← filter_marked hold hnew, List.mem_filter]
      exact ⟨hb, by simpa using hk⟩
    obtain ⟨a, ha, rfl⟩ := List.mem_map.mp hb
    exact ⟨a, ha, hQ⟩
  · rintro ⟨a, ha, hQ⟩
    exact ⟨f a, List.mem_append_right _ (List.mem_map_of_mem ha), hnew a, hQ⟩

theorem filter_unmarked {f : α → β} {mark : β → κ} {k : κ} {old : List β} {rows : List α}
    (hold : ∀ b ∈ old, mark b ≠ k) (hnew : ∀ a, mark (f a) = k) :
    (old ++ rows.map f).filter (fun b => decide (mark b ≠ k)) = old := by
  have hsnd : (rows.map f).filter (fun b => decide (mark b ≠ k)) = [] := by
    refine List.filter_eq_nil_iff.mpr fun b hb => ?_
    obtain ⟨a, -, rfl⟩ := List.mem_map.mp hb
    simpa using hnew a
  rw [List.filter_append, hsnd, List.append_nil]
  exact List.filter_eq_self.mpr fun b hb => by simpa using hold b hb

end Pokyh.Lib

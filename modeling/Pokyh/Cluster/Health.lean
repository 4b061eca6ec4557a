import Mathlib.Data.List.Induction
import Mathlib.Data.List.Perm.Basic
import Mathlib.Data.String.Basic
import Mathlib.Order.MinMax

/-!
# Cluster — Health

Failure detection and work ownership (`health.ts`): a peer's state from the heartbeats it has missed in
a row, and the owner of a piece of work among the nodes that can be reached.

* `rendezvousOwner_eq_some`: the owner is the node that beats the others, so it is a member, and the
  order of the list does not matter (`rendezvousOwner_perm`).
-/

namespace Pokyh.Cluster

inductive Health where
  | unknown | online | suspect | offline
  deriving DecidableEq, Repr

structure HealthThresholds where
  suspectAfterFailures : ℕ
  offlineAfterFailures : ℕ
  deriving DecidableEq, Repr

def healthAfter (consecutiveFailures : ℕ) (thresholds : HealthThresholds) : Health :=
  if consecutiveFailures ≤ 0 then .online
  else if consecutiveFailures ≥ max thresholds.offlineAfterFailures (thresholds.suspectAfterFailures + 1)
  then .offline
  else if consecutiveFailures ≥ thresholds.suspectAfterFailures then .suspect
  else .online

/-! ### Who owns a piece of work -/

section
variable (rendezvousScore : String → String → ℕ) (key : String)

/-- One node more is looked at: the highest score counts, and the smaller id between equal scores. -/
def rendezvousStep (best : Option (String × ℕ)) (id : String) : Option (String × ℕ) :=
  let score := rendezvousScore key id
  match best with
  | none => some (id, score)
  | some (holder, bestScore) =>
      if score > bestScore ∨ (score = bestScore ∧ id < holder) then some (id, score) else best

def rendezvousOwner (nodeIds : List String) : Option String :=
  (nodeIds.foldl (rendezvousStep rendezvousScore key) none).map Prod.fst

/-- The first of two nodes is preferred. -/
def Beats (a b : String) : Prop :=
  rendezvousScore key b < rendezvousScore key a ∨
    (rendezvousScore key a = rendezvousScore key b ∧ a < b)

end

variable {rendezvousScore : String → String → ℕ} {key : String} {ids ids' : List String}

theorem Beats.trans {a b c : String} (h₁ : Beats rendezvousScore key a b)
    (h₂ : Beats rendezvousScore key b c) : Beats rendezvousScore key a c := by
  rcases h₁ with h₁ | ⟨h₁, hab⟩ <;> rcases h₂ with h₂ | ⟨h₂, hbc⟩
  · exact .inl (h₂.trans h₁)
  · exact .inl (h₂ ▸ h₁)
  · exact .inl (h₁ ▸ h₂)
  · exact .inr ⟨h₁.trans h₂, hab.trans hbc⟩

theorem Beats.asymm {a b : String} (h₁ : Beats rendezvousScore key a b) :
    ¬ Beats rendezvousScore key b a := by
  rintro (h₂ | ⟨h₂, hba⟩) <;> rcases h₁ with h₁ | ⟨h₁, hab⟩
  · exact h₁.not_gt h₂
  · exact h₂.ne h₁
  · exact h₁.ne h₂
  · exact hab.not_gt hba

/-- Of two nodes one beats the other. -/
theorem beats_or (a b : String) :
    a = b ∨ Beats rendezvousScore key a b ∨ Beats rendezvousScore key b a := by
  rcases lt_trichotomy (rendezvousScore key a) (rendezvousScore key b) with h | h | h
  · exact .inr (.inr (.inl h))
  · rcases lt_trichotomy a b with hab | hab | hab
    · exact .inr (.inl (.inr ⟨h, hab⟩))
    · exact .inl hab
    · exact .inr (.inr (.inr ⟨h.symm, hab⟩))
  · exact .inr (.inl (.inl h))

/-- What the loop has found: none of no nodes, else the one that beats those looked at. -/
theorem rendezvous_found (ids : List String) :
    match ids.foldl (rendezvousStep rendezvousScore key) none with
    | none => ids = []
    | some (holder, bestScore) => bestScore = rendezvousScore key holder ∧ holder ∈ ids ∧
        ∀ a ∈ ids, a = holder ∨ Beats rendezvousScore key holder a := by
  induction ids using List.reverseRecOn with
  | nil => rfl
  | append_singleton ids id ih =>
      rw [List.foldl_append, List.foldl_cons, List.foldl_nil]
      cases hf : ids.foldl (rendezvousStep rendezvousScore key) none with
      | none =>
          rw [hf] at ih
          simp [rendezvousStep, ih]
      | some best =>
          obtain ⟨holder, bestScore⟩ := best
          rw [hf] at ih
          obtain ⟨rfl, hmem, hall⟩ := ih
          by_cases h : rendezvousScore key id > rendezvousScore key holder ∨
              (rendezvousScore key id = rendezvousScore key holder ∧ id < holder)
          · have hbeats : Beats rendezvousScore key id holder := h
            simp only [rendezvousStep, if_pos h]
            refine ⟨trivial, by simp, fun a ha => ?_⟩
            rcases List.mem_append.mp ha with ha | ha
            · rcases hall a ha with rfl | hb
              · exact .inr hbeats
              · exact .inr (hbeats.trans hb)
            · exact .inl (List.mem_singleton.mp ha)
          · simp only [rendezvousStep, if_neg h]
            refine ⟨trivial, List.mem_append_left _ hmem, fun a ha => ?_⟩
            rcases List.mem_append.mp ha with ha | ha
            · exact hall a ha
            · rw [List.mem_singleton.mp ha]
              rcases @beats_or rendezvousScore key id holder with heq | hb | hb
              · exact .inl heq
              · exact absurd hb h
              · exact .inr hb

/-- **The owner** is the member that beats the others. -/
theorem rendezvousOwner_eq_some {owner : String} :
    rendezvousOwner rendezvousScore key ids = some owner ↔
      owner ∈ ids ∧ ∀ a ∈ ids, a = owner ∨ Beats rendezvousScore key owner a := by
  have hfound := @rendezvous_found rendezvousScore key ids
  rw [rendezvousOwner]
  cases hf : ids.foldl (rendezvousStep rendezvousScore key) none with
  | none =>
      rw [hf] at hfound
      simp [show ids = [] from hfound]
  | some best =>
      obtain ⟨holder, bestScore⟩ := best
      rw [hf] at hfound
      obtain ⟨-, hmem, hall⟩ := hfound
      simp only [Option.map_some, Option.some.injEq]
      constructor
      · rintro rfl
        exact ⟨hmem, hall⟩
      · rintro ⟨hmem', hall'⟩
        rcases hall owner hmem' with rfl | hb
        · rfl
        · rcases hall' holder hmem with rfl | hb'
          · rfl
          · exact absurd hb' hb.asymm

/-- The order of the nodes does not matter. -/
theorem rendezvousOwner_perm (h : ids.Perm ids') :
    rendezvousOwner rendezvousScore key ids = rendezvousOwner rendezvousScore key ids' := by
  ext owner
  rw [rendezvousOwner_eq_some, rendezvousOwner_eq_some, h.mem_iff]
  simp only [h.mem_iff]

end Pokyh.Cluster

import Mathlib.Algebra.BigOperators.Group.List.Basic
import Mathlib.Algebra.GroupWithZero.Nat

/-!
# Lib — Calls

Computations that make calls and may stop at one that fails, with the calls they made; and lists that are sent in packs of a bounded
weight.

* `Calls.bind_eq_some`: what a computation in two parts returns, and the calls it made for it.
* `Calls.All.bind`: the rule for a property of every call that is made, whether or not the computation returns.
* `pack`: the greedy packing; together the packs are the list (`flatten_pack`), and a pack that is too heavy has one element
  (`weight_pack`).
-/

namespace Pokyh.Lib

/-- The calls made, and the result if all that were needed answered. -/
structure Calls (ι α : Type*) where
  made : List ι
  result : Option α

namespace Calls
universe u v
variable {ι : Type u} {α β : Type v}

def done (a : α) : Calls ι α := ⟨[], some a⟩

/-- A call with its answer. -/
def call (i : ι) (answer : Option α) : Calls ι α := ⟨[i], answer⟩

def andThen (x : Calls ι α) (f : α → Calls ι β) : Calls ι β :=
  match x.result with
  | some a => ⟨x.made ++ (f a).made, (f a).result⟩
  | none => ⟨x.made, none⟩

instance : Monad (Calls ι) where
  pure := done
  bind := andThen

theorem bind_eq_some {x : Calls ι α} {f : α → Calls ι β} {b : β} :
    (x >>= f).result = some b ↔ ∃ a, x.result = some a ∧ (f a).result = some b := by
  change (andThen x f).result = some b ↔ _
  cases hx : x.result with
  | none => simp [andThen, hx]
  | some a => simp [andThen, hx]

theorem made_bind {x : Calls ι α} {f : α → Calls ι β} {a : α} (h : x.result = some a) : (x >>= f).made = x.made ++ (f a).made := by
  change (andThen x f).made = _
  simp only [andThen, h]

theorem made_bind_none {x : Calls ι α} {f : α → Calls ι β} (h : x.result = none) : (x >>= f).made = x.made := by
  change (andThen x f).made = _
  simp only [andThen, h]

/-- A computation in two parts stops in the first, or goes on with its result. -/
theorem bind_cases (x : Calls ι α) (f : α → Calls ι β) :
    x.result = none ∧ (x >>= f).made = x.made ∧ (x >>= f).result = none ∨
      ∃ a, x.result = some a ∧ (x >>= f).made = x.made ++ (f a).made ∧ (x >>= f).result = (f a).result := by
  change _ ∧ (andThen x f).made = _ ∧ (andThen x f).result = _ ∨ ∃ a, _ ∧ (andThen x f).made = _ ∧ (andThen x f).result = _
  cases hx : x.result with
  | none => exact .inl ⟨rfl, by simp only [andThen, hx], by simp only [andThen, hx]⟩
  | some a => exact .inr ⟨a, rfl, by simp only [andThen, hx], by simp only [andThen, hx]⟩

@[simp] theorem result_pure (a : α) : (pure a : Calls ι α).result = some a := rfl

@[simp] theorem made_pure (a : α) : (pure a : Calls ι α).made = [] := rfl

@[simp] theorem result_call (i : ι) (answer : Option α) : (call i answer).result = answer := rfl

@[simp] theorem made_call (i : ι) (answer : Option α) : (call i answer).made = [i] := rfl

/-- Every call that is made has a property. -/
def All (P : ι → Prop) (x : Calls ι α) : Prop := ∀ i ∈ x.made, P i

theorem All.bind {P : ι → Prop} {x : Calls ι α} {f : α → Calls ι β} (hx : x.All P)
    (hf : ∀ a, x.result = some a → (f a).All P) : (x >>= f).All P := by
  intro i hi
  cases hr : x.result with
  | none =>
      rw [made_bind_none hr] at hi
      exact hx i hi
  | some a =>
      rw [made_bind hr, List.mem_append] at hi
      rcases hi with hi | hi
      · exact hx i hi
      · exact hf a hr i hi

theorem All.pure {P : ι → Prop} (a : α) : (pure a : Calls ι α).All P := by simp [All]

theorem All.call {P : ι → Prop} {i : ι} (hi : P i) (answer : Option α) : (call i answer).All P := by simp [All, hi]

end Calls

section Packs
variable {α : Type*} (weight : α → ℕ) (limit : ℕ)

/-- The packs from one that is begun on. -/
def packFrom : List α → ℕ → List α → List (List α)
  | begun, _, [] => [begun]
  | begun, size, a :: rest =>
      if size + weight a ≤ limit then packFrom (begun ++ [a]) (size + weight a) rest
      else begun :: packFrom [a] (weight a) rest

/-- A list in packs: each takes what comes next as long as it is not too heavy, and at least one element. -/
def pack : List α → List (List α)
  | [] => []
  | a :: rest => packFrom weight limit [a] (weight a) rest

variable {weight limit}

theorem flatten_packFrom (begun rest : List α) (size : ℕ) : (packFrom weight limit begun size rest).flatten = begun ++ rest := by
  induction rest generalizing begun size with
  | nil => simp [packFrom]
  | cons a rest ih =>
      rw [packFrom]
      split
      · rw [ih, List.append_assoc, List.singleton_append]
      · rw [List.flatten_cons, ih, List.singleton_append]

theorem flatten_pack (l : List α) : (pack weight limit l).flatten = l := by
  cases l with
  | nil => rfl
  | cons a rest => rw [pack, flatten_packFrom, List.singleton_append]

/-- A pack is not too heavy, or it has one element. -/
def FitPack (weight : α → ℕ) (limit : ℕ) (p : List α) : Prop := (p.map weight).sum ≤ limit ∧ p ≠ [] ∨ p.length = 1

theorem weight_packFrom {begun : List α} (hbegun : FitPack weight limit begun) (rest : List α) :
    ∀ p ∈ packFrom weight limit begun (begun.map weight).sum rest, FitPack weight limit p := by
  induction rest generalizing begun with
  | nil =>
      intro p hp
      rw [packFrom, List.mem_singleton] at hp
      exact hp ▸ hbegun
  | cons a rest ih =>
      intro p hp
      rw [packFrom] at hp
      have hsum : ((begun ++ [a]).map weight).sum = (begun.map weight).sum + weight a := by simp
      split at hp
      · next hle =>
          rw [← hsum] at hp hle
          exact ih (.inl ⟨hle, by simp⟩) p hp
      · rw [List.mem_cons] at hp
        rcases hp with rfl | hp
        · exact hbegun
        · have hone : ([a].map weight).sum = weight a := by simp
          rw [← hone] at hp
          exact ih (.inr rfl) p hp

theorem weight_pack {l p : List α} (hp : p ∈ pack weight limit l) : FitPack weight limit p := by
  cases l with
  | nil => cases hp
  | cons a rest =>
      have hone : ([a].map weight).sum = weight a := by simp
      rw [pack, ← hone] at hp
      exact weight_packFrom (.inr rfl) rest p hp

theorem FitPack.ne_nil {p : List α} (h : FitPack weight limit p) : p ≠ [] := by
  rcases h with h | h
  · exact h.2
  · exact List.ne_nil_of_length_eq_add_one h

end Packs

end Pokyh.Lib

import Mathlib.Data.Prod.Lex
import Mathlib.Data.String.Basic
import Mathlib.Data.Rat.Defs

/-!
# Cluster — Codec

The values a replicated row is made of, and the version of a row: `(version, origin)`, a
microsecond timestamp and the id of the node that wrote it.  `compareVersions` and `isNewer` are
the source's; `RowVersion` is ordered by the same lexicographic order, so that `isNewer` is `<`
(`isNewer_some`).
-/

namespace Pokyh.Cluster

inductive ColumnKind where
  | string | number | bigint | datetime | date | binary | decimal | json
  deriving DecidableEq, Repr

structure CodecColumn where
  name : String
  kind : ColumnKind
  deriving DecidableEq, Repr

/-- A value bound to a statement or read from a column.  A date is its time in milliseconds. -/
inductive Value where
  | null
  | string (text : String)
  | number (value : ℚ)
  | bigint (value : ℤ)
  | date (time : ℤ)
  | binary (bytes : List UInt8)
  deriving DecidableEq, Repr

/-! ### Versions -/

structure RowVersion where
  version : ℕ
  origin : String
  deriving DecidableEq, Repr

/-- `1`, `0` or `-1`: the larger version wins, the origin breaks an exact tie. -/
def compareVersions (a b : RowVersion) : ℤ :=
  if a.version ≠ b.version then
    if a.version > b.version then 1 else -1
  else if a.origin = b.origin then 0
  else if a.origin > b.origin then 1 else -1

/-- `incoming` must replace what is stored; a row never seen locally is always newer. -/
def isNewer (incoming : RowVersion) (stored : Option RowVersion) : Bool :=
  match stored with
  | none => true
  | some stored => compareVersions incoming stored > 0

namespace RowVersion

def key (v : RowVersion) : ℕ ×ₗ String := toLex (v.version, v.origin)

theorem key_injective : Function.Injective key := by
  rintro ⟨v, o⟩ ⟨w, p⟩ h
  obtain ⟨rfl, rfl⟩ := Prod.mk.inj (toLex.injective h)
  rfl

instance : LinearOrder RowVersion := LinearOrder.lift' key key_injective

theorem lt_iff {a b : RowVersion} :
    a < b ↔ a.version < b.version ∨ (a.version = b.version ∧ a.origin < b.origin) :=
  Prod.Lex.lt_iff

theorem le_iff {a b : RowVersion} :
    a ≤ b ↔ a.version < b.version ∨ (a.version = b.version ∧ a.origin ≤ b.origin) :=
  Prod.Lex.le_iff

theorem version_le {a b : RowVersion} (h : a ≤ b) : a.version ≤ b.version := by
  rcases le_iff.mp h with h | ⟨h, -⟩ <;> omega

theorem lt_of_version_lt {a b : RowVersion} (h : a.version < b.version) : a < b :=
  lt_iff.mpr (.inl h)

end RowVersion

theorem compareVersions_pos {a b : RowVersion} : compareVersions a b > 0 ↔ b < a := by
  rw [RowVersion.lt_iff, compareVersions]
  by_cases h : a.version = b.version
  · rw [if_neg (not_not.mpr h)]
    rcases lt_trichotomy a.origin b.origin with g | g | g
    · rw [if_neg g.ne, if_neg g.not_gt]
      exact ⟨fun k => absurd k (by decide), fun k => k.elim (by omega) (fun k => absurd k.2 g.not_gt)⟩
    · rw [if_pos g]
      exact ⟨fun k => absurd k (by decide), fun k => k.elim (by omega) (fun k => absurd k.2 g.not_gt)⟩
    · rw [if_neg g.ne', if_pos g]
      exact ⟨fun _ => .inr ⟨h.symm, g⟩, fun _ => by decide⟩
  · rw [if_pos h]
    rcases Nat.lt_or_gt_of_ne h with g | g
    · rw [if_neg (by omega)]
      exact ⟨fun k => absurd k (by decide), fun k => by omega⟩
    · rw [if_pos g]
      exact ⟨fun _ => .inl g, fun _ => by decide⟩

@[simp] theorem isNewer_none (a : RowVersion) : isNewer a none = true := rfl

theorem isNewer_some {a b : RowVersion} : isNewer a (some b) = true ↔ b < a := by
  simp only [isNewer, decide_eq_true_eq]
  exact compareVersions_pos

theorem isNewer_some_false {a b : RowVersion} : isNewer a (some b) = false ↔ a ≤ b := by
  rw [← not_lt, ← isNewer_some, Bool.not_eq_true]

/-- `isNewer` is the strict order of `Option RowVersion`, with no version below every version. -/
theorem isNewer_iff {a : RowVersion} {b : Option RowVersion} :
    isNewer a b = true ↔ ∀ c, b = some c → c < a := by
  cases b with
  | none => simp
  | some b => simp [isNewer_some]

theorem isNewer_false_iff {a : RowVersion} {b : Option RowVersion} :
    isNewer a b = false ↔ ∃ c, b = some c ∧ a ≤ c := by
  cases b with
  | none => simp
  | some b => simp [isNewer_some_false]

end Pokyh.Cluster

import Mathlib.Data.List.Dedup
import Mathlib.Data.List.Perm.Basic
import Pokyh.Menu.Source

/-!
# Menu — DishNames

When two names mean the same dish (`sameDishName`, `utils/mensaSource.ts`): the shorter one's telling words are nearly all in the
longer one.  Of two names with as many words, the one named first counts as the shorter.
-/

namespace Pokyh.Menu

variable (x : Platform) {a a' b b' : String} {w : List Char} {ws ws' vs vs' : List (List Char)}

/-- The words of a name, without case and accents. -/
def nameWords (name : String) : List (List Char) := pieces ((letters x name).filter (· ≠ '-'))

/-- The words that tell a dish apart, each once. -/
def tellingWords (name : String) : List (List Char) := (dishWords x name).dedup

/-- How many of the words have their like among others. -/
def sharedWords (ws vs : List (List Char)) : ℕ := (ws.filter fun w => vs.any (sameWord w)).length

/-- Three quarters of the words have their like among others. -/
def Nearly (ws vs : List (List Char)) : Prop := 3 * ws.length ≤ 4 * sharedWords ws vs

instance : Decidable (Nearly ws vs) := inferInstanceAs (Decidable (_ ≤ _))

theorem dishWords_eq (name : String) :
    dishWords x name = ((nameWords x name).filter fun w => String.ofList w ∉ FILLERS).map stem := rfl

/-- The test, once it is told which name is the shorter. -/
theorem sameDishName_of_le (h : (tellingWords x a).length ≤ (tellingWords x b).length) : sameDishName x a b =
    (!(tellingWords x a).isEmpty && !(tellingWords x b).isEmpty && decide (Nearly (tellingWords x a) (tellingWords x b))) := by
  simp only [tellingWords] at h
  simp only [sameDishName, if_pos h]
  rfl

theorem sameDishName_of_lt (h : (tellingWords x b).length < (tellingWords x a).length) : sameDishName x a b =
    (!(tellingWords x a).isEmpty && !(tellingWords x b).isEmpty && decide (Nearly (tellingWords x b) (tellingWords x a))) := by
  simp only [tellingWords] at h
  simp only [sameDishName, if_neg (not_le.mpr h)]
  rfl

theorem sameWord_self (w : List Char) : sameWord w w = true := by
  simp [sameWord]

theorem sharedWords_self (ws : List (List Char)) : sharedWords ws ws = ws.length := by
  rw [sharedWords, List.filter_eq_self.mpr]
  intro w hw
  exact List.any_eq_true.mpr ⟨w, hw, sameWord_self w⟩

/-- A name with a telling word means the same dish as itself. -/
theorem sameDishName_self (h : tellingWords x a ≠ []) : sameDishName x a a = true := by
  have hnearly : Nearly (tellingWords x a) (tellingWords x a) := by
    rw [Nearly, sharedWords_self]
    omega
  rw [sameDishName_of_le x le_rfl]
  simp [h, hnearly]

/-! ### What the words' order and number do -/

theorem tellingWords_perm (h : ∀ w, w ∈ nameWords x a ↔ w ∈ nameWords x a') : (tellingWords x a).Perm (tellingWords x a') := by
  refine (List.perm_ext_iff_of_nodup (List.nodup_dedup _) (List.nodup_dedup _)).mpr fun w => ?_
  simp only [List.mem_dedup, dishWords_eq, List.mem_map, List.mem_filter, h]

theorem sharedWords_congr (hw : ws.Perm ws') (hv : vs.Perm vs') : sharedWords ws vs = sharedWords ws' vs' := by
  rw [sharedWords, sharedWords, (hw.filter _).length_eq]
  refine congrArg _ (List.filter_congr fun w _ => ?_)
  rw [Bool.eq_iff_iff, List.any_eq_true, List.any_eq_true]
  exact exists_congr fun v => and_congr_left fun _ => hv.mem_iff

theorem nearly_congr (hw : ws.Perm ws') (hv : vs.Perm vs') : Nearly ws vs ↔ Nearly ws' vs' := by
  rw [Nearly, Nearly, hw.length_eq, sharedWords_congr hw hv]

/-- Only which words a name has counts, in any order and however often. -/
theorem sameDishName_congr (ha : ∀ w, w ∈ nameWords x a ↔ w ∈ nameWords x a') (hb : ∀ w, w ∈ nameWords x b ↔ w ∈ nameWords x b') :
    sameDishName x a b = sameDishName x a' b' := by
  have hpa := tellingWords_perm x ha
  have hpb := tellingWords_perm x hb
  have hea : (tellingWords x a).isEmpty = (tellingWords x a').isEmpty := by
    rw [Bool.eq_iff_iff, List.isEmpty_iff, List.isEmpty_iff, ← List.length_eq_zero_iff, hpa.length_eq, List.length_eq_zero_iff]
  have heb : (tellingWords x b).isEmpty = (tellingWords x b').isEmpty := by
    rw [Bool.eq_iff_iff, List.isEmpty_iff, List.isEmpty_iff, ← List.length_eq_zero_iff, hpb.length_eq, List.length_eq_zero_iff]
  rcases le_or_gt (tellingWords x a).length (tellingWords x b).length with hle | hlt
  · have hle' : (tellingWords x a').length ≤ (tellingWords x b').length := by
      rwa [← hpa.length_eq, ← hpb.length_eq]
    rw [sameDishName_of_le x hle, sameDishName_of_le x hle', hea, heb, decide_eq_decide.mpr (nearly_congr hpa hpb)]
  · have hlt' : (tellingWords x b').length < (tellingWords x a').length := by
      rwa [← hpa.length_eq, ← hpb.length_eq]
    rw [sameDishName_of_lt x hlt, sameDishName_of_lt x hlt', hea, heb, decide_eq_decide.mpr (nearly_congr hpb hpa)]

theorem nameWords_congr (h : x.fold a = x.fold a') : nameWords x a = nameWords x a' := by
  rw [nameWords, nameWords, letters, letters, h]

/-- What is expected of the test, from the names `a` and `b`. -/
structure SameDish (a b : String) : Prop where
  symm : sameDishName x a b = sameDishName x b a
  refl : dishWords x a ≠ [] → sameDishName x a a = true
  words : ∀ a' b', (∀ w, w ∈ nameWords x a' ↔ w ∈ nameWords x a) → (∀ w, w ∈ nameWords x b' ↔ w ∈ nameWords x b) →
    sameDishName x a' b' = sameDishName x a b
  folded : ∀ a' b', x.fold a' = x.fold a → x.fold b' = x.fold b → sameDishName x a' b' = sameDishName x a b

/-- Two names with as many words are told from both sides alike. -/
theorem symm_iff : sameDishName x a b = sameDishName x b a ↔ ((tellingWords x a).length = (tellingWords x b).length →
    (Nearly (tellingWords x a) (tellingWords x b) ↔ Nearly (tellingWords x b) (tellingWords x a))) := by
  rcases lt_trichotomy (tellingWords x a).length (tellingWords x b).length with hlt | heq | hlt
  · rw [sameDishName_of_le x hlt.le, sameDishName_of_lt x hlt, Bool.and_comm (!(tellingWords x a).isEmpty)]
    exact iff_of_true rfl fun heq => absurd heq hlt.ne
  · rw [sameDishName_of_le x heq.le, sameDishName_of_le x heq.ge, Bool.and_comm (!(tellingWords x a).isEmpty)]
    cases ha : tellingWords x a with
    | nil =>
      rw [ha] at heq
      simp [List.length_eq_zero_iff.mp heq.symm]
    | cons w ws =>
      rw [ha] at heq
      have hb : (tellingWords x b).isEmpty = false := List.isEmpty_eq_false_iff.mpr fun hnil => by simp [hnil] at heq
      simp [hb, heq]
  · rw [sameDishName_of_le x hlt.le, sameDishName_of_lt x hlt, Bool.and_comm (!(tellingWords x a).isEmpty)]
    exact iff_of_true rfl fun heq => absurd heq hlt.ne'

/-- Lower case alone, which is all that plain names need. -/
def plainPlatform : Platform := ⟨String.toLower, fun _ => "", fun start text => start.toList.isPrefixOf text.toList⟩

end Pokyh.Menu

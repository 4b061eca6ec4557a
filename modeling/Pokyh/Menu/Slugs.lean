import Mathlib.Data.List.DropRight
import Pokyh.Menu.Reading

/-!
# Menu — Slugs

The two ways to a dish's key: `dishSlug` of `utils/mensaSource.ts`, with which a pull writes it, and `slugifyDishName` of
`utils/dishKey.ts`, with which the ratings were given theirs.

* `trimDashes_replaceOthers`: the key letter by letter.
* `dishSlug_eq_slugifyDishName`: **the two are one function.**
* `reading_dishSlug`: it is the key that the reader of a menu source gives.
-/

namespace Pokyh.Menu.Slugs
open Pokyh.Lib Pokyh.Menu.Reading

/-- `toLowerCase` and `normalize('NFD')`, which both ask the runtime for. -/
structure Unicode where
  toLowerCase : Units → Units
  normalizeNFD : Units → Units

/-- `[\u0300-\u036f]` -/
def isDiacritic (u : UInt16) : Bool := 0x300 ≤ u && u ≤ 0x36F

def withoutDiacritics (us : Units) : Units := us.filter (!isDiacritic ·)

/-- `.replace(/ß/g, 'ss')` -/
def spellOut (us : Units) : Units := us.flatMap fun u => if u = 0xDF then [115, 115] else [u]

/-- `.replace(/[^a-z0-9]+/g, '-')`; inside a run that has its dash already, or not. -/
def replaceOthers : Bool → Units → Units
  | _, [] => []
  | inRun, u :: us =>
    if isSlugUnit u then u :: replaceOthers false us
    else if inRun then replaceOthers true us
    else 45 :: replaceOthers true us

/-- `.replace(/^-+|-+$/g, '')` -/
def trimDashes (us : Units) : Units := (us.dropWhile (· = 45)).rdropWhile (· = 45)

section
variable (x : Unicode)

/-- `fold` of `mensaSource.ts` -/
def fold (s : Units) : Units := trimUnits (withoutDiacritics (x.normalizeNFD (x.toLowerCase s)))

/-- `dishSlug` of `mensaSource.ts` -/
def dishSlug (name : Units) : Units := (trimDashes (replaceOthers false (spellOut (fold x name)))).take 180

/-- `slugifyDishName` of `dishKey.ts` -/
def slugifyDishName (name : Units) : Units :=
  (trimDashes (replaceOthers false (spellOut (withoutDiacritics (x.normalizeNFD (x.toLowerCase name)))))).take 180

end

/-! ### Runs of other characters -/

variable {us vs : Units} {u : UInt16}

theorem isSlugUnit_dash : isSlugUnit 45 = false := by decide

theorem replaceOthers_cons_slug (inRun : Bool) (h : isSlugUnit u = true) (us : Units) :
    replaceOthers inRun (u :: us) = u :: replaceOthers false us := by
  rw [replaceOthers, if_pos h]

theorem replaceOthers_cons_other (h : isSlugUnit u = false) (us : Units) : replaceOthers true (u :: us) = replaceOthers true us := by
  rw [replaceOthers, if_neg (by simp [h]), if_pos rfl]

theorem replaceOthers_cons_first (h : isSlugUnit u = false) (us : Units) : replaceOthers false (u :: us) = 45 :: replaceOthers true us := by
  rw [replaceOthers, if_neg (by simp [h]), if_neg (by simp)]

/-- Inside a run no dash comes first, and outside one it is the only one. -/
theorem dropWhile_replaceOthers (inRun : Bool) (us : Units) :
    (replaceOthers inRun us).dropWhile (· = 45) = replaceOthers true us := by
  induction us generalizing inRun with
  | nil => rfl
  | cons u us ih =>
      cases hslug : isSlugUnit u with
      | true =>
          have hne : u ≠ 45 := by
            rintro rfl
            exact absurd hslug (by decide)
          rw [replaceOthers_cons_slug _ hslug, replaceOthers_cons_slug _ hslug, List.dropWhile_cons_of_neg (by simpa using hne)]
      | false =>
          rw [replaceOthers_cons_other hslug]
          cases inRun with
          | true => rw [replaceOthers_cons_other hslug, ih]
          | false => rw [replaceOthers_cons_first hslug, List.dropWhile_cons_of_pos (by simp), ih]

/-- Other characters in front are one run with what follows. -/
theorem replaceOthers_append_left (h : ∀ u ∈ us, isSlugUnit u = false) (vs : Units) :
    replaceOthers true (us ++ vs) = replaceOthers true vs := by
  induction us with
  | nil => rfl
  | cons u us ih =>
      rw [List.cons_append, replaceOthers_cons_other (h u List.mem_cons_self)]
      exact ih fun v hv => h v (List.mem_cons_of_mem _ hv)

/-- Other characters behind add dashes at most. -/
theorem replaceOthers_append_right (h : ∀ u ∈ vs, isSlugUnit u = false) (inRun : Bool) (us : Units) :
    ∃ dashes : Units, (∀ u ∈ dashes, u = 45) ∧ replaceOthers inRun (us ++ vs) = replaceOthers inRun us ++ dashes := by
  induction us generalizing inRun with
  | nil =>
      induction vs generalizing inRun with
      | nil => exact ⟨[], by simp, by simp⟩
      | cons v vs ih =>
          have hother := h v List.mem_cons_self
          obtain ⟨dashes, hdashes, heq⟩ := ih (fun w hw => h w (List.mem_cons_of_mem _ hw)) true
          rw [List.nil_append] at heq ⊢
          cases inRun with
          | true => exact ⟨dashes, hdashes, by rw [replaceOthers_cons_other hother, heq]⟩
          | false =>
              refine ⟨45 :: dashes, by simpa using hdashes, ?_⟩
              rw [replaceOthers_cons_first hother, heq]
              rfl
  | cons u us ih =>
      cases hslug : isSlugUnit u with
      | true =>
          obtain ⟨dashes, hdashes, heq⟩ := ih false
          refine ⟨dashes, hdashes, ?_⟩
          rw [List.cons_append, replaceOthers_cons_slug _ hslug, replaceOthers_cons_slug _ hslug, heq, List.cons_append]
      | false =>
          obtain ⟨dashes, hdashes, heq⟩ := ih true
          refine ⟨dashes, hdashes, ?_⟩
          cases inRun with
          | true => rw [List.cons_append, replaceOthers_cons_other hslug, replaceOthers_cons_other hslug, heq]
          | false => rw [List.cons_append, replaceOthers_cons_first hslug, replaceOthers_cons_first hslug, heq, List.cons_append]

theorem trimDashes_replaceOthers (us : Units) : trimDashes (replaceOthers false us) = (replaceOthers true us).rdropWhile (· = 45) := by
  rw [trimDashes, dropWhile_replaceOthers]

theorem rdropWhile_dashes {dashes : Units} (h : ∀ u ∈ dashes, u = 45) (us : Units) :
    (us ++ dashes).rdropWhile (· = 45) = us.rdropWhile (· = 45) := by
  have hall : ∀ u ∈ dashes.reverse, decide (u = 45) = true := fun u hu => decide_eq_true (h u (List.mem_reverse.mp hu))
  rw [List.rdropWhile, List.reverse_append, List.dropWhile_append_of_pos hall, List.rdropWhile]

/-- **The key is the same whatever other characters stand around.** -/
theorem trimDashes_around {before behind : Units} (hbefore : ∀ u ∈ before, isSlugUnit u = false)
    (hbehind : ∀ u ∈ behind, isSlugUnit u = false) (us : Units) :
    trimDashes (replaceOthers false (before ++ us ++ behind)) = trimDashes (replaceOthers false us) := by
  obtain ⟨dashes, hdashes, heq⟩ := replaceOthers_append_right hbehind true (before ++ us)
  rw [trimDashes_replaceOthers, trimDashes_replaceOthers, heq, rdropWhile_dashes hdashes, replaceOthers_append_left hbefore]

/-! ### White space -/

theorem spellOut_append (us vs : Units) : spellOut (us ++ vs) = spellOut us ++ spellOut vs := List.flatMap_append

theorem space_other (h : isSpaceUnit u = true) : isSlugUnit u = false ∧ u ≠ 0xDF := by
  have hspace : 9 ≤ u.toNat ∧ u.toNat ≤ 13 ∨ u.toNat ∈ [32, 0xA0, 0x1680, 0x2028, 0x2029, 0x202F, 0x205F, 0x3000, 0xFEFF] ∨
      0x2000 ≤ u.toNat ∧ u.toNat ≤ 0x200A := by
    simpa [isSpaceUnit, UInt16.le_iff_toNat_le, ← UInt16.toNat_inj, or_assoc] using h
  simp only [List.mem_cons, List.not_mem_nil, or_false] at hspace
  constructor
  · have hslug : ¬ (97 ≤ u.toNat ∧ u.toNat ≤ 122 ∨ 48 ≤ u.toNat ∧ u.toNat ≤ 57) := by omega
    simpa [isSlugUnit, UInt16.le_iff_toNat_le, Bool.eq_false_iff] using hslug
  · rintro rfl
    exact absurd hspace (by decide)

/-- White space is spelled as it is. -/
theorem spellOut_space (h : ∀ u ∈ us, isSpaceUnit u = true) : spellOut us = us := by
  induction us with
  | nil => rfl
  | cons u us ih =>
      have hne := (space_other (h u List.mem_cons_self)).2
      rw [spellOut, List.flatMap_cons, if_neg hne]
      exact congrArg (u :: ·) (ih fun v hv => h v (List.mem_cons_of_mem _ hv))

/-- A text is what is left of it between white space. -/
theorem trimUnits_split (us : Units) : ∃ before behind : Units, (∀ u ∈ before, isSpaceUnit u = true) ∧
    (∀ u ∈ behind, isSpaceUnit u = true) ∧ us = before ++ trimUnits us ++ behind := by
  refine ⟨us.takeWhile isSpaceUnit, (us.dropWhile isSpaceUnit).rtakeWhile isSpaceUnit, fun u hu => List.mem_takeWhile_imp hu,
    fun u hu => List.mem_rtakeWhile_imp hu, ?_⟩
  have hright : trimUnits us = (us.dropWhile isSpaceUnit).rdropWhile isSpaceUnit := rfl
  rw [hright, List.append_assoc, List.rdropWhile_append_rtakeWhile, List.takeWhile_append_dropWhile]

/-- **A dish that is pulled gets the key that its ratings have.** -/
theorem dishSlug_eq_slugifyDishName (x : Unicode) (name : Units) : dishSlug x name = slugifyDishName x name := by
  obtain ⟨before, behind, hbefore, hbehind, hsplit⟩ := trimUnits_split (withoutDiacritics (x.normalizeNFD (x.toLowerCase name)))
  have hother : ∀ {us : Units}, (∀ u ∈ us, isSpaceUnit u = true) → ∀ u ∈ us, isSlugUnit u = false :=
    fun h u hu => (space_other (h u hu)).1
  rw [dishSlug, slugifyDishName, fold]
  conv_rhs => rw [hsplit, spellOut_append, spellOut_append, spellOut_space hbefore, spellOut_space hbehind,
    trimDashes_around (hother hbefore) (hother hbehind)]

/-! ### The key that the reader gives -/

/-- Behind a first piece, each with its dash. -/
def behindDashes (pieces : List Units) : Units := pieces.flatMap (45 :: ·)

theorem intercalate_eq (piece : Units) (pieces : List Units) : List.intercalate [45] (piece :: pieces) = piece ++ behindDashes pieces := by
  induction pieces generalizing piece with
  | nil => simp [behindDashes]
  | cons next rest ih =>
      have hfirst : behindDashes (next :: rest) = 45 :: next ++ behindDashes rest := List.flatMap_cons
      rw [List.intercalate_cons_cons, ih, hfirst]
      simp

theorem rdropWhile_cons (u : UInt16) (us : Units) : (u :: us).rdropWhile (· = 45) =
    if u = 45 ∧ us.rdropWhile (· = 45) = [] then [] else u :: us.rdropWhile (· = 45) := by
  induction us using List.reverseRecOn with
  | nil =>
      have hnil : ([u] : Units) = [] ++ [u] := rfl
      by_cases hdash : u = 45
      · rw [hnil, List.rdropWhile_concat_pos _ _ _ (by simpa using hdash)]
        simp [hdash]
      · rw [hnil, List.rdropWhile_concat_neg _ _ _ (by simpa using hdash)]
        simp [hdash]
  | append_singleton us v ih =>
      rw [← List.cons_append]
      by_cases hdash : v = 45
      · rw [List.rdropWhile_concat_pos _ _ _ (by simpa using hdash), List.rdropWhile_concat_pos _ _ _ (by simpa using hdash), ih]
      · rw [List.rdropWhile_concat_neg _ _ _ (by simpa using hdash), List.rdropWhile_concat_neg _ _ _ (by simpa using hdash)]
        simp

/-- Runs replaced by dashes are the pieces between them: inside a run the pieces, behind a letter the first of them at once. -/
theorem replaceOthers_pieces (us : Units) : ∃ first rest, us.splitOnP (!isSlugUnit ·) = first :: rest ∧
    (replaceOthers false us).rdropWhile (· = 45) = first ++ behindDashes (rest.filter (!·.isEmpty)) ∧
    (replaceOthers true us).rdropWhile (· = 45) = List.intercalate [45] ((first :: rest).filter (!·.isEmpty)) := by
  induction us with
  | nil => exact ⟨[], [], rfl, rfl, rfl⟩
  | cons u us ih =>
      obtain ⟨first, rest, hsplit, houtside, hinside⟩ := ih
      cases hslug : isSlugUnit u with
      | true =>
          have hne : u ≠ 45 := by
            rintro rfl
            exact absurd hslug (by decide)
          have hletter : (u :: replaceOthers false us).rdropWhile (· = 45) = (u :: first) ++ behindDashes (rest.filter (!·.isEmpty)) := by
            rw [rdropWhile_cons, if_neg (fun h => hne h.1), houtside, List.cons_append]
          refine ⟨u :: first, rest, ?_, ?_, ?_⟩
          · rw [List.splitOnP_cons_eq_if_modifyHead, hslug, hsplit]
            rfl
          · rw [replaceOthers_cons_slug _ hslug, hletter]
          · rw [replaceOthers_cons_slug _ hslug, hletter, List.filter_cons_of_pos (by rfl), intercalate_eq]
      | false =>
          refine ⟨[], first :: rest, ?_, ?_, ?_⟩
          · rw [List.splitOnP_cons_eq_if_modifyHead, hslug, hsplit]
            rfl
          · rw [replaceOthers_cons_first hslug, rdropWhile_cons, hinside, List.nil_append]
            cases hpieces : (first :: rest).filter (!·.isEmpty) with
            | nil => simp [behindDashes]
            | cons piece pieces =>
                have hne : piece ≠ [] := by
                  have hmem : piece ∈ (first :: rest).filter (!·.isEmpty) := hpieces ▸ List.mem_cons_self
                  simpa using (List.mem_filter.mp hmem).2
                rw [intercalate_eq, if_neg (by simp [hne])]
                rfl
          · rw [replaceOthers_cons_other hslug, hinside]
            rfl

/-- **The key of a dish that is read from a source.** -/
theorem reading_dishSlug (x : Unicode) (runtime : Runtime) (hfold : runtime.fold = fold x) (name : Units) :
    Reading.dishSlug runtime name = dishSlug x name := by
  obtain ⟨first, rest, hsplit, -, hpieces⟩ := replaceOthers_pieces (spellOut (fold x name))
  rw [dishSlug, trimDashes_replaceOthers, hpieces, ← hsplit, Reading.dishSlug, hfold]
  rfl

end Pokyh.Menu.Slugs

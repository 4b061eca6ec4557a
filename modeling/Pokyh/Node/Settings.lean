import Mathlib.Data.Option.Basic
import Pokyh.Lib.Texts

/-!
# Node — Settings

The settings of the stack in `compose.env`, a file of lines `KEY=value` (`readEnvFile`, `updateEnvText` and `swapProfile` of
`deploy/node/updater.mjs`).

* `readEnvFile_update`, `readEnvFile_update_ne`: **a setting that is changed is read back, and every other stays as it is.**
* `items_swapProfile`: the list of profiles afterwards names the one colour and not the other, and all else it did.
-/

namespace Pokyh.Node
open Pokyh.Lib

abbrev Text := List Char

/-- What `.` does not match. -/
def isLineEnd (c : Char) : Bool := c ∈ ['\n', '\r', '\u2028', '\u2029']

def isUpper (c : Char) : Bool := 'A' ≤ c && c ≤ 'Z'

/-- `[A-Z][A-Z0-9_]*` -/
def validKey : Text → Bool
  | [] => false
  | c :: rest => isUpper c && rest.all fun c => isUpper c || c.isDigit || c = '_'

/-- The key of a line, if it is a setting. -/
def settingKey (line : Text) : Option Text :=
  let key := line.takeWhile (· ≠ '=')
  if '=' ∈ line ∧ validKey key then some key else none

/-- The value that the line gives the key. -/
def valueIn (key line : Text) : Option Text :=
  let value := line.drop (key.length + 1)
  if settingKey line = some key ∧ value.all (!isLineEnd ·) then some value else none

/-- The value of a key: the last line that sets it counts. -/
def readEnvFile (text key : Text) : Option Text := (text.splitOn '\n').reverse.findSome? (valueIn key)

def written (key value : Text) : Text := key ++ '=' :: value

/-- Sets keys in a `KEY=value` file, keeping everything else as it is. -/
def updateEnvText (text : Text) (changes : List (Text × Text)) : Text :=
  let lines := text.splitOn '\n'
  let out := lines.map fun line =>
    match (settingKey line).bind fun key => changes.lookup key with
    | some value => written ((settingKey line).getD []) value
    | none => line
  let added := (changes.filter fun change => lines.all fun line => settingKey line ≠ some change.1).map fun change =>
    written change.1 change.2
  ['\n'].intercalate (if out.getLast? = some [] then out.dropLast ++ added ++ [[]] else out ++ added)

def swapProfile (profiles previous next : Text) : Text :=
  [','].intercalate (next :: (items ',' profiles).filter fun item => item ≠ previous && item ≠ next)

/-! ### Lines -/

/-- In a list that names each key once, what is found under a key is what stands there. -/
theorem lookup_iff_mem {κ ν : Type*} [BEq κ] [LawfulBEq κ] {list : List (κ × ν)} (h : (list.map Prod.fst).Nodup) {key : κ} {value : ν} :
    list.lookup key = some value ↔ (key, value) ∈ list := by
  induction list with
  | nil => simp
  | cons entry rest ih =>
      rw [List.map_cons, List.nodup_cons] at h
      rw [List.lookup_cons, List.mem_cons]
      by_cases hkey : key = entry.1
      · subst hkey
        simp only [beq_self_eq_true, Option.some.injEq]
        constructor
        · intro heq
          exact .inl (Prod.ext rfl heq.symm)
        · rintro (heq | hmem)
          · exact (congrArg Prod.snd heq).symm
          · exact absurd (List.mem_map_of_mem hmem) h.1
      · simp only [beq_false_of_ne hkey, ih h.2]
        constructor
        · exact .inr
        · rintro (heq | hmem)
          · exact absurd (congrArg Prod.fst heq) hkey
          · exact hmem

variable {key key' value text line : Text}

theorem not_mem_of_validKey (h : validKey key = true) : '=' ∉ key ∧ '\n' ∉ key := by
  have hchars : ∀ c ∈ key, c ≠ '=' ∧ c ≠ '\n' := by
    intro c hc
    have hvalid : (isUpper c || c.isDigit || c = '_') = true := by
      cases key with
      | nil => cases hc
      | cons first rest =>
          simp only [validKey, Bool.and_eq_true, List.all_eq_true] at h
          rcases List.mem_cons.mp hc with rfl | hc
          · rw [h.1]
            rfl
          · exact h.2 c hc
    constructor <;> rintro rfl <;> revert hvalid <;> decide
  exact ⟨fun hmem => (hchars _ hmem).1 rfl, fun hmem => (hchars _ hmem).2 rfl⟩

theorem settingKey_written (h : validKey key = true) (value : Text) : settingKey (written key value) = some key := by
  have htake : (key ++ '=' :: value).takeWhile (· ≠ '=') = key := by
    rw [List.takeWhile_append_of_pos]
    · simp
    · intro c hc
      simpa using fun heq : c = '=' => (not_mem_of_validKey h).1 (heq ▸ hc)
  simp only [settingKey, written, htake]
  simp [h]

theorem valueIn_written (h : validKey key = true) (hvalue : value.all (!isLineEnd ·) = true) :
    valueIn key (written key value) = some value := by
  have hdrop : (written key value).drop (key.length + 1) = value := by
    simp [written, List.drop_append]
  simp [valueIn, settingKey_written h, hdrop, hvalue]

theorem valueIn_of_ne (h : settingKey line ≠ some key) : valueIn key line = none := by
  simp [valueIn, h]

theorem valueIn_line_end (h : valueIn key line = some value) : value.all (!isLineEnd ·) = true := by
  simp only [valueIn, Option.ite_none_right_eq_some, Option.some.injEq] at h
  obtain ⟨⟨-, hall⟩, rfl⟩ := h
  exact hall

theorem settingKey_valid (h : settingKey line = some key) : validKey key = true := by
  simp only [settingKey, Option.ite_none_right_eq_some, Option.some.injEq] at h
  obtain ⟨⟨-, hvalid⟩, rfl⟩ := h
  exact hvalid

/-- A value that was read has no line end. -/
theorem readEnvFile_line_end (h : readEnvFile text key = some value) : value.all (!isLineEnd ·) = true := by
  obtain ⟨line, -, hline⟩ := List.exists_of_findSome?_eq_some h
  exact valueIn_line_end hline

/-! ### One setting that is changed -/

/-- The lines of the file afterwards. -/
def updatedLines (lines : List Text) (key value : Text) : List Text :=
  let out := lines.map fun line => if settingKey line = some key then written key value else line
  let added := if lines.all (settingKey · ≠ some key) then [written key value] else []
  if out.getLast? = some [] then out.dropLast ++ added ++ [[]] else out ++ added

theorem updateEnvText_one (text key value : Text) :
    updateEnvText text [(key, value)] = ['\n'].intercalate (updatedLines (text.splitOn '\n') key value) := by
  have hout : ((text.splitOn '\n').map fun line =>
      match (settingKey line).bind fun key' => [(key, value)].lookup key' with
      | some value => written ((settingKey line).getD []) value
      | none => line) =
        (text.splitOn '\n').map fun line => if settingKey line = some key then written key value else line := by
    refine List.map_congr_left fun line _ => ?_
    cases hkey : settingKey line with
    | none => simp
    | some key' =>
        by_cases heq : key' = key
        · simp [heq]
        · have hne : (key' == key) = false := by simpa using heq
          simp [List.lookup_cons, hne, heq]
  simp only [updateEnvText, updatedLines, hout]
  congr 3 <;>
  · simp only [List.filter_cons, List.filter_nil]
    split <;> simp

/-- Where the lines of the file come from. -/
theorem mem_updatedLines {lines : List Text} (h : line ∈ updatedLines lines key value) :
    line = written key value ∨ line = [] ∨ (line ∈ lines ∧ settingKey line ≠ some key) := by
  have hout : ∀ line ∈ lines.map fun line => if settingKey line = some key then written key value else line,
      line = written key value ∨ (line ∈ lines ∧ settingKey line ≠ some key) := by
    intro line hline
    obtain ⟨line', hline', rfl⟩ := List.mem_map.mp hline
    split
    · exact .inl rfl
    · rename_i hkey
      exact .inr ⟨hline', hkey⟩
  have hadded : ∀ line ∈ (if lines.all (settingKey · ≠ some key) then [written key value] else []), line = written key value := by
    intro line hline
    split at hline
    · exact List.mem_singleton.mp hline
    · cases hline
  simp only [updatedLines] at h
  split at h
  · rcases List.mem_append.mp h with h | h
    · rcases List.mem_append.mp h with h | h
      · exact (hout line (List.mem_of_mem_dropLast h)).imp id .inr
      · exact .inl (hadded line h)
    · exact .inr (.inl (List.mem_singleton.mp h))
  · rcases List.mem_append.mp h with h | h
    · exact (hout line h).imp id .inr
    · exact .inl (hadded line h)

theorem updatedLines_written (lines : List Text) (key value : Text) : written key value ∈ updatedLines lines key value := by
  have hne : written key value ≠ [] := by simp [written]
  simp only [updatedLines]
  by_cases hthere : lines.all (settingKey · ≠ some key) = true
  · rw [if_pos hthere]
    split <;> simp
  · obtain ⟨line, hline, hkey⟩ : ∃ line ∈ lines, settingKey line = some key := by simpa using hthere
    have hout : written key value ∈ lines.map fun line => if settingKey line = some key then written key value else line :=
      List.mem_map.mpr ⟨line, hline, if_pos hkey⟩
    split
    · rename_i hlast
      rw [← List.dropLast_append_getLast? _ hlast] at hout
      rcases List.mem_append.mp hout with hout | hout
      · exact List.mem_append_left _ (List.mem_append_left _ hout)
      · exact absurd (List.mem_singleton.mp hout) hne
    · exact List.mem_append_left _ hout

theorem readEnvFile_update_lines (hkey : validKey key = true) (hvalue : value.all (!isLineEnd ·) = true) (key' : Text) :
    readEnvFile (updateEnvText text [(key, value)]) key' =
      (updatedLines (text.splitOn '\n') key value).reverse.findSome? (valueIn key') := by
  rw [readEnvFile, updateEnvText_one, List.splitOn_intercalate]
  · intro line hline hend
    rcases mem_updatedLines hline with rfl | rfl | ⟨hline, -⟩
    · rcases List.mem_append.mp hend with hend | hend
      · exact (not_mem_of_validKey hkey).2 hend
      · rcases List.mem_cons.mp hend with hend | hend
        · exact absurd hend (by decide)
        · have := List.all_eq_true.mp hvalue _ hend
          exact absurd this (by decide)
    · cases hend
    · exact not_mem_of_mem_splitOn hline hend
  · exact List.ne_nil_of_mem (updatedLines_written _ key value)

/-- **A setting that is changed is read back.** -/
theorem readEnvFile_update (hkey : validKey key = true) (hvalue : value.all (!isLineEnd ·) = true) :
    readEnvFile (updateEnvText text [(key, value)]) key = some value := by
  rw [readEnvFile_update_lines hkey hvalue]
  have hwritten := valueIn_written hkey hvalue
  cases hfound : (updatedLines (text.splitOn '\n') key value).reverse.findSome? (valueIn key) with
  | none =>
      have hnone := List.findSome?_eq_none_iff.mp hfound _ (List.mem_reverse.mpr (updatedLines_written _ key value))
      rw [hwritten] at hnone
      cases hnone
  | some found =>
      -- every line of the key has the new value
      obtain ⟨line, hline, hread⟩ := List.exists_of_findSome?_eq_some hfound
      rcases mem_updatedLines (List.mem_reverse.mp hline) with rfl | rfl | ⟨-, hne⟩
      · rw [hwritten] at hread
        exact hread.symm
      · rw [valueIn_of_ne (by simp [settingKey])] at hread
        cases hread
      · rw [valueIn_of_ne hne] at hread
        cases hread

/-- **Every other setting stays as it is.** -/
theorem readEnvFile_update_ne (hkey : validKey key = true) (hvalue : value.all (!isLineEnd ·) = true) (hne : key' ≠ key) :
    readEnvFile (updateEnvText text [(key, value)]) key' = readEnvFile text key' := by
  have hwritten : valueIn key' (written key value) = none := by
    refine valueIn_of_ne ?_
    rw [settingKey_written hkey]
    exact fun heq => hne (Option.some.inj heq).symm
  have hempty : valueIn key' [] = none := valueIn_of_ne (by simp [settingKey])
  have hline : ∀ line, valueIn key' (if settingKey line = some key then written key value else line) = valueIn key' line := by
    intro line
    split
    · rename_i hthere
      rw [hwritten, valueIn_of_ne]
      rw [hthere]
      exact fun heq => hne (Option.some.inj heq).symm
    · rfl
  have hout : ((text.splitOn '\n').map fun line =>
      if settingKey line = some key then written key value else line).reverse.findSome? (valueIn key') =
        (text.splitOn '\n').reverse.findSome? (valueIn key') := by
    rw [← List.map_reverse, List.findSome?_map]
    exact congrArg (fun f => List.findSome? f (text.splitOn '\n').reverse) (funext hline)
  have hadded : ∀ added : List Text, (∀ line ∈ added, line = written key value) →
      added.reverse.findSome? (valueIn key') = none := fun added hadded =>
    List.findSome?_eq_none_iff.mpr fun line hmem => by rw [hadded line (List.mem_reverse.mp hmem), hwritten]
  have hnew : ((if (text.splitOn '\n').all (settingKey · ≠ some key) then [written key value] else []).reverse.findSome?
      (valueIn key')) = none := hadded _ fun line hmem => by
    split at hmem
    · exact List.mem_singleton.mp hmem
    · cases hmem
  rw [readEnvFile_update_lines hkey hvalue, readEnvFile, ← hout]
  simp only [updatedLines]
  split
  · rename_i hlast
    conv_rhs => rw [← List.dropLast_append_getLast? _ hlast]
    simp only [List.reverse_append, List.findSome?_append, hnew, List.reverse_singleton, List.findSome?_singleton, hempty,
      Option.none_or]
  · simp only [List.reverse_append, List.findSome?_append, hnew, Option.none_or]

/-! ### Profiles -/

/-- **The list afterwards.** -/
theorem items_swapProfile {profiles previous next : Text} (hnext : Item ',' next) :
    items ',' (swapProfile profiles previous next) =
      next :: (items ',' profiles).filter fun item => item ≠ previous && item ≠ next := by
  refine items_intercalate (List.cons_ne_nil _ _) fun item hitem => ?_
  rcases List.mem_cons.mp hitem with rfl | hitem
  · exact hnext
  · exact item_of_mem_items (List.mem_filter.mp hitem).1

/-- Nor does the list of profiles get a line end. -/
theorem swapProfile_line_end {profiles previous next : Text} (hprofiles : profiles.all (!isLineEnd ·) = true)
    (hnext : next.all (!isLineEnd ·) = true) : (swapProfile profiles previous next).all (!isLineEnd ·) = true := by
  rw [List.all_eq_true] at hprofiles hnext ⊢
  intro c hc
  rcases mem_of_mem_intercalate hc with rfl | ⟨item, hitem, hmem⟩
  · decide
  · rcases List.mem_cons.mp hitem with rfl | hitem
    · exact hnext c hmem
    · exact hprofiles c (mem_of_mem_items (List.mem_filter.mp hitem).1 hmem)

end Pokyh.Node

import Pokyh.Node.Settings

/-!
# Node — EnvFiles

`compose.env` under any number of changes at once (`updateEnvText`): some of the keys have a line in it, or several, and the others get
one, in front of a last line that is empty.

* `splitOn_update`: the lines of the file afterwards.
* `update_only_own`: **what is changed is read back and everything else stays as it is**, the lines of other settings, comments and
  anything else to the letter and in their order.
-/

namespace Pokyh.Node
open Pokyh.Lib

/-- What is to be changed: each key once, and nothing that ends a line. -/
structure EnvChanges where
  entries : List (Text × Text)
  distinct : (entries.map Prod.fst).Nodup
  valid : ∀ change ∈ entries, validKey change.1 = true
  oneLine : ∀ change ∈ entries, change.2.all (!isLineEnd ·) = true

namespace EnvChanges

/-- The value a key is to get. -/
def value (changes : EnvChanges) (key : Text) : Option Text := changes.entries.lookup key

/-- The line sets one of the keys. -/
def sets (changes : EnvChanges) (line : Text) : Bool := (settingKey line).any fun key => (changes.value key).isSome

/-- A line of the file afterwards. -/
def rewrite (changes : EnvChanges) (line : Text) : Text :=
  match (settingKey line).bind changes.value with
  | some value => written ((settingKey line).getD []) value
  | none => line

/-- The lines of the keys that had none. -/
def added (changes : EnvChanges) (lines : List Text) : List Text :=
  (changes.entries.filter fun change => lines.all fun line => settingKey line ≠ some change.1).map fun change =>
    written change.1 change.2

/-- What is put behind the others, in front of an empty line at the end. -/
def insert (lines added : List Text) : List Text :=
  if lines.getLast? = some [] then lines.dropLast ++ added ++ [[]] else lines ++ added

variable (changes : EnvChanges) {lines more : List Text} {key value line : Text}

theorem value_eq_some_iff : changes.value key = some value ↔ (key, value) ∈ changes.entries := lookup_iff_mem changes.distinct

theorem valid_of_value (h : changes.value key = some value) : validKey key = true :=
  changes.valid _ (changes.value_eq_some_iff.mp h)

theorem oneLine_of_value (h : changes.value key = some value) : value.all (!isLineEnd ·) = true :=
  changes.oneLine _ (changes.value_eq_some_iff.mp h)

/-! ### Lines -/

theorem rewrite_of_some (hkey : settingKey line = some key) (h : changes.value key = some value) :
    changes.rewrite line = written key value := by
  simp [rewrite, hkey, h]

theorem rewrite_of_not_sets (h : changes.sets line = false) : changes.rewrite line = line := by
  rw [rewrite]
  cases hkey : settingKey line with
  | none => rfl
  | some key =>
      have hnone : changes.value key = none := by simpa [sets, hkey] using h
      simp [hnone]

theorem settingKey_rewrite (line : Text) : settingKey (changes.rewrite line) = settingKey line := by
  cases hsets : changes.sets line with
  | false => rw [changes.rewrite_of_not_sets hsets]
  | true =>
      cases hkey : settingKey line with
      | none => simp [sets, hkey] at hsets
      | some key =>
          obtain ⟨value, hvalue⟩ : ∃ value, changes.value key = some value := by simpa [sets, hkey, Option.isSome_iff_exists] using hsets
          rw [changes.rewrite_of_some hkey hvalue, settingKey_written (changes.valid_of_value hvalue)]

theorem sets_rewrite (line : Text) : changes.sets (changes.rewrite line) = changes.sets line := by
  rw [sets, settingKey_rewrite, sets]

theorem rewrite_rewrite (line : Text) : changes.rewrite (changes.rewrite line) = changes.rewrite line := by
  conv_lhs => rw [rewrite, settingKey_rewrite]
  rw [rewrite]
  cases (settingKey line).bind changes.value <;> rfl

theorem mem_added : line ∈ changes.added lines ↔
    ∃ key value, changes.value key = some value ∧ (∀ line ∈ lines, settingKey line ≠ some key) ∧ line = written key value := by
  simp only [added, List.mem_map, List.mem_filter, List.all_eq_true, decide_eq_true_eq, Prod.exists]
  constructor
  · rintro ⟨key, value, ⟨hmem, hnone⟩, rfl⟩
    exact ⟨key, value, changes.value_eq_some_iff.mpr hmem, hnone, rfl⟩
  · rintro ⟨key, value, hvalue, hnone, rfl⟩
    exact ⟨key, value, ⟨changes.value_eq_some_iff.mp hvalue, hnone⟩, rfl⟩

theorem settingKey_added (h : line ∈ changes.added lines) : ∃ key value, settingKey line = some key ∧ changes.value key = some value := by
  obtain ⟨key, value, hvalue, -, rfl⟩ := changes.mem_added.mp h
  exact ⟨key, value, settingKey_written (changes.valid_of_value hvalue) value, hvalue⟩

theorem sets_added (h : line ∈ changes.added lines) : changes.sets line = true := by
  obtain ⟨key, value, hkey, hvalue⟩ := changes.settingKey_added h
  simp [sets, hkey, hvalue]

/-- What is added stays as it is the next time. -/
theorem rewrite_added (h : line ∈ changes.added lines) : changes.rewrite line = line := by
  obtain ⟨key, value, hvalue, -, rfl⟩ := changes.mem_added.mp h
  exact changes.rewrite_of_some (settingKey_written (changes.valid_of_value hvalue) value) hvalue

theorem mem_insert : line ∈ insert lines more ↔ line ∈ lines ∨ line ∈ more := by
  rw [insert]
  split
  · rename_i hlast
    obtain hsplit := List.dropLast_append_getLast? _ hlast
    constructor
    · intro h
      rw [List.mem_append, List.mem_append] at h
      rcases h with (h | h) | h
      · exact .inl (List.mem_of_mem_dropLast h)
      · exact .inr h
      · exact .inl (List.mem_singleton.mp h ▸ List.mem_of_getLast? hlast)
    · rintro (h | h)
      · rw [← hsplit] at h
        rcases List.mem_append.mp h with h | h
        · exact List.mem_append_left _ (List.mem_append_left _ h)
        · exact List.mem_append_right _ h
      · exact List.mem_append_left _ (List.mem_append_right _ h)
  · exact List.mem_append

theorem insert_nil (lines : List Text) : insert lines [] = lines := by
  rw [insert]
  split
  · rename_i hlast
    rw [List.append_nil]
    exact List.dropLast_append_getLast? _ hlast
  · exact List.append_nil _

theorem filter_insert {p : Text → Bool} (h : ∀ line ∈ more, p line = false) : (insert lines more).filter p = lines.filter p := by
  have hnone : more.filter p = [] := List.filter_eq_nil_iff.mpr fun line hline => by simp [h line hline]
  rw [insert]
  split
  · rename_i hlast
    conv_rhs => rw [← List.dropLast_append_getLast? _ hlast]
    rw [List.filter_append, List.filter_append, hnone, List.append_nil, List.filter_append]
  · rw [List.filter_append, hnone, List.append_nil]

/-- What is asked of every line is found behind the others first. -/
theorem findSome?_insert {α : Type} {f : Text → Option α} (hf : f [] = none) (lines more : List Text) :
    (insert lines more).reverse.findSome? f = (more.reverse.findSome? f).or (lines.reverse.findSome? f) := by
  rw [insert]
  split
  · rename_i hlast
    conv_rhs => rw [← List.dropLast_append_getLast? _ hlast]
    simp only [List.reverse_append, List.findSome?_append, List.reverse_singleton, List.findSome?_singleton, hf, Option.none_or]
  · rw [List.reverse_append, List.findSome?_append]

/-! ### The file -/

theorem updateEnvText_eq (text : Text) : updateEnvText text changes.entries =
    ['\n'].intercalate (insert ((text.splitOn '\n').map changes.rewrite) (changes.added (text.splitOn '\n'))) := rfl

theorem newline_not_mem_written (h : changes.value key = some value) : '\n' ∉ written key value := by
  intro hmem
  rcases List.mem_append.mp hmem with hmem | hmem
  · exact (not_mem_of_validKey (changes.valid_of_value h)).2 hmem
  · rcases List.mem_cons.mp hmem with hmem | hmem
    · exact absurd hmem (by decide)
    · exact absurd (List.all_eq_true.mp (changes.oneLine_of_value h) _ hmem) (by decide)

theorem newline_not_mem_rewrite (h : '\n' ∉ line) : '\n' ∉ changes.rewrite line := by
  rw [rewrite]
  split
  · rename_i value hvalue
    obtain ⟨key, hkey, hvalue⟩ := Option.bind_eq_some_iff.mp hvalue
    rw [hkey, Option.getD_some]
    exact changes.newline_not_mem_written hvalue
  · exact h

/-- **The lines of the file afterwards.** -/
theorem splitOn_update (text : Text) : (updateEnvText text changes.entries).splitOn '\n' =
    insert ((text.splitOn '\n').map changes.rewrite) (changes.added (text.splitOn '\n')) := by
  rw [updateEnvText_eq, List.splitOn_intercalate]
  · intro line hline
    rcases mem_insert.mp hline with hline | hline
    · obtain ⟨before, hbefore, rfl⟩ := List.mem_map.mp hline
      exact changes.newline_not_mem_rewrite (not_mem_of_mem_splitOn hbefore)
    · obtain ⟨key, value, hvalue, -, rfl⟩ := changes.mem_added.mp hline
      exact changes.newline_not_mem_written hvalue
  · intro hnil
    obtain ⟨line, hline⟩ := List.exists_mem_of_ne_nil _ (List.splitOn_ne_nil '\n' text)
    have hmem : changes.rewrite line ∈ insert ((text.splitOn '\n').map changes.rewrite) (changes.added (text.splitOn '\n')) :=
      mem_insert.mpr (.inl (List.mem_map_of_mem hline))
    rw [hnil] at hmem
    cases hmem

/-- A line of a changed key gives it its new value. -/
theorem valueIn_rewrite (h : changes.value key = some value) (hkey : settingKey line = some key) :
    valueIn key (changes.rewrite line) = some value := by
  rw [changes.rewrite_of_some hkey h]
  exact valueIn_written (changes.valid_of_value h) (changes.oneLine_of_value h)

/-- No other line says anything new of a key that is not changed. -/
theorem valueIn_rewrite_of_none (h : changes.value key = none) (line : Text) : valueIn key (changes.rewrite line) = valueIn key line := by
  cases hsets : changes.sets line with
  | false => rw [changes.rewrite_of_not_sets hsets]
  | true =>
      have hne : settingKey line ≠ some key := by
        intro hkey
        simp [sets, hkey, h] at hsets
      rw [valueIn_of_ne hne, valueIn_of_ne]
      rwa [changes.settingKey_rewrite]

theorem valueIn_added_of_none (h : changes.value key = none) (hline : line ∈ changes.added lines) : valueIn key line = none := by
  obtain ⟨key', value, hkey, hvalue⟩ := changes.settingKey_added hline
  refine valueIn_of_ne ?_
  rw [hkey]
  rintro heq
  rw [Option.some.inj heq, h] at hvalue
  cases hvalue

theorem valueIn_added (h : changes.value key = some value) (hline : line ∈ changes.added lines) (hkey : settingKey line = some key) :
    valueIn key line = some value := by
  obtain ⟨key', value', hvalue', -, rfl⟩ := changes.mem_added.mp hline
  rw [settingKey_written (changes.valid_of_value hvalue')] at hkey
  obtain rfl := Option.some.inj hkey
  rw [h] at hvalue'
  obtain rfl := Option.some.inj hvalue'
  exact valueIn_written (changes.valid_of_value h) (changes.oneLine_of_value h)

/-- After the change the key has a line. -/
theorem exists_line (h : changes.value key = some value) (lines : List Text) :
    ∃ line ∈ insert (lines.map changes.rewrite) (changes.added lines), settingKey line = some key := by
  by_cases hthere : ∃ line ∈ lines, settingKey line = some key
  · obtain ⟨line, hline, hkey⟩ := hthere
    exact ⟨changes.rewrite line, mem_insert.mpr (.inl (List.mem_map_of_mem hline)), by rw [settingKey_rewrite, hkey]⟩
  · have hnone : ∀ line ∈ lines, settingKey line ≠ some key := fun line hline hkey => hthere ⟨line, hline, hkey⟩
    exact ⟨written key value, mem_insert.mpr (.inr (changes.mem_added.mpr ⟨key, value, h, hnone, rfl⟩)),
      settingKey_written (changes.valid_of_value h) value⟩

/-- **What is changed is read back, and all other settings as they were.** -/
theorem readEnvFile_changes (text key : Text) :
    readEnvFile (updateEnvText text changes.entries) key = (changes.value key).or (readEnvFile text key) := by
  rw [readEnvFile, splitOn_update]
  cases hvalue : changes.value key with
  | none =>
      have hadded : (changes.added (text.splitOn '\n')).reverse.findSome? (valueIn key) = none :=
        List.findSome?_eq_none_iff.mpr fun line hline => changes.valueIn_added_of_none hvalue (List.mem_reverse.mp hline)
      rw [findSome?_insert (valueIn_of_ne (by simp [settingKey])), hadded, Option.none_or, Option.none_or, ← List.map_reverse,
        List.findSome?_map, readEnvFile]
      exact congrArg (fun f => List.findSome? f (text.splitOn '\n').reverse) (funext (changes.valueIn_rewrite_of_none hvalue))
  | some value =>
      rw [Option.some_or]
      -- every line of the key has the new value, and there is one
      have hall : ∀ line ∈ insert ((text.splitOn '\n').map changes.rewrite) (changes.added (text.splitOn '\n')),
          settingKey line = some key → valueIn key line = some value := by
        intro line hline hkey
        rcases mem_insert.mp hline with hline | hline
        · obtain ⟨before, -, rfl⟩ := List.mem_map.mp hline
          rw [settingKey_rewrite] at hkey
          exact changes.valueIn_rewrite hvalue hkey
        · exact changes.valueIn_added hvalue hline hkey
      cases hfound : (insert ((text.splitOn '\n').map changes.rewrite) (changes.added (text.splitOn '\n'))).reverse.findSome? (valueIn key) with
      | none =>
          obtain ⟨line, hline, hkey⟩ := changes.exists_line hvalue (text.splitOn '\n')
          have hnone := List.findSome?_eq_none_iff.mp hfound line (List.mem_reverse.mpr hline)
          rw [hall line hline hkey] at hnone
          cases hnone
      | some found =>
          obtain ⟨line, hline, hread⟩ := List.exists_of_findSome?_eq_some hfound
          by_cases hkey : settingKey line = some key
          · rw [hall line (List.mem_reverse.mp hline) hkey] at hread
            exact hread.symm
          · rw [valueIn_of_ne hkey] at hread
            cases hread

/-- **No other line is touched**, nor its place among the others. -/
theorem other_lines (text : Text) : ((updateEnvText text changes.entries).splitOn '\n').filter (!changes.sets ·) =
    (text.splitOn '\n').filter (!changes.sets ·) := by
  have hmap : ∀ lines : List Text, (lines.map changes.rewrite).filter (!changes.sets ·) = lines.filter (!changes.sets ·) := by
    intro lines
    induction lines with
    | nil => rfl
    | cons line lines ih =>
        rw [List.map_cons, List.filter_cons, List.filter_cons, sets_rewrite, ih]
        cases hsets : changes.sets line with
        | false => rw [changes.rewrite_of_not_sets hsets]
        | true => rfl
  rw [splitOn_update, filter_insert, hmap]
  intro line hline
  rw [changes.sets_added hline]
  rfl

/-- **Nothing is left to change.** -/
theorem update_update (text : Text) :
    updateEnvText (updateEnvText text changes.entries) changes.entries = updateEnvText text changes.entries := by
  have hnone : changes.added (insert ((text.splitOn '\n').map changes.rewrite) (changes.added (text.splitOn '\n'))) = [] := by
    refine List.eq_nil_iff_forall_not_mem.mpr fun line hline => ?_
    obtain ⟨key, value, hvalue, hnot, -⟩ := changes.mem_added.mp hline
    obtain ⟨line', hline', hkey⟩ := changes.exists_line hvalue (text.splitOn '\n')
    exact hnot line' hline' hkey
  have hsame : (insert ((text.splitOn '\n').map changes.rewrite) (changes.added (text.splitOn '\n'))).map changes.rewrite =
      insert ((text.splitOn '\n').map changes.rewrite) (changes.added (text.splitOn '\n')) := by
    refine (List.map_congr_left fun line hline => ?_).trans (List.map_id _)
    rcases mem_insert.mp hline with hline | hline
    · obtain ⟨before, -, rfl⟩ := List.mem_map.mp hline
      exact changes.rewrite_rewrite before
    · exact changes.rewrite_added hline
  rw [updateEnvText_eq changes (updateEnvText text changes.entries), splitOn_update, hnone, hsame, insert_nil, updateEnvText_eq]

end EnvChanges

/-- **The updater changes only its own settings.** -/
theorem update_only_own (changes : EnvChanges) (text : Text) :
    (∀ key, readEnvFile (updateEnvText text changes.entries) key = (changes.value key).or (readEnvFile text key)) ∧
      ((updateEnvText text changes.entries).splitOn '\n').filter (!changes.sets ·) = (text.splitOn '\n').filter (!changes.sets ·) ∧
      updateEnvText (updateEnvText text changes.entries) changes.entries = updateEnvText text changes.entries ∧
      ∀ others : EnvChanges, List.Disjoint (changes.entries.map Prod.fst) (others.entries.map Prod.fst) → ∀ key,
        readEnvFile (updateEnvText (updateEnvText text changes.entries) others.entries) key =
          readEnvFile (updateEnvText (updateEnvText text others.entries) changes.entries) key := by
  refine ⟨changes.readEnvFile_changes text, changes.other_lines text, changes.update_update text, fun others hdisjoint key => ?_⟩
  rw [others.readEnvFile_changes, changes.readEnvFile_changes, changes.readEnvFile_changes, others.readEnvFile_changes]
  cases hown : changes.value key with
  | none => rw [Option.none_or, Option.none_or]
  | some value =>
      have hother : others.value key = none := by
        cases hvalue : others.value key with
        | none => rfl
        | some other =>
            have hkey : key ∈ changes.entries.map Prod.fst := List.mem_map_of_mem (f := Prod.fst) (changes.value_eq_some_iff.mp hown)
            have hkey' : key ∈ others.entries.map Prod.fst := List.mem_map_of_mem (f := Prod.fst) (others.value_eq_some_iff.mp hvalue)
            exact absurd hkey' (hdisjoint hkey)
      rw [hother, Option.none_or, Option.some_or, Option.some_or]

/-- The updater's two changes: the image of a colour and the list of profiles. -/
def imageChange : EnvChanges where
  entries := [("POKYH_IMAGE_GREEN".toList, "def".toList)]
  distinct := by decide
  valid := by decide
  oneLine := by decide

def profileChange : EnvChanges where
  entries := [("COMPOSE_PROFILES".toList, "green,web".toList)]
  distinct := by decide
  valid := by decide
  oneLine := by decide

theorem own_settings_commute : List.Disjoint (imageChange.entries.map Prod.fst) (profileChange.entries.map Prod.fst) ∧ ∀ key,
    readEnvFile (updateEnvText (updateEnvText "# own\nCOMPOSE_PROFILES=blue,web\n".toList imageChange.entries) profileChange.entries) key =
      readEnvFile (updateEnvText (updateEnvText "# own\nCOMPOSE_PROFILES=blue,web\n".toList profileChange.entries) imageChange.entries) key := by
  have hdisjoint : List.Disjoint (imageChange.entries.map Prod.fst) (profileChange.entries.map Prod.fst) := by
    intro key himage hprofile
    rw [List.mem_singleton.mp himage] at hprofile
    exact absurd (List.mem_singleton.mp hprofile) (by decide)
  exact ⟨hdisjoint, (update_only_own imageChange _).2.2.2 profileChange hdisjoint⟩

end Pokyh.Node

import Mathlib.Data.List.DropRight
import Mathlib.Data.List.Infix
import Mathlib.Data.List.TakeWhile

/-!
# Lib — Texts

Texts as lists of characters, without the white space around them, and lists of items that are written one after the other with a
separator between them.

* `trim_trim`: what is trimmed stays as it is.
* `cut_inj`: what stands before a separator, and what behind it.
* `items_intercalate`: **items that are written out are read back.**
-/

namespace Pokyh.Lib

/-- A white-space character of a regular expression's `\s`, and of `trim`. -/
def isSpace (c : Char) : Bool :=
  ('\t' ≤ c && c ≤ '\r') || c ∈ [' ', '\u00a0', '\u1680', '\u2028', '\u2029', '\u202f', '\u205f', '\u3000', '\ufeff'] ||
    ('\u2000' ≤ c && c ≤ '\u200a')

def trim (text : List Char) : List Char := ((text.dropWhile isSpace).reverse.dropWhile isSpace).reverse

/-- Lower case; a text with characters beyond ASCII becomes what `unicode` says. -/
def toLowerCase (unicode : List Char → List Char) (text : List Char) : List Char :=
  if text.all (·.toNat < 128) then text.map Char.toLower else unicode text

/-- What is true of the first 128 characters is true of each of them. -/
theorem ascii_cases {P : Char → Prop} (h : ∀ k < 128, P (Char.ofNat k)) {c : Char} (hc : c.toNat < 128) : P c := by
  have hascii := h c.toNat hc
  rwa [Char.ofNat_toNat] at hascii

/-- What is checked of each of the characters that are written out. -/
theorem forall_of_all {P : Char → Prop} [DecidablePred P] {text : List Char} (h : text.all (fun c => decide (P c)) = true) : ∀ c ∈ text, P c :=
  fun c hc => of_decide_eq_true (List.all_eq_true.mp h c hc)

theorem trim_eq_rdropWhile (text : List Char) : trim text = (text.dropWhile isSpace).rdropWhile isSpace := rfl

theorem trim_sublist (text : List Char) : (trim text).Sublist text :=
  (List.rdropWhile_prefix isSpace _).sublist.trans (List.dropWhile_sublist isSpace)

theorem trim_trim (text : List Char) : trim (trim text) = trim text := by
  have hhead : (trim text).dropWhile isSpace = trim text := by
    rw [List.dropWhile_eq_self_iff]
    intro hlength
    -- the first character left is the first one of the text without the white space before it
    have hstart : trim text <+: text.dropWhile isSpace := List.rdropWhile_prefix isSpace _
    have hlength' : 0 < (text.dropWhile isSpace).length := hlength.trans_le hstart.length_le
    rw [hstart.getElem hlength]
    exact List.dropWhile_get_zero_not isSpace text hlength'
  rw [trim_eq_rdropWhile (trim text), hhead, trim_eq_rdropWhile text, List.rdropWhile_idempotent]

/-- A text without white space at its ends stays as it is. -/
theorem trim_eq_self {first last : Char} {text : List Char} (hfirst : isSpace first = false) (hlast : isSpace last = false)
    (hhead : text.head? = some first) (hend : text.getLast? = some last) : trim text = text := by
  obtain ⟨rest, rfl⟩ : ∃ rest, text = first :: rest := by
    cases text with
    | nil => cases hhead
    | cons c rest => exact ⟨rest, by rw [Option.some.inj hhead]⟩
  have hdrop : (first :: rest).dropWhile isSpace = first :: rest := by rw [List.dropWhile_cons_of_neg (by simp [hfirst])]
  rw [trim_eq_rdropWhile, hdrop, List.rdropWhile_eq_self_iff]
  intro hne
  rw [List.getLast?_eq_some_getLast hne] at hend
  simp [Option.some.inj hend, hlast]

theorem not_mem_of_mem_splitOn {separator : Char} {text part : List Char} (h : part ∈ text.splitOn separator) :
    separator ∉ part := by
  induction text generalizing part with
  | nil =>
      rw [List.splitOn_nil, List.mem_singleton] at h
      rw [h]
      exact List.not_mem_nil
  | cons c text ih =>
      rw [List.splitOn_cons_eq_if_modifyHead] at h
      split at h
      · rcases List.mem_cons.mp h with rfl | h
        · exact List.not_mem_nil
        · exact ih h
      · rename_i hne
        cases hsplit : text.splitOn separator with
        | nil => exact absurd hsplit (List.splitOn_ne_nil _ _)
        | cons head rest =>
            rw [hsplit, List.modifyHead_cons] at h
            rcases List.mem_cons.mp h with rfl | h
            · have hhead : separator ∉ head := ih (hsplit ▸ List.mem_cons_self)
              have hc : c ≠ separator := by simpa using hne
              exact List.not_mem_cons_of_ne_of_not_mem hc.symm hhead
            · exact ih (hsplit ▸ List.mem_cons_of_mem _ h)

theorem mem_of_mem_splitOn {separator c : Char} {text part : List Char} (h : part ∈ text.splitOn separator) (hc : c ∈ part) :
    c ∈ text := by
  induction text generalizing part with
  | nil =>
      rw [List.splitOn_nil, List.mem_singleton] at h
      exact h ▸ hc
  | cons first text ih =>
      rw [List.splitOn_cons_eq_if_modifyHead] at h
      split at h
      · rcases List.mem_cons.mp h with rfl | h
        · cases hc
        · exact List.mem_cons_of_mem _ (ih h hc)
      · cases hsplit : text.splitOn separator with
        | nil => exact absurd hsplit (List.splitOn_ne_nil _ _)
        | cons head rest =>
            rw [hsplit, List.modifyHead_cons] at h
            rcases List.mem_cons.mp h with rfl | h
            · rcases List.mem_cons.mp hc with rfl | hc
              · exact List.mem_cons_self
              · exact List.mem_cons_of_mem _ (ih (hsplit ▸ List.mem_cons_self) hc)
            · exact List.mem_cons_of_mem _ (ih (hsplit ▸ List.mem_cons_of_mem _ h) hc)

theorem mem_of_mem_intercalate {separator c : Char} {list : List (List Char)} (h : c ∈ [separator].intercalate list) :
    c = separator ∨ ∃ item ∈ list, c ∈ item := by
  induction list with
  | nil => cases h
  | cons item list ih =>
      cases list with
      | nil => exact .inr ⟨item, List.mem_cons_self, by simpa using h⟩
      | cons next list =>
          rw [List.intercalate_cons_cons, List.append_assoc] at h
          rcases List.mem_append.mp h with h | h
          · exact .inr ⟨item, List.mem_cons_self, h⟩
          · rcases List.mem_append.mp h with h | h
            · exact .inl (List.mem_singleton.mp h)
            · obtain heq | ⟨found, hfound, hc⟩ := ih h
              · exact .inl heq
              · exact .inr ⟨found, List.mem_cons_of_mem _ hfound, hc⟩

/-- **A text is cut at its first separator in one way only.** -/
theorem cut_inj {α : Type*} {c : α} {a a' b b' : List α} (ha : c ∉ a) (ha' : c ∉ a') : a ++ c :: b = a' ++ c :: b' ↔ a = a' ∧ b = b' := by
  induction a generalizing a' with
  | nil =>
      cases a' with
      | nil => simp
      | cons x a' => simp [(List.ne_of_not_mem_cons ha')]
  | cons x a ih =>
      cases a' with
      | nil => simp [(List.ne_of_not_mem_cons ha).symm]
      | cons y a' =>
          rw [List.cons_append, List.cons_append, List.cons.injEq, List.cons.injEq,
            ih (List.not_mem_of_not_mem_cons ha) (List.not_mem_of_not_mem_cons ha'), and_assoc]

/-- The items of a list in a text. -/
def items (separator : Char) (text : List Char) : List (List Char) :=
  ((text.splitOn separator).map trim).filter (· ≠ [])

/-- What an item of a list is like. -/
structure Item (separator : Char) (item : List Char) : Prop where
  nonempty : item ≠ []
  trimmed : trim item = item
  whole : separator ∉ item

theorem item_of_mem_items {separator : Char} {text item : List Char} (h : item ∈ items separator text) :
    Item separator item := by
  obtain ⟨hitem, hne⟩ := List.mem_filter.mp h
  obtain ⟨part, hpart, rfl⟩ := List.mem_map.mp hitem
  exact ⟨by simpa using hne, trim_trim part, fun hmem => not_mem_of_mem_splitOn hpart ((trim_sublist part).subset hmem)⟩

theorem mem_of_mem_items {separator c : Char} {text item : List Char} (h : item ∈ items separator text) (hc : c ∈ item) :
    c ∈ text := by
  obtain ⟨part, hpart, rfl⟩ := List.mem_map.mp (List.mem_filter.mp h).1
  exact mem_of_mem_splitOn hpart ((trim_sublist part).subset hc)

/-- **Items that are written out are read back.** -/
theorem items_intercalate {separator : Char} {list : List (List Char)} (hlist : list ≠ [])
    (hitems : ∀ item ∈ list, Item separator item) : items separator ([separator].intercalate list) = list := by
  rw [items, List.splitOn_intercalate separator (fun item hitem => (hitems item hitem).whole) hlist]
  have htrim : list.map trim = list := by
    calc list.map trim = list.map id := List.map_congr_left fun item hitem => (hitems item hitem).trimmed
      _ = list := List.map_id list
  rw [htrim, List.filter_eq_self]
  exact fun item hitem => by simpa using (hitems item hitem).nonempty

end Pokyh.Lib

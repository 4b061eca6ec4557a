import Mathlib.Data.List.Find
import Pokyh.Lib.Rows
import Pokyh.Menu.Pull

/-!
# Menu — Idempotence

Pulling the same source twice.

* `second_pull_quiet_iff`: the second pull has nothing to do exactly when the first one was steady.  It is
  not where a dish is adopted on another day than the source sets, where an entry does not belong to the
  line it is pulled into, and where a source names a dish twice with different content.
* `adopted_on_another_day`: a dish adopted as it is by the first pull, and overwritten by the second.
-/

namespace Pokyh.Menu
open Pokyh.Lib

variable (x : Platform)

/-- A plan that creates, updates, adopts and removes nothing. -/
def PullPlan.Quiet (p : PullPlan) : Prop := p.create = [] ∧ p.update = [] ∧ p.adopt = [] ∧ p.remove = []

/-- The menu has the entry as the source tells it. -/
def Settled (menu : List Dish) (line : PullLine) (options : PullOptions) (e : SourceDish) : Prop :=
  ∃ d, carrier x menu line e = some d ∧ d.sourceHash = dishFingerprint x e ∧
    ∀ day, sourceDate options e = some day → d.date = day

/-- When pulling a source twice is as good as once. -/
structure Steady (menu : List Dish) (line : PullLine) (source : ParsedSource) (options : PullOptions) : Prop where
  /-- The source does not contradict itself. -/
  same : ∀ e ∈ source.dishes, ∀ e' ∈ source.dishes, e.sourceId = e'.sourceId →
    dishFingerprint x e = dishFingerprint x e'
  /-- A dish seen for the first time is where the source has it. -/
  day : ∀ e ∈ source.dishes, ∀ d, carrier x menu line e = some d → d.sourceHash = "" →
    ∀ day, sourceDate options e = some day → d.date = day
  /-- An entry to write belongs to the line. -/
  inLine : ∀ e ∈ source.dishes, lineFilter x line (some e.sourceId) = true ∨ Settled x menu line options e ∨
    ∃ d, carrier x menu line e = some d ∧ d.sourceHash = ""

variable {x} {menu : List Dish} {line : PullLine} {imageUrl : String → String} {uuid : ℕ → String}
  {source : ParsedSource} {options : PullOptions} {d : Dish} {e : SourceDish}

/-- What the menu does not have as the source tells it is written. -/
theorem writes_of_not_settled (hd : carrier x menu line e = some d) (h : ¬ Settled x menu line options e) :
    d.sourceHash ≠ dishFingerprint x e ∨ (sourceDate options e).any (· ≠ d.date) := by
  by_contra hno
  simp only [not_or, not_not, Option.any_eq_true, decide_eq_true_eq, not_exists, not_and] at hno
  exact h ⟨d, hd, hno.1, fun day hday => (hno.2 day hday).symm⟩

/-- An unforced pull has nothing to do when it removes nothing and the menu has every entry. -/
theorem quiet_iff (hforce : options.force = false)
    (hlinked : ∀ e ∈ source.dishes, ∀ d, carrier x menu line e = some d → d.sourceHash ≠ "")
    (hremove : (planFor x menu line source options).remove = []) :
    (planFor x menu line source options).Quiet ↔ ∀ e ∈ source.dishes, Settled x menu line options e := by
  constructor
  · rintro ⟨hc, hu, -, -⟩ e he
    cases hd : carrier x menu line e with
    | none =>
        have hmem := (mem_create hforce).mpr ⟨e, he, hd, rfl⟩
        rw [hc] at hmem
        cases hmem
    | some d =>
        by_contra hne
        have hmem := (mem_update hforce).mpr ⟨e, he, d, hd, hlinked e he d hd, writes_of_not_settled hd hne, rfl⟩
        rw [hu] at hmem
        cases hmem
  · intro h
    refine ⟨?_, ?_, ?_, hremove⟩ <;> refine List.eq_nil_iff_forall_not_mem.mpr fun a ha => ?_
    · obtain ⟨e, he, hnone, -⟩ := (mem_create hforce).mp ha
      obtain ⟨d, hd, -⟩ := h e he
      rw [hd] at hnone
      cases hnone
    · obtain ⟨e, he, d, hd, -, hwhy, -⟩ := (mem_update hforce).mp ha
      obtain ⟨d', hd', hhash, hday⟩ := h e he
      obtain rfl : d = d' := Option.some.inj (hd.symm.trans hd')
      rcases hwhy with hne | hany
      · exact hne hhash
      · obtain ⟨day, hsome, hne⟩ := (Option.any_eq_true _ _).mp hany
        exact of_decide_eq_true hne (hday day hsome).symm
    · obtain ⟨e, he, d, hd, hnone, -⟩ := (mem_adopt hforce).mp ha
      exact hlinked e he d hd hnone

/-! ### The menu after the first pull -/

section Applied

variable (hforce : options.force = false) (hids : (menu.map Dish.id).Nodup)
include hforce

theorem id_of_update {u : Update} (hu : u ∈ (planFor x menu line source options).update) : ∃ d ∈ menu, d.id = u.id := by
  obtain ⟨e, -, d, hd, -, -, rfl⟩ := (mem_update hforce).mp hu
  exact ⟨d, (carrier_eq_some hd).1, rfl⟩

theorem id_of_adopt {a : Adopt} (ha : a ∈ (planFor x menu line source options).adopt) : ∃ d ∈ menu, d.id = a.id := by
  obtain ⟨e, -, d, hd, -, -, rfl⟩ := (mem_adopt hforce).mp ha
  exact ⟨d, (carrier_eq_some hd).1, rfl⟩

/-- A row with an id that is not on the menu is none of the plan's business. -/
theorem after_of_fresh (h : ∀ d' ∈ menu, d.id ≠ d'.id) : d.after x (planFor x menu line source options) = d := by
  refine foldl_invariant (P := (· = d)) (fun row a ha hrow => ?_)
    (foldl_invariant (P := (· = d)) (fun row u hu hrow => ?_) rfl) <;> subst hrow
  · obtain ⟨d', hd', hid⟩ := id_of_adopt hforce ha
    exact if_neg fun heq => h d' hd' (heq.trans hid.symm)
  · obtain ⟨d', hd', hid⟩ := id_of_update hforce hu
    exact if_neg fun heq => h d' hd' (heq.trans hid.symm)

theorem applyPlan_eq_append (hfresh : ∀ n, ∀ d ∈ menu, uuid n ≠ d.id) :
    applyPlan x menu line imageUrl uuid (planFor x menu line source options) =
      ((menu.map (Dish.after x (planFor x menu line source options))).filter
        fun d => d.id ∉ (planFor x menu line source options).remove) ++
      newRows x menu line imageUrl uuid (planFor x menu line source options) := by
  have hnew : ∀ d ∈ newRows x menu line imageUrl uuid (planFor x menu line source options),
      ∀ d' ∈ menu, d.id ≠ d'.id := by
    intro d hd d' hd'
    obtain ⟨⟨c, n⟩, -, rfl⟩ := List.mem_map.mp hd
    exact hfresh n d' hd'
  have hsame : (newRows x menu line imageUrl uuid (planFor x menu line source options)).map
      (Dish.after x (planFor x menu line source options)) =
        newRows x menu line imageUrl uuid (planFor x menu line source options) :=
    (List.map_congr_left fun d hd => after_of_fresh hforce (hnew d hd)).trans (List.map_id _)
  rw [applyPlan_eq, List.map_append, List.filter_append, hsame]
  refine congrArg _ (List.filter_eq_self.mpr fun d hd => decide_eq_true fun hrem => ?_)
  obtain ⟨-, d', hd', -, -, hid⟩ := mem_remove.mp hrem
  exact hnew d hd d' hd' hid.symm

include hids

/-- What of the rows of before an entry finds afterwards. -/
theorem find_old (he : e ∈ source.dishes) :
    ((((menu.map (Dish.after x (planFor x menu line source options))).filter
      fun d => d.id ∉ (planFor x menu line source options).remove).filter (Dish.inLine x line)).find?
        fun d => d.key = e.sourceId) =
      (menu.find? fun d => (d.after x (planFor x menu line source options)).inLine x line && d.key = e.sourceId).map
        (Dish.after x (planFor x menu line source options)) := by
  rw [List.find?_filter, List.find?_filter, List.find?_map]
  refine congrArg _ (List.find?_congr fun d hd => ?_)
  obtain ⟨hid, -, hkey⟩ := after_keeps x line source options hforce hids hd
  by_cases h : d.key = e.sourceId
  · simp [hid, hkey, h, not_removed hids hd he h]
  · simp [hkey, h]

/-- A row leaves the line only when it carried the entry's id as its own, which is not one of the line. -/
theorem leaves (hd : carrier x menu line e = some d)
    (h : (d.after x (planFor x menu line source options)).inLine x line = false) :
    d.sourceId = none ∧ lineFilter x line (some e.sourceId) = false := by
  obtain ⟨hmem, hline, hkey⟩ := carrier_eq_some hd
  obtain ⟨-, hplan, -⟩ := after_keeps x line source options hforce hids hmem
  simp only [Dish.inLine, Bool.and_eq_true, decide_eq_true_eq] at hline
  have hout : lineFilter x line (d.after x (planFor x menu line source options)).sourceId = false := by
    simpa [Dish.inLine, hplan, hline.1] using h
  rcases after_sourceId x line source options hforce hids hmem with hs | hs
  · rw [hs, hline.2] at hout
    cases hout
  · rw [hs, hkey] at hout
    refine ⟨?_, hout⟩
    cases hid : d.sourceId with
    | none => rfl
    | some i =>
        have hi : i = e.sourceId := by simpa [Dish.key, hid] using hkey
        rw [hid, hi, hout] at hline
        cases hline.2

/-- A row that stays in the line is the one the entry finds. -/
theorem carrier_of_stays (hfresh : ∀ n, ∀ d ∈ menu, uuid n ≠ d.id) (he : e ∈ source.dishes)
    (hd : carrier x menu line e = some d) (h : (d.after x (planFor x menu line source options)).inLine x line = true) :
    carrier x (applyPlan x menu line imageUrl uuid (planFor x menu line source options)) line e =
      some (d.after x (planFor x menu line source options)) := by
  rw [carrier, applyPlan_eq_append hforce hfresh, List.filter_append, List.find?_append, find_old hforce hids he]
  have hd' := hd
  rw [carrier, List.find?_filter] at hd
  rw [find?_eq_some_of_imp hd]
  · rfl
  · simpa [h] using (carrier_eq_some hd').2.2
  · intro d' hmem hq
    rw [Bool.and_eq_true] at hq
    exact decide_eq_true ⟨inLine_of_after hforce hids hmem hq.1, hq.2⟩

/-- Otherwise the entry finds a new row. -/
theorem carrier_of_not_stays (hfresh : ∀ n, ∀ d ∈ menu, uuid n ≠ d.id) (he : e ∈ source.dishes)
    (h : ∀ d, carrier x menu line e = some d → (d.after x (planFor x menu line source options)).inLine x line = false) :
    carrier x (applyPlan x menu line imageUrl uuid (planFor x menu line source options)) line e =
      carrier x (newRows x menu line imageUrl uuid (planFor x menu line source options)) line e := by
  rw [carrier, applyPlan_eq_append hforce hfresh, List.filter_append, List.find?_append, find_old hforce hids he]
  rw [List.find?_eq_none.mpr]
  · rfl
  · intro d' hd' hq
    rw [Bool.and_eq_true, decide_eq_true_eq] at hq
    have hline := inLine_of_after hforce hids hd' hq.1
    obtain ⟨d, hd⟩ : ∃ d, carrier x menu line e = some d := by
      refine Option.isSome_iff_exists.mp (List.find?_isSome.mpr ⟨d', List.mem_filter.mpr ⟨hd', hline⟩, ?_⟩)
      exact decide_eq_true hq.2
    obtain ⟨hnone, hout⟩ := leaves hforce hids hd (h d hd)
    obtain ⟨hmem, -, hkey⟩ := carrier_eq_some hd
    -- Only one row carries the id as its own.
    have hnone' : d'.sourceId = none := by
      cases hid : d'.sourceId with
      | none => rfl
      | some i =>
          have hi : i = e.sourceId := by simpa [Dish.key, hid] using hq.2
          simp [Dish.inLine, hid, hi, hout] at hline
    have hsame : d'.id = d.id := by
      have h₁ : d'.id = e.sourceId := by simpa [Dish.key, hnone'] using hq.2
      have h₂ : d.id = e.sourceId := by simpa [Dish.key, hnone] using hkey
      exact h₁.trans h₂.symm
    obtain rfl := List.inj_on_of_nodup_map hids hd' hmem hsame
    rw [h d' hd] at hq
    cases hq.1

/-- A row of before that an entry is about has a fingerprint afterwards. -/
theorem linked_after (hdigest : ∀ c, x.digest c ≠ "") (he : e ∈ source.dishes) (hd : carrier x menu line e = some d)
    (hheld : (planFor x menu line source options).held = none) :
    (d.after x (planFor x menu line source options)).sourceHash ≠ "" := by
  by_cases hhash : d.sourceHash = ""
  · obtain ⟨e', -, -, h⟩ := after_of_adopted hforce hids he hd hhash hheld
    exact h ▸ hdigest _
  · refine after_invariant (P := fun d' => d'.sourceHash ≠ "") hforce hids (carrier_eq_some hd).1 ?_ ?_ hhash
    · intro e' _ _ _ _ d' _
      exact (Update.apply_changeOf d e' _ d').2.1 ▸ hdigest _
    · exact fun e' _ _ _ _ _ => hdigest _

/-- A row that no entry changes stays as it is. -/
theorem after_of_unchanged (hmem : d ∈ menu) (hhash : d.sourceHash ≠ "")
    (h : ∀ e ∈ source.dishes, carrier x menu line e = some d →
      d.sourceHash = dishFingerprint x e ∧ ∀ day, sourceDate options e = some day → d.date = day) :
    d.after x (planFor x menu line source options) = d := by
  refine after_invariant (P := (· = d)) hforce hids hmem (fun e he hc _ hwhy => ?_)
    (fun e _ _ hnone => absurd hnone hhash) rfl
  obtain ⟨hsame, hday⟩ := h e he hc
  rcases hwhy with hne | hany
  · exact absurd hsame hne
  · obtain ⟨day, hsome, hne⟩ := (Option.any_eq_true _ _).mp hany
    exact absurd (hday day hsome).symm (of_decide_eq_true hne)

omit hids in
/-- A new row is told by an entry that was not on the menu. -/
theorem told_of_new (h : d ∈ newRows x menu line imageUrl uuid (planFor x menu line source options)) :
    ∃ e ∈ source.dishes, d.sourceId = some e.sourceId ∧ d.sourceHash = dishFingerprint x e ∧
      ∀ day, sourceDate options e = some day → d.date = day := by
  obtain ⟨⟨c, n⟩, hc, rfl⟩ := List.mem_map.mp h
  obtain ⟨e, he, -, rfl⟩ := (mem_create hforce).mp (List.mem_of_getElem? (List.mk_mem_zipIdx_iff_getElem?.mp hc))
  refine ⟨e, he, rfl, rfl, fun day hday => ?_⟩
  -- A day that the source sets is the day of a new row.
  obtain ⟨hkept, hsame⟩ := Option.ite_none_left_eq_some.mp hday
  cases hsame
  simp [Create.row, newDate, hkept]

omit hids in
/-- An entry that was not on the menu gets a row. -/
theorem new_of_none (he : e ∈ source.dishes) (hd : carrier x menu line e = none)
    (hline : lineFilter x line (some e.sourceId) = true) :
    ∃ d, carrier x (newRows x menu line imageUrl uuid (planFor x menu line source options)) line e = some d := by
  have hcreate : _ ∈ (planFor x menu line source options).create := (mem_create hforce).mpr ⟨e, he, hd, rfl⟩
  obtain ⟨n, hn⟩ := List.mem_iff_getElem?.mp hcreate
  refine Option.isSome_iff_exists.mp (List.find?_isSome.mpr ⟨_, List.mem_filter.mpr
    ⟨List.mem_map.mpr ⟨(_, n), List.mk_mem_zipIdx_iff_getElem?.mpr hn, rfl⟩, ?_⟩, ?_⟩)
  · simp [Dish.inLine, Create.row, hline]
  · simp [Dish.key, Create.row]

/-- The second pull removes nothing. -/
theorem second_remove (hfresh : ∀ n, ∀ d ∈ menu, uuid n ≠ d.id) :
    (planFor x (applyPlan x menu line imageUrl uuid (planFor x menu line source options)) line source options).remove =
      [] := by
  refine List.eq_nil_iff_forall_not_mem.mpr fun id hid => ?_
  obtain ⟨hoption, d₂, hd₂, hline, hmiss, -⟩ := mem_remove.mp hid
  have hnot : ∃ i, d₂.sourceId = some i ∧ ∀ e ∈ source.dishes, e.sourceId ≠ i := by
    simp only [missing, Dish.asRow, Bool.and_eq_true, Option.any_eq_true, List.all_eq_true, decide_eq_true_eq] at hmiss
    obtain ⟨⟨i, hi, -, hall⟩, -⟩ := hmiss
    exact ⟨i, hi, hall⟩
  obtain ⟨i, hi, hall⟩ := hnot
  rw [applyPlan_eq_append hforce hfresh, List.mem_append] at hd₂
  rcases hd₂ with hold | hnew
  · obtain ⟨hmem, hstay⟩ := List.mem_filter.mp hold
    obtain ⟨d, hd, rfl⟩ := List.mem_map.mp hmem
    by_cases h : ∃ e ∈ source.dishes, carrier x menu line e = some d
    · obtain ⟨e, he, hc⟩ := h
      obtain ⟨-, -, hkey⟩ := after_keeps x line source options hforce hids hd
      refine hall e he ?_
      rw [← (carrier_eq_some hc).2.2, ← hkey, Dish.key, hi]
      rfl
    · have hsame : d.after x (planFor x menu line source options) = d :=
        after_of_untouched hforce hids hd fun e he hc => h ⟨e, he, hc⟩
      rw [hsame] at hline hmiss hstay
      exact of_decide_eq_true hstay (mem_remove.mpr ⟨hoption, d, hd, hline, hmiss, rfl⟩)
  · obtain ⟨e, he, hsome, -⟩ := told_of_new hforce hnew
    exact hall e he (Option.some.inj (hsome.symm.trans hi))

/-- What the second pull finds for an entry is told by an entry of that id, or was there before. -/
theorem second_linked (hdigest : ∀ c, x.digest c ≠ "") (hfresh : ∀ n, ∀ d ∈ menu, uuid n ≠ d.id)
    (hheld : (planFor x menu line source options).held = none) (he : e ∈ source.dishes)
    (hd : carrier x (applyPlan x menu line imageUrl uuid (planFor x menu line source options)) line e = some d) :
    d.sourceHash ≠ "" := by
  by_cases h : ∃ d₀, carrier x menu line e = some d₀ ∧
      (d₀.after x (planFor x menu line source options)).inLine x line = true
  · obtain ⟨d₀, hd₀, hstay⟩ := h
    rw [carrier_of_stays hforce hids hfresh he hd₀ hstay] at hd
    cases hd
    exact linked_after hforce hids hdigest he hd₀ hheld
  · rw [carrier_of_not_stays hforce hids hfresh he fun d₀ hd₀ => by simpa using fun hline => h ⟨d₀, hd₀, hline⟩] at hd
    obtain ⟨e', -, -, hhash, -⟩ := told_of_new hforce (carrier_eq_some hd).1
    exact hhash ▸ hdigest _

end Applied

/-- Entries of one id say the same of the day, if they say anything. -/
theorem sourceDate_congr {e' : SourceDish} (he : e ∈ source.dishes) (he' : e' ∈ source.dishes)
    (hid : e'.sourceId = e.sourceId) {day : Day} (hday : sourceDate options e = some day) :
    sourceDate options e' = some day := by
  rcases source.read with ⟨hnodup, -⟩ | hundated
  · rwa [List.inj_on_of_nodup_map hnodup he' he hid]
  · simp [sourceDate, (hundated e he).2] at hday

/-- An entry that writes nothing new, or writes into its line. -/
theorem inLine_of_settled (hforce : options.force = false) (hids : (menu.map Dish.id).Nodup)
    (hfresh : ∀ n, ∀ d ∈ menu, uuid n ≠ d.id) (he : e ∈ source.dishes)
    (h : Settled x (applyPlan x menu line imageUrl uuid (planFor x menu line source options)) line options e) :
    lineFilter x line (some e.sourceId) = true ∨ Settled x menu line options e ∨
      ∃ d, carrier x menu line e = some d ∧ d.sourceHash = "" := by
  obtain ⟨d₂, hd₂, -, -⟩ := h
  by_cases hold : ∃ d, carrier x menu line e = some d ∧
      (d.after x (planFor x menu line source options)).inLine x line = true
  · obtain ⟨d, hd, hstay⟩ := hold
    by_cases hhash : d.sourceHash = ""
    · exact .inr (.inr ⟨d, hd, hhash⟩)
    by_cases hset : Settled x menu line options e
    · exact .inr (.inl hset)
    -- What is written gives the row the entry's id, and it is still in the line.
    obtain ⟨hid, -⟩ := after_of_changed hforce hids he hd hhash (writes_of_not_settled hd hset)
    rw [Dish.inLine, hid, (carrier_eq_some hd).2.2, Bool.and_eq_true] at hstay
    exact .inl hstay.2
  · rw [carrier_of_not_stays hforce hids hfresh he fun d hd => by simpa using fun hline => hold ⟨d, hd, hline⟩] at hd₂
    obtain ⟨hnew, hline, hkey⟩ := carrier_eq_some hd₂
    obtain ⟨e', -, hid, -⟩ := told_of_new hforce hnew
    rw [Dish.key, hid] at hkey
    rw [Dish.inLine, hid, Bool.and_eq_true] at hline
    exact .inl (hkey ▸ hline.2)

/-- After a steady pull the menu has every entry. -/
theorem settled_of_steady (hforce : options.force = false) (hids : (menu.map Dish.id).Nodup)
    (hfresh : ∀ n, ∀ d ∈ menu, uuid n ≠ d.id) (hheld : (planFor x menu line source options).held = none)
    (hsteady : Steady x menu line source options) (he : e ∈ source.dishes) :
    Settled x (applyPlan x menu line imageUrl uuid (planFor x menu line source options)) line options e := by
  cases hd : carrier x menu line e with
  | none =>
      have hline : lineFilter x line (some e.sourceId) = true := by
        rcases hsteady.inLine e he with hline | ⟨d, hsome, -⟩ | ⟨d, hsome, -⟩
        · exact hline
        · rw [hd] at hsome
          cases hsome
        · rw [hd] at hsome
          cases hsome
      obtain ⟨d, hnew⟩ : ∃ d, carrier x (newRows x menu line imageUrl uuid (planFor x menu line source options)) line e =
          some d := new_of_none hforce he hd hline
      obtain ⟨hmem, -, hkey⟩ := carrier_eq_some hnew
      obtain ⟨e', he', hid, hhash, hday⟩ := told_of_new hforce hmem
      have hid' : e'.sourceId = e.sourceId := by simpa [Dish.key, hid] using hkey
      refine ⟨d, ?_, hhash.trans (hsteady.same e' he' e he hid'),
        fun day hdate => hday day (sourceDate_congr he he' hid' hdate)⟩
      rw [carrier_of_not_stays hforce hids hfresh he fun d' hd' => by simp [hd] at hd', hnew]
  | some d =>
      obtain ⟨hmem, hline, hkey⟩ := carrier_eq_some hd
      by_cases hhash : d.sourceHash = ""
      · obtain ⟨hash, hafter⟩ := after_of_unlinked x line source options hforce
          hids hmem hhash
        obtain ⟨e', he', hid, htold⟩ := after_of_adopted hforce hids he hd hhash hheld
        refine ⟨_, carrier_of_stays hforce hids hfresh he hd ?_, htold.trans (hsteady.same e' he' e he (hid.trans hkey)), ?_⟩
        · rw [hafter]
          exact hline
        · rw [hafter]
          exact hsteady.day e he d hd hhash
      by_cases hset : Settled x menu line options e
      · have hafter : d.after x (planFor x menu line source options) = d := by
          refine after_of_unchanged hforce hids hmem hhash fun e' he' hd' => ?_
          obtain ⟨d', hd'', hsame, hday⟩ := hset
          obtain rfl : d = d' := Option.some.inj (hd.symm.trans hd'')
          have hid := hkey.symm.trans (carrier_eq_some hd').2.2
          exact ⟨hsame.trans (hsteady.same e he e' he' hid),
            fun day hdate => hday day (sourceDate_congr he' he hid hdate)⟩
        obtain ⟨d', hd', hsame, hday⟩ := hset
        obtain rfl : d = d' := Option.some.inj (hd.symm.trans hd')
        refine ⟨d, ?_, hsame, hday⟩
        rw [carrier_of_stays hforce hids hfresh he hd (by rw [hafter]; exact hline), hafter]
      · obtain ⟨hid, e', he', hid', hsame, hday⟩ :=
          after_of_changed hforce hids he hd hhash (writes_of_not_settled hd hset)
        obtain ⟨-, hplan, -⟩ := after_keeps x line source options hforce hids hmem
        refine ⟨_, carrier_of_stays hforce hids hfresh he hd ?_, hsame.trans (hsteady.same e' he' e he (hid'.trans hkey)),
          fun day hdate => hday day (sourceDate_congr he he' (hid'.trans hkey) hdate)⟩
        have hplan' : d.plan = line.plan := of_decide_eq_true (Bool.and_eq_true _ _ ▸ hline).1
        rw [Dish.inLine, hid, hplan, hkey, hplan', Bool.and_eq_true]
        refine ⟨decide_eq_true rfl, ?_⟩
        rcases hsteady.inLine e he with h | h | ⟨d', hd', hnone⟩
        · exact h
        · exact absurd h hset
        · exact absurd (Option.some.inj (hd.symm.trans hd') ▸ hnone) hhash

/-- **The second pull of a source has nothing to do exactly when the first one was steady.**  The digest is
never empty, ids are unique, and new ones are new. -/
theorem second_pull_quiet_iff (hdigest : ∀ c, x.digest c ≠ "") (hids : (menu.map Dish.id).Nodup)
    (hfresh : ∀ n, ∀ d ∈ menu, uuid n ≠ d.id) (hforce : options.force = false)
    (hheld : (planFor x menu line source options).held = none) :
    (planFor x (applyPlan x menu line imageUrl uuid (planFor x menu line source options)) line source options).Quiet ↔
      Steady x menu line source options := by
  rw [quiet_iff hforce (fun e he d hd => second_linked hforce hids hdigest hfresh hheld he hd)
    (second_remove hforce hids hfresh)]
  constructor
  · intro h
    refine ⟨fun e he e' he' hid => ?_, fun e he d hd hnone day hday => ?_, fun e he => ?_⟩
    · obtain ⟨d, hd, hhash, -⟩ := h e he
      obtain ⟨d', hd', hhash', -⟩ := h e' he'
      rw [carrier_congr hid, hd'] at hd
      cases hd
      exact hhash.symm.trans hhash'
    · obtain ⟨hash, hafter⟩ := after_of_unlinked x line source options hforce
        hids (carrier_eq_some hd).1 hnone
      have hstay : (d.after x (planFor x menu line source options)).inLine x line = true := by
        rw [hafter]
        exact (carrier_eq_some hd).2.1
      obtain ⟨d₂, hd₂, -, hday₂⟩ := h e he
      rw [carrier_of_stays hforce hids hfresh he hd hstay, hafter] at hd₂
      cases hd₂
      exact hday₂ day hday
    · exact inLine_of_settled hforce hids hfresh he (h e he)
  · exact fun h e he => settled_of_steady hforce hids hfresh hheld h he

theorem second_pull_quiet_iff_soup :
    (planFor plain (applyPlan plain [soupRow] summerLine imageOf newId
      (planFor plain [soupRow] summerLine soupSource ⟨false, true, true⟩)) summerLine soupSource ⟨false, true, true⟩).Quiet := by
  refine (second_pull_quiet_iff plain_digest_ne (by simp) ?_ rfl (by decide +kernel)).mpr
    ⟨fun e he e' he' _ => ?_, fun e _ d _ _ day hday => ?_, fun e he => ?_⟩
  · exact fun n d hd => List.mem_singleton.mp hd ▸ newId_ne n
  · rw [List.mem_singleton.mp he, List.mem_singleton.mp he']
  · cases hday
  · rw [List.mem_singleton.mp he]
    exact .inl (by decide +kernel)

/-- **Adopted as it is, and overwritten by the next pull**, its dates being those of the source. -/
theorem adopted_on_another_day :
    (planFor plain [soupRow] summerLine soupSource ⟨false, false, true⟩).held = none ∧
      ¬ (planFor plain (applyPlan plain [soupRow] summerLine imageOf newId
        (planFor plain [soupRow] summerLine soupSource ⟨false, false, true⟩)) summerLine soupSource
          ⟨false, false, true⟩).Quiet := by
  refine ⟨by decide +kernel, fun h => ?_⟩
  have hlen := congrArg List.length h.2.1
  revert hlen
  decide +kernel

end Pokyh.Menu

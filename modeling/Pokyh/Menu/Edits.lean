import Mathlib.Logic.Relation
import Pokyh.Menu.Pull

/-!
# Menu — Edits

Menus over time: pulls of either line, forced or not, edits by hand, dishes added and deleted, lines reset.

* `World.told`: the fingerprints of a dish's entries at its last pull; `Knows` says that the fingerprint
  a row holds is one of them.
* `edits_kept_iff`: an unforced pull keeps what was edited exactly when it moves no edited dish to another
  day.  Moving one writes the source's content along with the day.
* `soup_overwritten`: a dish moved and overwritten.
-/

namespace Pokyh.Menu
open Pokyh.Lib

variable (x : Platform)

/-- What an administrator, a picture upload or the layout of the weeks does to a row. -/
structure Edit where
  apply : Dish → Dish
  keeps : ∀ d, (apply d).id = d.id ∧ (apply d).sourceId = d.sourceId ∧ (apply d).sourceHash = d.sourceHash

/-- The menu, and for each dish the fingerprints of its entries at its last pull. -/
structure World where
  menu : List Dish
  told : String → List String

/-- The entries of the source that are about the dish with an id. -/
def entriesOf (menu : List Dish) (line : PullLine) (source : ParsedSource) (id : String) : List SourceDish :=
  source.dishes.filter fun e => (carrier x menu line e).any fun d => d.id = id

/-- The entries that rows not on the menu before come from. -/
def entriesOfNew (rows : List Dish) (source : ParsedSource) (id : String) : List SourceDish :=
  source.dishes.filter fun e => rows.any fun d => d.id = id && d.sourceId = some e.sourceId

/-- One pull of a line. -/
def World.pull (w : World) (line : PullLine) (imageUrl : String → String) (uuid : ℕ → String) (source : ParsedSource)
    (options : PullOptions) : World :=
  let pull := planFor x w.menu line source options
  if pull.held.isSome then w
  else
    { menu := applyPlan x w.menu line imageUrl uuid pull
      told := fun id =>
        let entries := entriesOf x w.menu line source id ++
          entriesOfNew (newRows x w.menu line imageUrl uuid pull) source id
        if entries = [] then w.told id else entries.map (dishFingerprint x) }

/-- The rows that a plan gets when it is wiped and imported again. -/
def resetRows (menu : List Dish) (line : PullLine) (imageUrl : String → String) (uuid : ℕ → String)
    (source : ParsedSource) : List Dish :=
  source.dishes.zipIdx.map fun (e, n) =>
    Create.row x (menu.filter (Dish.inLine x line)) line imageUrl (uuid n) ⟨e, e.date, dishFingerprint x e⟩

/-- What happens to a menu. -/
inductive Step : World → World → Prop where
  | pull {w : World} (line : PullLine) (imageUrl : String → String) (uuid : ℕ → String) (source : ParsedSource)
      (options : PullOptions) (hnew : uuid.Injective) (hfresh : ∀ n, ∀ d ∈ w.menu, uuid n ≠ d.id) :
      Step w (w.pull x line imageUrl uuid source options)
  | edit {w : World} (id : String) (e : Edit) : Step w { w with menu := w.menu.map (onRow id e.apply) }
  | add {w : World} (d : Dish) (hhand : d.sourceId = none ∧ d.sourceHash = "") (hfresh : ∀ d' ∈ w.menu, d.id ≠ d'.id) :
      Step w { menu := w.menu ++ [d], told := fun id => if id = d.id then [] else w.told id }
  | delete {w : World} (id : String) : Step w { w with menu := w.menu.filter fun d => d.id ≠ id }
  | reset {w : World} (plan : Plan) (imageUrl : String → String) (uuid : ℕ → String) (source : ParsedSource)
      (hnew : uuid.Injective) (hfresh : ∀ n, ∀ d ∈ w.menu, uuid n ≠ d.id) :
      Step w
        { menu := w.menu.filter (fun d => !d.inLine x ⟨plan, false⟩) ++
            resetRows x w.menu ⟨plan, false⟩ imageUrl uuid source
          told := fun id =>
            let entries := entriesOfNew (resetRows x w.menu ⟨plan, false⟩ imageUrl uuid source) source id
            if entries = [] then w.told id else entries.map (dishFingerprint x) }

/-- A menu that was never pulled. -/
structure Unpulled (w : World) : Prop where
  ids : (w.menu.map Dish.id).Nodup
  hashes : ∀ d ∈ w.menu, d.sourceHash = ""
  told : ∀ id, w.told id = []

/-! ### What an unforced pull should leave alone -/

/-- The dish's entry was told with this fingerprint at its last pull. -/
def World.LastTold (w : World) (d : Dish) (hash : String) : Prop := w.told d.id ≠ [] ∧ ∀ h ∈ w.told d.id, h = hash

/-- The entry of the dish in the source has the fingerprint of its last pull. -/
def World.Unchanged (w : World) (line : PullLine) (source : ParsedSource) (d : Dish) : Prop :=
  (∃ e ∈ source.dishes, carrier x w.menu line e = some d) ∧
    ∀ e ∈ source.dishes, carrier x w.menu line e = some d → w.LastTold d (dishFingerprint x e)

/-- **What an unforced pull never undoes.** -/
structure KeepsEdits (w : World) (line : PullLine) (source : ParsedSource) (pull : PullPlan) (menu : List Dish) :
    Prop where
  unchanged : ∀ d ∈ w.menu, w.Unchanged x line source d →
    ∃ d' ∈ menu, d'.id = d.id ∧ d'.toContent = d.toContent ∧ d'.upload = d.upload
  unlinked : ∀ d ∈ w.menu, w.told d.id = [] → d ∈ menu ∨ ∃ a ∈ pull.adopt, a.id = d.id ∧ a.apply d ∈ menu
  removed : ∀ d ∈ w.menu, (∀ d' ∈ menu, d'.id ≠ d.id) →
    w.told d.id ≠ [] ∧ ∃ id, d.sourceId = some id ∧ ∀ e ∈ source.dishes, e.sourceId ≠ id

/-- What the source writes into a dish. -/
def SourceDish.over (e : SourceDish) (d : Dish) : Content :=
  { e.toContent with imageUrl := if d.upload.isSome then d.imageUrl else e.imageUrl }

/-! ### What is known of a row -/

/-- A row holds one of the fingerprints told of it, or was told of never. -/
structure Knows (w : World) : Prop where
  ids : (w.menu.map Dish.id).Nodup
  hash : ∀ d ∈ w.menu, d.sourceHash ∈ w.told d.id ∨ w.told d.id = [] ∧ d.sourceHash = ""
  told : ∀ id, ∀ h ∈ w.told id, ∃ c, x.digest c = h

variable {x} {w w' : World} {menu : List Dish} {line : PullLine} {imageUrl : String → String} {uuid : ℕ → String}
  {source : ParsedSource} {options : PullOptions} {d d' : Dish} {e : SourceDish}

theorem Unpulled.knows (h : Unpulled w) : Knows x w where
  ids := h.ids
  hash := fun d hd => .inr ⟨h.told d.id, h.hashes d hd⟩
  told := fun id a ha => by
    rw [h.told id] at ha
    cases ha

section Pulls

/-- Whatever the options, updates come from the entries of the rows they are for. -/
theorem entry_of_update {u : Update} (hu : u ∈ (planFor x menu line source options).update) :
    ∃ e ∈ source.dishes, ∃ d, carrier x menu line e = some d ∧ u = changeOf x d.asRow e (sourceDate options e) := by
  simp only [planFor, planPull, List.mem_filterMap, List.mem_map, exists_exists_and_eq_and, changeFor, bySource_eq] at hu
  obtain ⟨e, he, hu⟩ := hu
  refine ⟨e, he, ?_⟩
  cases hc : carrier x menu line e with
  | none => simp [hc] at hu
  | some d => grind

theorem entry_of_adopt {a : Adopt} (ha : a ∈ (planFor x menu line source options).adopt) :
    ∃ e ∈ source.dishes, ∃ d, carrier x menu line e = some d ∧ a = ⟨d.id, dishFingerprint x e⟩ := by
  simp only [planFor, planPull, List.mem_filterMap, List.mem_map, exists_exists_and_eq_and, changeFor, bySource_eq] at ha
  obtain ⟨e, he, ha⟩ := ha
  refine ⟨e, he, ?_⟩
  cases hc : carrier x menu line e with
  | none => simp [hc] at ha
  | some d => grind [Dish.asRow]

theorem entry_of_create {c : Create} (h : c ∈ (planFor x menu line source options).create) :
    ∃ e ∈ source.dishes, c.dish = e ∧ c.hash = dishFingerprint x e := by
  simp only [planFor, planPull, List.mem_filterMap, List.mem_map, exists_exists_and_eq_and, changeFor, bySource_eq] at h
  obtain ⟨e, he, h⟩ := h
  refine ⟨e, he, ?_⟩
  cases hc : carrier x menu line e with
  | none => grind
  | some d => grind

variable (options) in
/-- An entry of a row updates it, adopts it, is left for someone to decide, or has its fingerprint. -/
theorem entry_cases (he : e ∈ source.dishes) (hd : carrier x menu line e = some d) :
    (∃ u ∈ (planFor x menu line source options).update, u.id = d.id) ∨
      (∃ a ∈ (planFor x menu line source options).adopt, a.id = d.id) ∨
      (options.force = false ∧ (planFor x menu line source options).differs ≠ []) ∨ d.sourceHash = dishFingerprint x e := by
  let existing := (menu.filter (Dish.inLine x line)).map Dish.asRow
  let weeks := (menu.filter fun d => d.plan = line.plan).map Dish.asRow
  have hmem {change : Change} (h : changeFor x existing weeks options e = change) :
      change ∈ source.dishes.map (changeFor x existing weeks options) := List.mem_map.mpr ⟨e, he, h⟩
  have hby : bySource existing e = some d.asRow := by rw [bySource_eq, hd, Option.map_some]
  simp only [planFor, planPull, List.mem_filterMap]
  by_cases hfirst : options.force = false ∧ d.sourceHash = ""
  · by_cases hname : (sameDishName x d.nameDe e.nameDe || !e.isPartial) = true
    · have hval : changeFor x existing weeks options e = .adopt ⟨d.id, dishFingerprint x e⟩ := by
        rw [changeFor, hby]
        simp only [Dish.asRow, hfirst.1, hfirst.2, hname]
        rfl
      exact .inr (.inl ⟨_, ⟨_, hmem hval, rfl⟩, rfl⟩)
    · have hval : changeFor x existing weeks options e = .differs d.id := by
        rw [changeFor, hby]
        simp only [Dish.asRow, hfirst.1, hfirst.2, hname]
        rfl
      exact .inr (.inr (.inl ⟨hfirst.1, List.ne_nil_of_mem (List.mem_filterMap.mpr ⟨_, hmem hval, rfl⟩)⟩))
  · by_cases hhash : options.force = true ∨ d.sourceHash ≠ dishFingerprint x e
    · have hval : changeFor x existing weeks options e = .update (changeOf x d.asRow e (sourceDate options e)) := by
        have hfirst' : ¬ (!options.force && decide (d.sourceHash = "")) = true := by simpa using hfirst
        have hhash' : (options.force || decide (d.sourceHash ≠ dishFingerprint x e)) = true := by simpa using hhash
        rw [changeFor, hby]
        exact (if_neg hfirst').trans (if_pos hhash')
      exact .inl ⟨_, ⟨_, hmem hval, rfl⟩, rfl⟩
    · exact .inr (.inr (.inr (not_not.mp (not_or.mp hhash).2)))

/-- After a pull that is carried out, a row holds the fingerprint of one of its entries. -/
theorem told_of_pulled (hids : (menu.map Dish.id).Nodup) (hheld : (planFor x menu line source options).held = none)
    (he : e ∈ source.dishes) (hd : carrier x menu line e = some d) :
    ∃ e' ∈ source.dishes, carrier x menu line e' = some d ∧
      (d.after x (planFor x menu line source options)).sourceHash = dishFingerprint x e' := by
  have hmem := (carrier_eq_some hd).1
  have hupdate : ∀ u ∈ (planFor x menu line source options).update, u.id = d.id → ∀ d', ∃ e' ∈ source.dishes,
      carrier x menu line e' = some d ∧ (u.apply x d').sourceHash = dishFingerprint x e' := by
    intro u hu hid d'
    obtain ⟨e', he', r, hr, rfl⟩ := entry_of_update hu
    obtain rfl : r = d := List.inj_on_of_nodup_map hids (carrier_eq_some hr).1 hmem hid
    exact ⟨e', he', hr, (Update.apply_changeOf r e' _ d').2.1⟩
  have hadopt : ∀ a ∈ (planFor x menu line source options).adopt, a.id = d.id → ∀ d', ∃ e' ∈ source.dishes,
      carrier x menu line e' = some d ∧ (a.apply d').sourceHash = dishFingerprint x e' := by
    intro a ha hid d'
    obtain ⟨e', he', r, hr, rfl⟩ := entry_of_adopt ha
    obtain rfl : r = d := List.inj_on_of_nodup_map hids (carrier_eq_some hr).1 hmem hid
    exact ⟨e', he', hr, rfl⟩
  rcases entry_cases options he hd with ⟨u, hu, hid⟩ | ⟨a, ha, hid⟩ | ⟨hforce, hdiffers⟩ | hhash
  · exact after_updated (I := fun _ => True) (P := fun row => ∃ e' ∈ source.dishes, carrier x menu line e' = some d ∧
      row.sourceHash = dishFingerprint x e') hu hid trivial (fun u hu hid d' _ => ⟨trivial, hupdate u hu hid d'⟩)
      fun a ha hid d' _ => hadopt a ha hid d'
  · exact after_adopted (P := fun row => ∃ e' ∈ source.dishes, carrier x menu line e' = some d ∧
      row.sourceHash = dishFingerprint x e') ha hid hadopt
  · simp only [planFor, planPull, hforce] at hheld hdiffers
    exact absurd (differs_of_unheld hheld) hdiffers
  · exact (after_keeping (P := fun row => ∃ e' ∈ source.dishes, carrier x menu line e' = some d ∧
      row.sourceHash = dishFingerprint x e') (fun u hu hid d' _ => hupdate u hu hid d')
      (fun a ha hid d' _ => hadopt a ha hid d') ⟨e, he, hd, hhash⟩).2

/-- Rows that no entry is about go through a pull unchanged. -/
theorem after_of_unnamed (h : ∀ e ∈ source.dishes, ∀ r, carrier x menu line e = some r → r.id ≠ d.id) :
    d.after x (planFor x menu line source options) = d := by
  refine (after_keeping (P := (· = d)) (fun u hu hid => ?_) (fun a ha hid => ?_) rfl).2
  · obtain ⟨e, he, r, hr, rfl⟩ := entry_of_update hu
    exact absurd hid (h e he r hr)
  · obtain ⟨e, he, r, hr, rfl⟩ := entry_of_adopt ha
    exact absurd hid (h e he r hr)

theorem after_id : (d.after x (planFor x menu line source options)).id = d.id :=
  (after_keeping (P := fun _ => True) (fun _ _ _ _ _ => trivial) (fun _ _ _ _ _ => trivial) trivial).1

end Pulls

/-! ### Every step keeps what is known -/

theorem ids_of_zipIdx {α : Type*} {l : List α} {f : α × ℕ → Dish} (hf : ∀ p, (f p).id = uuid p.2) :
    (l.zipIdx.map f).map Dish.id = (List.range l.length).map uuid := by
  rw [List.range_eq_range', ← List.zipIdx_map_snd 0 l, List.map_map, List.map_map]
  exact List.map_congr_left fun p _ => hf p

theorem ids_append (hids : (menu.map Dish.id).Nodup) (hnew : uuid.Injective) (hfresh : ∀ n, ∀ d ∈ menu, uuid n ≠ d.id)
    {rows : List Dish} {n : ℕ} (hrows : rows.map Dish.id = (List.range n).map uuid) :
    ((menu ++ rows).map Dish.id).Nodup := by
  rw [List.map_append, hrows]
  refine List.Nodup.append hids (List.nodup_range.map hnew) fun id h₁ h₂ => ?_
  obtain ⟨d, hd, rfl⟩ := List.mem_map.mp h₁
  obtain ⟨m, -, hm⟩ := List.mem_map.mp h₂
  exact hfresh m d hd hm

theorem ids_newRows {pull : PullPlan} : (newRows x menu line imageUrl uuid pull).map Dish.id =
    (List.range pull.create.length).map uuid := ids_of_zipIdx fun _ => rfl

theorem ids_resetRows : (resetRows x menu line imageUrl uuid source).map Dish.id =
    (List.range source.dishes.length).map uuid := ids_of_zipIdx fun _ => rfl

/-- A new row comes from an entry. -/
theorem entry_of_new (h : d ∈ newRows x menu line imageUrl uuid (planFor x menu line source options)) :
    ∃ e ∈ source.dishes, d.sourceId = some e.sourceId ∧ d.sourceHash = dishFingerprint x e := by
  obtain ⟨⟨c, n⟩, hc, rfl⟩ := List.mem_map.mp h
  obtain ⟨e, he, rfl, hhash⟩ := entry_of_create (List.mem_of_getElem? (List.mk_mem_zipIdx_iff_getElem?.mp hc))
  exact ⟨c.dish, he, rfl, hhash⟩

theorem entry_of_reset (h : d ∈ resetRows x menu line imageUrl uuid source) :
    ∃ e ∈ source.dishes, d.sourceId = some e.sourceId ∧ d.sourceHash = dishFingerprint x e := by
  obtain ⟨⟨e, n⟩, he, rfl⟩ := List.mem_map.mp h
  exact ⟨e, List.mem_of_getElem? (List.mk_mem_zipIdx_iff_getElem?.mp he), rfl, rfl⟩

theorem mem_entriesOfNew {rows : List Dish} (hd : d ∈ rows) (he : e ∈ source.dishes) (hid : d.sourceId = some e.sourceId) :
    e ∈ entriesOfNew rows source d.id :=
  List.mem_filter.mpr ⟨he, List.any_eq_true.mpr ⟨d, hd, by simp [hid]⟩⟩

theorem entriesOfNew_eq_nil {rows : List Dish} {id : String} (h : ∀ r ∈ rows, r.id ≠ id) :
    entriesOfNew rows source id = [] := by
  refine List.filter_eq_nil_iff.mpr fun e _ hany => ?_
  obtain ⟨r, hr, hid⟩ := List.any_eq_true.mp hany
  exact h r hr (of_decide_eq_true (Bool.and_eq_true _ _ ▸ hid).1)

theorem mem_entriesOf {id : String} : e ∈ entriesOf x menu line source id ↔
    e ∈ source.dishes ∧ ∃ r, carrier x menu line e = some r ∧ r.id = id := by
  simp [entriesOf, Option.any_eq_true]

theorem Knows.pull (h : Knows x w) (hnew : uuid.Injective) (hfresh : ∀ n, ∀ d ∈ w.menu, uuid n ≠ d.id) :
    Knows x (w.pull x line imageUrl uuid source options) := by
  rw [World.pull]
  split
  case isTrue => exact h
  case isFalse hheld =>
    simp only [Option.not_isSome_iff_eq_none] at hheld
    have hfresh' : ∀ r ∈ newRows x w.menu line imageUrl uuid (planFor x w.menu line source options), ∀ d ∈ w.menu,
        r.id ≠ d.id := by
      intro r hr d hd
      obtain ⟨p, -, rfl⟩ := List.mem_map.mp hr
      exact hfresh p.2 d hd
    refine ⟨?_, fun d' hd' => ?_, fun id hash hhash => ?_⟩
    · have hids : ((w.menu ++ newRows x w.menu line imageUrl uuid (planFor x w.menu line source options)).map
          Dish.id).Nodup := ids_append h.ids hnew hfresh ids_newRows
      rw [applyPlan_eq]
      refine (List.Sublist.map _ List.filter_sublist).nodup ?_
      rw [List.map_map]
      exact (List.map_congr_left fun d _ => after_id).symm ▸ hids
    · rw [applyPlan_eq] at hd'
      obtain ⟨r, hr, rfl⟩ := List.mem_map.mp (List.mem_filter.mp hd').1
      rw [after_id]
      rcases List.mem_append.mp hr with hold | hrow
      · by_cases hnamed : ∃ e ∈ source.dishes, carrier x w.menu line e = some r
        · obtain ⟨e, he, hc⟩ := hnamed
          obtain ⟨e', he', hc', htold⟩ := told_of_pulled h.ids hheld he hc
          have hmem : e' ∈ entriesOf x w.menu line source r.id := mem_entriesOf.mpr ⟨he', r, hc', rfl⟩
          refine .inl ?_
          rw [htold]
          simp only [List.append_eq_nil_iff, List.ne_nil_of_mem hmem, false_and, if_false, List.map_append]
          exact List.mem_append_left _ (List.mem_map_of_mem hmem)
        · have hnil : entriesOf x w.menu line source r.id = [] := by
            refine List.eq_nil_iff_forall_not_mem.mpr fun e he => ?_
            obtain ⟨hdish, r', hc, hid⟩ := mem_entriesOf.mp he
            obtain rfl : r' = r := List.inj_on_of_nodup_map h.ids (carrier_eq_some hc).1 hold hid
            exact hnamed ⟨e, hdish, hc⟩
          have hsame : r.after x (planFor x w.menu line source options) = r := by
            refine after_of_unnamed fun e he r' hc hid => ?_
            obtain rfl : r' = r := List.inj_on_of_nodup_map h.ids (carrier_eq_some hc).1 hold hid
            exact hnamed ⟨e, he, hc⟩
          rw [hsame]
          simpa only [hnil, entriesOfNew_eq_nil fun r' hr' => hfresh' r' hr' r hold, List.append_nil, if_true]
            using h.hash r hold
      · obtain ⟨e, he, hid, hhash⟩ := entry_of_new hrow
        have hmem := mem_entriesOfNew hrow he hid
        have hsame : r.after x (planFor x w.menu line source options) = r :=
          after_of_unnamed fun e _ r' hc => (hfresh' r hrow r' (carrier_eq_some hc).1).symm
        refine .inl ?_
        rw [hsame, hhash]
        simp only [List.append_eq_nil_iff, List.ne_nil_of_mem hmem, and_false, if_false, List.map_append]
        exact List.mem_append_right _ (List.mem_map_of_mem hmem)
    · by_cases hnil : entriesOf x w.menu line source id ++
          entriesOfNew (newRows x w.menu line imageUrl uuid (planFor x w.menu line source options)) source id = []
      · exact h.told id hash (by simpa only [hnil, if_true] using hhash)
      · simp only [hnil, if_false] at hhash
        obtain ⟨e, -, rfl⟩ := List.mem_map.mp hhash
        exact ⟨_, rfl⟩

theorem Knows.reset {plan : Plan} (h : Knows x w) (hnew : uuid.Injective) (hfresh : ∀ n, ∀ d ∈ w.menu, uuid n ≠ d.id) :
    Knows x
      { menu := w.menu.filter (fun d => !d.inLine x ⟨plan, false⟩) ++ resetRows x w.menu ⟨plan, false⟩ imageUrl uuid source
        told := fun id =>
          let entries := entriesOfNew (resetRows x w.menu ⟨plan, false⟩ imageUrl uuid source) source id
          if entries = [] then w.told id else entries.map (dishFingerprint x) } := by
  have hids : ((w.menu.filter fun d => !d.inLine x ⟨plan, false⟩).map Dish.id).Nodup :=
    (List.Sublist.map _ List.filter_sublist).nodup h.ids
  refine ⟨ids_append hids hnew (fun n d hd => hfresh n d (List.mem_filter.mp hd).1) ids_resetRows, fun d hd => ?_,
    fun id hash hhash => ?_⟩
  · rcases List.mem_append.mp hd with hold | hrow
    · have hmem := (List.mem_filter.mp hold).1
      have hnil : entriesOfNew (resetRows x w.menu ⟨plan, false⟩ imageUrl uuid source) source d.id = [] := by
        refine entriesOfNew_eq_nil fun r hr => ?_
        obtain ⟨p, -, rfl⟩ := List.mem_map.mp hr
        exact hfresh p.2 d hmem
      simpa only [hnil, if_true] using h.hash d hmem
    · obtain ⟨e, he, hid, hhash⟩ := entry_of_reset hrow
      have hmem := mem_entriesOfNew hrow he hid
      refine .inl ?_
      simp only [List.ne_nil_of_mem hmem, if_false]
      exact hhash ▸ List.mem_map_of_mem hmem
  · by_cases hnil : entriesOfNew (resetRows x w.menu ⟨plan, false⟩ imageUrl uuid source) source id = []
    · exact h.told id hash (by simpa only [hnil, if_true] using hhash)
    · simp only [hnil, if_false] at hhash
      obtain ⟨e, -, rfl⟩ := List.mem_map.mp hhash
      exact ⟨_, rfl⟩

/-- **Every step keeps what is known of the rows.** -/
theorem Knows.step (h : Knows x w) (hstep : Step x w w') : Knows x w' := by
  cases hstep with
  | pull line imageUrl uuid source options hnew hfresh => exact h.pull hnew hfresh
  | edit id e =>
      have hkeep (d : Dish) : (onRow id e.apply d).id = d.id ∧ (onRow id e.apply d).sourceHash = d.sourceHash := by
        rw [onRow]
        split
        · exact ⟨(e.keeps d).1, (e.keeps d).2.2⟩
        · exact ⟨rfl, rfl⟩
      refine ⟨?_, fun d' hd' => ?_, h.told⟩
      · rw [List.map_map]
        exact (List.map_congr_left fun d _ => (hkeep d).1).symm ▸ h.ids
      · obtain ⟨d, hd, rfl⟩ := List.mem_map.mp hd'
        rw [(hkeep d).1, (hkeep d).2]
        exact h.hash d hd
  | add d hhand hfresh =>
      refine ⟨?_, fun d' hd' => ?_, fun id hash hhash => ?_⟩
      · rw [List.map_append]
        refine List.Nodup.append h.ids (List.nodup_singleton _) fun id h₁ h₂ => ?_
        obtain ⟨d', hd', rfl⟩ := List.mem_map.mp h₁
        exact hfresh d' hd' (List.mem_singleton.mp h₂).symm
      · rcases List.mem_append.mp hd' with hold | hd
        · simpa only [(hfresh d' hold).symm, if_false] using h.hash d' hold
        · obtain rfl := List.mem_singleton.mp hd
          exact .inr ⟨if_pos rfl, hhand.2⟩
      · by_cases hid : id = d.id
        · simp only [hid, if_true] at hhash
          cases hhash
        · exact h.told id hash (by simpa only [hid, if_false] using hhash)
  | delete id =>
      exact ⟨(List.Sublist.map _ List.filter_sublist).nodup h.ids, fun d hd => h.hash d (List.mem_filter.mp hd).1, h.told⟩
  | reset plan imageUrl uuid source hnew hfresh => exact h.reset hnew hfresh

/-- What is known of the rows, whatever has happened. -/
theorem knows_of_steps (hstart : Unpulled w) (hrun : Relation.ReflTransGen (Step x) w w') : Knows x w' := by
  induction hrun with
  | refl => exact hstart.knows
  | tail _ hstep ih => exact ih.step hstep

/-! ### What an unforced pull leaves alone -/

theorem mem_applyPlan_of (hd : d ∈ menu) (h : d.id ∉ (planFor x menu line source options).remove) :
    d.after x (planFor x menu line source options) ∈
      applyPlan x menu line imageUrl uuid (planFor x menu line source options) := by
  rw [applyPlan_eq]
  refine List.mem_filter.mpr ⟨List.mem_map_of_mem (List.mem_append_left _ hd), decide_eq_true ?_⟩
  rwa [after_id]

/-- The row with the id of an old one is what became of that. -/
theorem eq_after_of_id (hids : (menu.map Dish.id).Nodup) (hfresh : ∀ n, ∀ d ∈ menu, uuid n ≠ d.id) (hd : d ∈ menu)
    (hd' : d' ∈ applyPlan x menu line imageUrl uuid (planFor x menu line source options)) (hid : d'.id = d.id) :
    d' = d.after x (planFor x menu line source options) := by
  rw [applyPlan_eq] at hd'
  obtain ⟨r, hr, rfl⟩ := List.mem_map.mp (List.mem_filter.mp hd').1
  rw [after_id] at hid
  rcases List.mem_append.mp hr with hold | hnew
  · rw [List.inj_on_of_nodup_map hids hold hd hid]
  · obtain ⟨p, -, rfl⟩ := List.mem_map.mp hnew
    exact absurd hid (hfresh p.2 d hd)

/-- A full entry writes its content, and leaves an uploaded picture. -/
theorem Update.apply_full (d d' : Dish) (date : Option Day) (hfull : e.isPartial = false) :
    ((changeOf x d.asRow e date).apply x d').toContent =
        { e.toContent with imageUrl := if d.upload.isSome then d'.imageUrl else e.imageUrl } ∧
      ((changeOf x d.asRow e date).apply x d').upload = d'.upload := by
  simp [Update.apply, changeOf, hfull, Dish.asRow]

/-- A source that sets days names each dish once, and in full. -/
theorem full_of_sourceDate (he : e ∈ source.dishes) {day : Day} (hday : sourceDate options e = some day) :
    e.isPartial = false ∧ ∀ e' ∈ source.dishes, e'.sourceId = e.sourceId → e' = e := by
  rcases source.read with ⟨hnodup, hfull⟩ | hundated
  · exact ⟨(hfull e he).1, fun e' he' hid => List.inj_on_of_nodup_map hnodup he' he hid⟩
  · simp [sourceDate, (hundated e he).2] at hday

/-- A dish with an unchanged entry holds that entry's fingerprint. -/
theorem hash_of_unchanged (h : Knows x w) (hd : d ∈ w.menu) (he : e ∈ source.dishes)
    (hc : carrier x w.menu line e = some d) (hunchanged : w.Unchanged x line source d) :
    d.sourceHash = dishFingerprint x e := by
  obtain ⟨hne, hall⟩ := hunchanged.2 e he hc
  rcases h.hash d hd with hmem | ⟨hnil, -⟩
  · exact hall _ hmem
  · exact absurd hnil hne

section Kept

variable (hknows : Knows x w) (hforce : options.force = false)
include hknows hforce

/-- What a pull writes into a dish with an unchanged entry that it moves to another day. -/
theorem content_of_moved (hd : carrier x w.menu line e = some d) (he : e ∈ source.dishes) (hhash : d.sourceHash ≠ "")
    {day : Day} (hday : sourceDate options e = some day) (hmoved : d.date ≠ day) :
    (d.after x (planFor x w.menu line source options)).toContent = e.over d := by
  have hmem := (carrier_eq_some hd).1
  obtain ⟨hfull, hsame⟩ := full_of_sourceDate he hday
  have hwhy : (sourceDate options e).any (· ≠ d.date) = true := by simp [hday, hmoved.symm]
  refine after_updated (I := fun row => d.upload.isSome → row.imageUrl = d.imageUrl) (P := fun row => row.toContent = e.over d)
    ((mem_update hforce).mpr ⟨e, he, d, hd, hhash, .inr hwhy, rfl⟩) rfl (fun _ => rfl) (fun u hu hid d' himage => ?_)
    (fun a ha hid d' hd' => hd')
  obtain ⟨e', he', hc', -, -, rfl⟩ := update_of_row hforce hknows.ids hu hmem hid.symm
  obtain rfl : e' = e := hsame e' he' ((carrier_eq_some hc').2.2.symm.trans (carrier_eq_some hd).2.2)
  have hwritten := (Update.apply_full (x := x) d d' (sourceDate options e') hfull).1
  have hover : ((changeOf x d.asRow e' (sourceDate options e')).apply x d').toContent = e'.over d := by
    rw [hwritten, SourceDish.over]
    by_cases hup : d.upload.isSome = true
    · simp only [hup, if_true, himage hup]
    · simp only [hup, Bool.false_eq_true, if_false]
  refine ⟨fun hup => ?_, hover⟩
  have := congrArg Content.imageUrl hover
  simpa [SourceDish.over, hup] using this

/-- A dish with an unchanged entry keeps what it has, if the pull does not move it or has nothing else to write. -/
theorem kept_of_unmoved (hd : d ∈ w.menu) (hunchanged : w.Unchanged x line source d)
    (h : ∀ e ∈ source.dishes, carrier x w.menu line e = some d →
      (∀ day, sourceDate options e = some day → d.date = day) ∨ e.over d = d.toContent) :
    (d.after x (planFor x w.menu line source options)).toContent = d.toContent ∧
      (d.after x (planFor x w.menu line source options)).upload = d.upload := by
  refine after_invariant (P := fun row => row.toContent = d.toContent ∧ row.upload = d.upload) hforce hknows.ids hd
    (fun e he hc _ hwhy d' hd' => ?_) (fun _ _ _ _ d' hd' => hd') ⟨rfl, rfl⟩
  rcases hwhy with hne | hany
  · exact absurd (hash_of_unchanged hknows hd he hc hunchanged) hne
  · obtain ⟨day, hday, hmoved⟩ := (Option.any_eq_true _ _).mp hany
    obtain ⟨hcontent, hupload⟩ := Update.apply_full (x := x) d d' (sourceDate options e)
      (full_of_sourceDate he hday).1
    refine ⟨?_, hupload.trans hd'.2⟩
    rcases h e he hc with hstays | hover
    · exact absurd (hstays day hday).symm (of_decide_eq_true hmoved)
    · rw [hcontent, ← hover, SourceDish.over, congrArg Content.imageUrl hd'.1]

/-- A dish that was never told of stays as it is, or is adopted. -/
theorem unlinked_of_told (hd : d ∈ w.menu) (htold : w.told d.id = []) :
    d ∈ applyPlan x w.menu line imageUrl uuid (planFor x w.menu line source options) ∨
      ∃ a ∈ (planFor x w.menu line source options).adopt, a.id = d.id ∧
        a.apply d ∈ applyPlan x w.menu line imageUrl uuid (planFor x w.menu line source options) := by
  have hhash : d.sourceHash = "" := by
    rcases hknows.hash d hd with hmem | ⟨-, hhash⟩
    · rw [htold] at hmem
      cases hmem
    · exact hhash
  have hstays : d.id ∉ (planFor x w.menu line source options).remove := by
    intro hrem
    obtain ⟨-, r, hr, -, hmiss, hid⟩ := mem_remove.mp hrem
    obtain rfl : r = d := List.inj_on_of_nodup_map hknows.ids hr hd hid
    simp [missing, Dish.asRow, hforce, hhash] at hmiss
  have hmem : d.after x (planFor x w.menu line source options) ∈
      applyPlan x w.menu line imageUrl uuid (planFor x w.menu line source options) := mem_applyPlan_of hd hstays
  have hafter : d.after x (planFor x w.menu line source options) = d ∨
      ∃ a ∈ (planFor x w.menu line source options).adopt, a.id = d.id ∧
        d.after x (planFor x w.menu line source options) = a.apply d := by
    refine (after_keeping
      (P := fun row => row = d ∨ ∃ a ∈ (planFor x w.menu line source options).adopt, a.id = d.id ∧ row = a.apply d)
      (fun u hu hid => ?_) (fun a ha hid d' hd' => .inr ⟨a, ha, hid, ?_⟩) (.inl rfl)).2
    · obtain ⟨e, -, -, hne, -⟩ := update_of_row hforce hknows.ids hu hd hid.symm
      exact absurd hhash hne
    · rcases hd' with rfl | ⟨a', -, -, rfl⟩ <;> rfl
  rcases hafter with hsame | ⟨a, ha, hid, hadopted⟩
  · exact .inl (hsame ▸ hmem)
  · exact .inr ⟨a, ha, hid, hadopted ▸ hmem⟩

/-- Only dishes that came from the source and are gone from it are removed. -/
theorem removed_of_gone (hd : d ∈ w.menu)
    (hgone : ∀ d' ∈ applyPlan x w.menu line imageUrl uuid (planFor x w.menu line source options), d'.id ≠ d.id) :
    w.told d.id ≠ [] ∧ ∃ id, d.sourceId = some id ∧ ∀ e ∈ source.dishes, e.sourceId ≠ id := by
  have hrem : d.id ∈ (planFor x w.menu line source options).remove := by
    by_contra hstays
    exact hgone _ (mem_applyPlan_of hd hstays) after_id
  obtain ⟨-, r, hr, -, hmiss, hid⟩ := mem_remove.mp hrem
  obtain rfl : r = d := List.inj_on_of_nodup_map hknows.ids hr hd hid
  simp only [missing, Dish.asRow, hforce, Bool.and_eq_true, Option.any_eq_true, List.all_eq_true, decide_eq_true_eq,
    Bool.false_or] at hmiss
  obtain ⟨⟨id, hsome, -, hall⟩, hne⟩ := hmiss
  refine ⟨fun hnil => ?_, id, hsome, hall⟩
  rcases hknows.hash r hd with hmem | ⟨-, hhash⟩
  · rw [hnil] at hmem
    cases hmem
  · exact of_decide_eq_true hne hhash

end Kept

/-- **When an unforced pull undoes no edit**: after whatever has happened to the menu, exactly when each dish with an
unchanged entry is where the source has it, or has nothing that the source would not write. -/
theorem edits_kept_iff (hdigest : ∀ c, x.digest c ≠ "") {w₀ : World} (hstart : Unpulled w₀)
    (hrun : Relation.ReflTransGen (Step x) w₀ w) (hfresh : ∀ n, ∀ d ∈ w.menu, uuid n ≠ d.id)
    (hforce : options.force = false) :
    KeepsEdits x w line source (planFor x w.menu line source options)
        (applyPlan x w.menu line imageUrl uuid (planFor x w.menu line source options)) ↔
      ∀ d ∈ w.menu, w.Unchanged x line source d → ∀ e ∈ source.dishes, carrier x w.menu line e = some d →
        (∀ day, sourceDate options e = some day → d.date = day) ∨ e.over d = d.toContent := by
  have hknows := knows_of_steps hstart hrun
  constructor
  · intro h d hd hunchanged e he hc
    by_contra hno
    simp only [not_or, not_forall] at hno
    obtain ⟨⟨day, hday, hmoved⟩, hover⟩ := hno
    have hhash : d.sourceHash ≠ "" := hash_of_unchanged hknows hd he hc hunchanged ▸ hdigest _
    obtain ⟨d', hd', hid, hcontent, -⟩ := h.unchanged d hd hunchanged
    rw [eq_after_of_id hknows.ids hfresh hd hd' hid, content_of_moved hknows hforce hc he hhash hday hmoved] at hcontent
    exact hover hcontent
  · intro h
    refine ⟨fun d hd hunchanged => ?_, fun d hd => unlinked_of_told hknows hforce hd,
      fun d hd => removed_of_gone hknows hforce hd⟩
    obtain ⟨e, he, hc⟩ := hunchanged.1
    exact ⟨_, mem_applyPlan_of hd (not_removed hknows.ids hd he (carrier_eq_some hc).2.2), after_id,
      kept_of_unmoved hknows hforce hd hunchanged (h d hd hunchanged)⟩

/-- What an administrator makes of the soup. -/
def describe : Edit where
  apply := fun d => { d with descDe := "Mit Brot" }
  keeps := fun _ => ⟨rfl, rfl, rfl⟩

/-- The soup, adopted by a pull and described since. -/
def soupWorld : World :=
  let pulled := World.pull plain ⟨[soupRow], fun _ => []⟩ summerLine imageOf newId soupSource ⟨false, false, true⟩
  { pulled with menu := pulled.menu.map (onRow "d1" describe.apply) }

/-- The row as it is then. -/
def describedSoup : Dish := { soupRow with sourceHash := dishFingerprint plain soupEntry, descDe := "Mit Brot" }

theorem unpulled_soup : Unpulled ⟨[soupRow], fun _ => []⟩ where
  ids := by simp
  hashes := fun d hd => by rw [List.mem_singleton.mp hd]; rfl
  told := fun _ => rfl

theorem soup_steps : Relation.ReflTransGen (Step plain) ⟨[soupRow], fun _ => []⟩ soupWorld :=
  .tail (.single (.pull summerLine imageOf newId soupSource ⟨false, false, true⟩ newId_injective
    fun n d hd => List.mem_singleton.mp hd ▸ newId_ne n)) (.edit "d1" describe)

theorem soupWorld_menu : soupWorld.menu = [describedSoup] := by decide +kernel

theorem edits_kept_iff_soup : KeepsEdits plain soupWorld summerLine soupSource
    (planFor plain soupWorld.menu summerLine soupSource ⟨false, true, true⟩)
    (applyPlan plain soupWorld.menu summerLine imageOf newId
      (planFor plain soupWorld.menu summerLine soupSource ⟨false, true, true⟩)) := by
  refine (edits_kept_iff plain_digest_ne unpulled_soup soup_steps (fun n d hd => ?_) rfl).mpr
    fun d _ _ e _ _ => .inl fun day hday => by cases hday
  rw [soupWorld_menu, List.mem_singleton] at hd
  exact hd ▸ newId_ne n

/-- **Moved and overwritten**: the description is gone with the day. -/
theorem soup_overwritten : Relation.ReflTransGen (Step plain) ⟨[soupRow], fun _ => []⟩ soupWorld ∧
    (planFor plain soupWorld.menu summerLine soupSource ⟨false, false, true⟩).held = none ∧
    ¬ KeepsEdits plain soupWorld summerLine soupSource
      (planFor plain soupWorld.menu summerLine soupSource ⟨false, false, true⟩)
      (applyPlan plain soupWorld.menu summerLine imageOf newId
        (planFor plain soupWorld.menu summerLine soupSource ⟨false, false, true⟩)) := by
  refine ⟨soup_steps, by decide +kernel, fun h => ?_⟩
  have hcarrier : carrier plain soupWorld.menu summerLine soupEntry = some describedSoup := by decide +kernel
  have htold : soupWorld.told "d1" = [dishFingerprint plain soupEntry] := by decide +kernel
  have hunchanged : soupWorld.Unchanged plain summerLine soupSource describedSoup := by
    refine ⟨⟨soupEntry, List.mem_singleton_self _, hcarrier⟩, fun e he _ => ?_⟩
    rw [List.mem_singleton.mp he]
    refine ⟨htold ▸ List.cons_ne_nil _ _, fun hash hhash => ?_⟩
    rw [show describedSoup.id = "d1" from rfl, htold] at hhash
    exact List.mem_singleton.mp hhash
  obtain ⟨d', hd', -, hcontent, -⟩ := h.unchanged describedSoup (soupWorld_menu ▸ List.mem_singleton_self _) hunchanged
  have hwritten : applyPlan plain soupWorld.menu summerLine imageOf newId
      (planFor plain soupWorld.menu summerLine soupSource ⟨false, false, true⟩) =
        [{ soupRow with sourceHash := dishFingerprint plain soupEntry, date := 20001 }] := by decide +kernel
  rw [hwritten, List.mem_singleton] at hd'
  rw [hd'] at hcontent
  exact absurd (congrArg Content.descDe hcontent) (by decide)

end Pokyh.Menu

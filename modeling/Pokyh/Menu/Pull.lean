import Mathlib.Data.List.Nodup
import Pokyh.Lib.Runs
import Pokyh.Menu.Source

/-!
# Menu — Pull

One pull of one line of a menu (`services/mensaSource.ts`): the rows it compares, what it writes, and
what has become of each row afterwards.
-/

namespace Pokyh.Menu
open Pokyh.Lib

inductive Plan where
  | summer | winter
  deriving DecidableEq, Repr

/-- A plan, or its vegetarian menu. -/
structure PullLine where
  plan : Plan
  vegetarian : Bool
  deriving DecidableEq, Repr

structure Picture where
  data : List UInt8
  mimeType : String
  deriving DecidableEq

/-- A row of `dishes` of one menu, with the picture uploaded for it. -/
structure Dish extends Content where
  id : String
  plan : Plan
  sourceId : Option String
  sourceHash : String
  date : Day
  weekOrdinal : ℤ
  stableKey : String
  upload : Option Picture
  deriving DecidableEq

variable (x : Platform)

def VEG : String := "veg:"

/-- The dishes of one line within its plan. -/
def lineFilter (line : PullLine) (sourceId : Option String) : Bool :=
  match line.vegetarian, sourceId with
  | true, some id => x.startsWith VEG id
  | true, none => false
  | false, some id => !x.startsWith VEG id
  | false, none => true

def Dish.inLine (line : PullLine) (d : Dish) : Bool := d.plan = line.plan && lineFilter x line d.sourceId

/-- A row as the plan of a pull sees it. -/
def Dish.asRow (d : Dish) : PlanDish where
  id := d.id
  nameDe := d.nameDe
  descDe := d.descDe
  sourceId := d.sourceId
  sourceHash := d.sourceHash
  date := d.date
  weekOrdinal := d.weekOrdinal
  hasUpload := d.upload.isSome

/-- What a pull of the line is going to do to the menu. -/
def planFor (menu : List Dish) (line : PullLine) (source : ParsedSource) (options : PullOptions) : PullPlan :=
  planPull x ((menu.filter (Dish.inLine x line)).map Dish.asRow) source options
    ((menu.filter fun d => d.plan = line.plan).map Dish.asRow)

/-! ### What is written -/

/-- The picture of a dish that is on the menu under the same name. -/
def pictureOf (menu : List Dish) (key : String) : Option Picture :=
  ((menu.filter fun d => d.stableKey = key).filterMap Dish.upload).getLast?

/-- A new row.  `imageUrl` is the address of an uploaded picture. -/
def Create.row (menu : List Dish) (line : PullLine) (imageUrl : String → String) (id : String) (c : Create) :
    Dish :=
  let picture := pictureOf menu (slugifyDishName x c.dish.nameDe)
  { c.dish.toContent with
    imageUrl := if picture.isSome then imageUrl id else c.dish.imageUrl
    id
    plan := line.plan
    sourceId := some c.dish.sourceId
    sourceHash := c.hash
    date := c.date
    weekOrdinal := c.dish.weekOrdinal
    stableKey := slugifyDishName x c.dish.nameDe
    upload := picture }

/-- A changed row. -/
def Update.apply (u : Update) (d : Dish) : Dish :=
  if u.curated then
    { d with
      sourceId := some u.dish.sourceId
      sourceHash := u.hash
      weekOrdinal := u.dish.weekOrdinal
      allergens := u.dish.allergens
      descDe := if u.fillDescription then u.dish.descDe else d.descDe
      descIt := if u.fillDescription then u.dish.descIt else d.descIt
      descEn := if u.fillDescription then u.dish.descEn else d.descEn
      date := u.date.getD d.date }
  else
    { d with
      toContent := { u.dish.toContent with
        imageUrl := if u.keepImage then d.imageUrl else u.dish.imageUrl }
      sourceId := some u.dish.sourceId
      sourceHash := u.hash
      weekOrdinal := u.dish.weekOrdinal
      stableKey := slugifyDishName x u.dish.nameDe
      upload := if u.dropImage then none else d.upload
      date := u.date.getD d.date }

def Adopt.apply (a : Adopt) (d : Dish) : Dish := { d with sourceHash := a.hash }

/-- A change of the row with an id. -/
def onRow (id : String) (f : Dish → Dish) (d : Dish) : Dish := if d.id = id then f d else d

/-- The transaction: new rows, changes, adoptions and removals, in this order.  `uuid` gives the ids of the
new rows. -/
def applyPlan (menu : List Dish) (line : PullLine) (imageUrl : String → String) (uuid : ℕ → String)
    (pull : PullPlan) : List Dish :=
  let created := menu ++ pull.create.zipIdx.map fun (c, n) => c.row x menu line imageUrl (uuid n)
  let updated := pull.update.foldl (fun m u => m.map (onRow u.id (u.apply x))) created
  let adopted := pull.adopt.foldl (fun m a => m.map (onRow a.id a.apply)) updated
  adopted.filter fun d => d.id ∉ pull.remove

/-! ### What has become of a row -/

def Dish.key (d : Dish) : String := d.sourceId.getD d.id

/-- The row of the line that an entry of the source is about. -/
def carrier (menu : List Dish) (line : PullLine) (e : SourceDish) : Option Dish :=
  (menu.filter (Dish.inLine x line)).find? fun d => d.key = e.sourceId

/-- A row after the changes and adoptions. -/
def Dish.after (pull : PullPlan) (d : Dish) : Dish :=
  pull.adopt.foldl (fun d a => onRow a.id a.apply d) (pull.update.foldl (fun d u => onRow u.id (u.apply x) d) d)

/-- The new rows. -/
def newRows (menu : List Dish) (line : PullLine) (imageUrl : String → String) (uuid : ℕ → String)
    (pull : PullPlan) : List Dish :=
  pull.create.zipIdx.map fun (c, n) => c.row x menu line imageUrl (uuid n)

variable {x} {menu : List Dish} {line : PullLine} {imageUrl : String → String} {uuid : ℕ → String}
  {source : ParsedSource} {options : PullOptions} {pull : PullPlan} {d d' : Dish} {e : SourceDish}

theorem applyPlan_eq : applyPlan x menu line imageUrl uuid pull =
    ((menu ++ newRows x menu line imageUrl uuid pull).map (Dish.after x pull)).filter fun d => d.id ∉ pull.remove := by
  simp only [applyPlan, newRows, foldl_map_rows, List.map_map]
  rfl

theorem bySource_eq : bySource ((menu.filter (Dish.inLine x line)).map Dish.asRow) e =
    (carrier x menu line e).map Dish.asRow := by
  rw [bySource, carrier, List.find?_map]
  rfl

theorem carrier_eq_some (h : carrier x menu line e = some d) :
    d ∈ menu ∧ d.inLine x line = true ∧ d.key = e.sourceId := by
  obtain ⟨hmem, hline⟩ := List.mem_filter.mp (List.mem_of_find?_eq_some h)
  exact ⟨hmem, hline, by simpa using List.find?_some h⟩

theorem carrier_congr {e' : SourceDish} (h : e.sourceId = e'.sourceId) :
    carrier x menu line e = carrier x menu line e' := by
  rw [carrier, carrier, h]

/-- What an unforced pull does about an entry, told by the row it is about. -/
theorem changeFor_eq {existing weeks : List PlanDish} (hforce : options.force = false)
    (hb : bySource existing e = (carrier x menu line e).map Dish.asRow) :
    changeFor x existing weeks options e =
      match carrier x menu line e with
      | none => .create ⟨e, newDate options weeks e, dishFingerprint x e⟩
      | some d =>
          if d.sourceHash = "" then
            if sameDishName x d.nameDe e.nameDe || !e.isPartial then .adopt ⟨d.id, dishFingerprint x e⟩
            else .differs d.id
          else if d.sourceHash ≠ dishFingerprint x e ∨ (sourceDate options e).any (· ≠ d.date) then
            .update (changeOf x d.asRow e (sourceDate options e))
          else .nothing := by
  rw [changeFor, hb]
  cases carrier x menu line e with
  | none => rfl
  | some d =>
      simp only [Option.map_some, hforce, Dish.asRow]
      by_cases h₁ : d.sourceHash = ""
      · simp [h₁]
      · by_cases h₂ : d.sourceHash = dishFingerprint x e <;> simp [h₁, h₂]

/-! ### What is in the plan of an unforced pull -/

theorem differs_of_unheld {existing : List PlanDish} {remove differs : List String}
    (h : heldBack existing source remove differs = none) : differs = [] := by
  by_contra hne
  have hlen : 0 < differs.length := List.length_pos_iff.mpr hne
  simp only [heldBack, if_pos hlen] at h
  simp [ite_eq_iff] at h

section Unforced

variable (hforce : options.force = false)
include hforce

theorem mem_create {c : Create} : c ∈ (planFor x menu line source options).create ↔
    ∃ e ∈ source.dishes, carrier x menu line e = none ∧
      c = ⟨e, newDate options ((menu.filter fun d => d.plan = line.plan).map Dish.asRow) e, dishFingerprint x e⟩ := by
  simp only [planFor, planPull, List.mem_filterMap, List.mem_map, exists_exists_and_eq_and, changeFor_eq hforce bySource_eq]
  refine exists_congr fun e => and_congr_right fun _ => ?_
  cases carrier x menu line e with
  | none => simp [eq_comm]
  | some d => grind

theorem mem_update {u : Update} : u ∈ (planFor x menu line source options).update ↔
    ∃ e ∈ source.dishes, ∃ d, carrier x menu line e = some d ∧ d.sourceHash ≠ "" ∧
      (d.sourceHash ≠ dishFingerprint x e ∨ (sourceDate options e).any (· ≠ d.date)) ∧
      u = changeOf x d.asRow e (sourceDate options e) := by
  simp only [planFor, planPull, List.mem_filterMap, List.mem_map, exists_exists_and_eq_and, changeFor_eq hforce bySource_eq]
  refine exists_congr fun e => and_congr_right fun _ => ?_
  cases carrier x menu line e with
  | none => simp
  | some d => grind

theorem mem_adopt {a : Adopt} : a ∈ (planFor x menu line source options).adopt ↔
    ∃ e ∈ source.dishes, ∃ d, carrier x menu line e = some d ∧ d.sourceHash = "" ∧
      (sameDishName x d.nameDe e.nameDe || !e.isPartial) ∧ a = ⟨d.id, dishFingerprint x e⟩ := by
  simp only [planFor, planPull, List.mem_filterMap, List.mem_map, exists_exists_and_eq_and, changeFor_eq hforce bySource_eq]
  refine exists_congr fun e => and_congr_right fun _ => ?_
  cases carrier x menu line e with
  | none => simp
  | some d => grind

theorem mem_differs {id : String} : id ∈ (planFor x menu line source options).differs ↔
    ∃ e ∈ source.dishes, ∃ d, carrier x menu line e = some d ∧ d.sourceHash = "" ∧
      (sameDishName x d.nameDe e.nameDe || !e.isPartial) = false ∧ id = d.id := by
  simp only [planFor, planPull, List.mem_filterMap, List.mem_map, exists_exists_and_eq_and, changeFor_eq hforce bySource_eq]
  refine exists_congr fun e => and_congr_right fun _ => ?_
  cases carrier x menu line e with
  | none => simp
  | some d => grind

/-- A pull that is not held back adopts every row seen for the first time. -/
theorem adopted_of_unheld (hheld : (planFor x menu line source options).held = none) (he : e ∈ source.dishes)
    (hd : carrier x menu line e = some d) (h : d.sourceHash = "") :
    (sameDishName x d.nameDe e.nameDe || !e.isPartial) = true := by
  by_contra hname
  have hmem : d.id ∈ (planFor x menu line source options).differs :=
    (mem_differs hforce).mpr ⟨e, he, d, hd, h, by simpa using hname, rfl⟩
  simp only [planFor, planPull, hforce] at hheld hmem
  rw [differs_of_unheld hheld] at hmem
  exact List.not_mem_nil hmem

end Unforced

theorem mem_remove {id : String} : id ∈ (planFor x menu line source options).remove ↔
    options.removeMissing = true ∧ ∃ d ∈ menu, d.inLine x line = true ∧ missing options source d.asRow = true ∧
      d.id = id := by
  cases h : options.removeMissing <;> simp [planFor, planPull, h, and_assoc, Dish.asRow]

@[simp] theorem Update.apply_id {u : Update} : (u.apply x d).id = d.id := by
  rw [Update.apply]
  split <;> rfl

@[simp] theorem Adopt.apply_id {a : Adopt} : (a.apply d).id = d.id := rfl

/-- The row an entry is about is not removed. -/
theorem not_removed (hids : (menu.map Dish.id).Nodup) (hd : d ∈ menu) (he : e ∈ source.dishes) (hkey : d.key = e.sourceId) :
    d.id ∉ (planFor x menu line source options).remove := by
  intro hrem
  obtain ⟨-, d', hd', -, hmiss, hid⟩ := mem_remove.mp hrem
  obtain rfl : d' = d := List.inj_on_of_nodup_map hids hd' hd hid
  simp only [missing, Dish.asRow, Bool.and_eq_true, Option.any_eq_true, List.all_eq_true, decide_eq_true_eq] at hmiss
  obtain ⟨⟨id, hsome, -, hall⟩, -⟩ := hmiss
  refine hall e he ?_
  rw [← hkey, Dish.key, hsome]
  rfl

/-- What an entry sets in a row it changes. -/
theorem Update.apply_changeOf (d : Dish) (e : SourceDish) (date : Option Day) (d' : Dish) :
    ((changeOf x d.asRow e date).apply x d').sourceId = some e.sourceId ∧
    ((changeOf x d.asRow e date).apply x d').sourceHash = dishFingerprint x e ∧
    ((changeOf x d.asRow e date).apply x d').date = date.getD d'.date := by
  rw [Update.apply]
  split <;> exact ⟨rfl, rfl, rfl⟩

/-! ### A row through a plan -/

theorem onRow_of {P : Dish → Prop} {id : String} {f : Dish → Dish} (hid : d'.id = d.id) (hf : id = d.id → P (f d'))
    (h : P d') : P (onRow id f d') := by
  rw [onRow]
  split
  case isTrue hrow => exact hf (hrow.symm.trans hid)
  case isFalse => exact h

theorem onRow_id {id : String} {f : Dish → Dish} (hid : d'.id = d.id) (hf : (f d').id = d'.id) :
    (onRow id f d').id = d.id :=
  onRow_of (P := fun row : Dish => row.id = d.id) hid (fun _ => hf.trans hid) hid

/-- What the updates and the adoptions of a row keep, the plan keeps. -/
theorem after_keeping {P : Dish → Prop} (hupdate : ∀ u ∈ pull.update, u.id = d.id → ∀ d', P d' → P (u.apply x d'))
    (hadopt : ∀ a ∈ pull.adopt, a.id = d.id → ∀ d', P d' → P (a.apply d')) (h : P d) :
    (d.after x pull).id = d.id ∧ P (d.after x pull) := by
  refine foldl_invariant (P := fun row => row.id = d.id ∧ P row) (fun row a ha hrow => ?_)
    (foldl_invariant (P := fun row => row.id = d.id ∧ P row) (fun row u hu hrow => ?_) ⟨rfl, h⟩)
  · exact ⟨onRow_id hrow.1 rfl, onRow_of hrow.1 (fun hid => hadopt a ha hid row hrow.2) hrow.2⟩
  · exact ⟨onRow_id hrow.1 Update.apply_id, onRow_of hrow.1 (fun hid => hupdate u hu hid row hrow.2) hrow.2⟩

/-- A row with an update is as every update of it leaves it. -/
theorem after_updated {I P : Dish → Prop} {u : Update} (hu : u ∈ pull.update) (hid : u.id = d.id) (hI : I d)
    (hupdate : ∀ u ∈ pull.update, u.id = d.id → ∀ d', I d' → I (u.apply x d') ∧ P (u.apply x d'))
    (hadopt : ∀ a ∈ pull.adopt, a.id = d.id → ∀ d', P d' → P (a.apply d')) : P (d.after x pull) := by
  have hset : ∀ row, ∀ u ∈ pull.update, u.id = d.id → row.id = d.id ∧ I row → P (onRow u.id (u.apply x) row) := by
    rintro row u hu hid ⟨hrow, hI⟩
    rw [onRow, if_pos (hrow.trans hid.symm)]
    exact (hupdate u hu hid row hI).2
  have hfirst : (pull.update.foldl (fun d u => onRow u.id (u.apply x) d) d).id = d.id ∧
      P (pull.update.foldl (fun d u => onRow u.id (u.apply x) d) d) := by
    refine ⟨foldl_invariant (P := fun row : Dish => row.id = d.id) (fun row u _ hrow => onRow_id hrow Update.apply_id) rfl, ?_⟩
    refine foldl_establish (I := fun row => row.id = d.id ∧ I row) (fun row u hu hrow => ?_) (fun row u hu hrow hP => ?_)
      hu (fun row hrow => hset row u hu hid hrow) ⟨rfl, hI⟩
    · exact ⟨onRow_id hrow.1 Update.apply_id, onRow_of hrow.1 (fun hid => (hupdate u hu hid row hrow.2).1) hrow.2⟩
    · exact onRow_of hrow.1 (fun hid => (hupdate u hu hid row hrow.2).2) hP
  exact (foldl_invariant (P := fun row => row.id = d.id ∧ P row)
    (fun row a ha hrow => ⟨onRow_id hrow.1 rfl, onRow_of hrow.1 (fun hid => hadopt a ha hid row hrow.2) hrow.2⟩) hfirst).2

/-- A row with an adoption is as every adoption leaves it. -/
theorem after_adopted {P : Dish → Prop} {a : Adopt} (ha : a ∈ pull.adopt) (hid : a.id = d.id)
    (hadopt : ∀ a ∈ pull.adopt, a.id = d.id → ∀ d', P (a.apply d')) : P (d.after x pull) := by
  have hfirst : (pull.update.foldl (fun d u => onRow u.id (u.apply x) d) d).id = d.id :=
    foldl_invariant (P := fun row : Dish => row.id = d.id) (fun row u _ hrow => onRow_id hrow Update.apply_id) rfl
  refine foldl_establish (I := fun row : Dish => row.id = d.id) (fun row a _ hrow => onRow_id hrow rfl) (fun row a ha hrow hP => ?_) ha
    (fun row hrow => ?_) hfirst
  · exact onRow_of hrow (fun hid => hadopt a ha hid row) hP
  · rw [onRow, if_pos (hrow.trans hid.symm)]
    exact hadopt a ha hid row

/-! ### What an unforced pull does to a row -/

section Rows

variable (hforce : options.force = false) (hids : (menu.map Dish.id).Nodup)
include hforce hids

/-- An update of the row comes from an entry that the row is about. -/
theorem update_of_row {u : Update} (hu : u ∈ (planFor x menu line source options).update) (hd : d ∈ menu)
    (hid : d.id = u.id) : ∃ e ∈ source.dishes, carrier x menu line e = some d ∧ d.sourceHash ≠ "" ∧
      (d.sourceHash ≠ dishFingerprint x e ∨ (sourceDate options e).any (· ≠ d.date)) ∧
      u = changeOf x d.asRow e (sourceDate options e) := by
  obtain ⟨e, he, d', hd', hhash, hwhy, rfl⟩ := (mem_update hforce).mp hu
  obtain rfl : d = d' := List.inj_on_of_nodup_map hids hd (carrier_eq_some hd').1 hid
  exact ⟨e, he, hd', hhash, hwhy, rfl⟩

theorem adopt_of_row {a : Adopt} (ha : a ∈ (planFor x menu line source options).adopt) (hd : d ∈ menu)
    (hid : d.id = a.id) : ∃ e ∈ source.dishes, carrier x menu line e = some d ∧ d.sourceHash = "" ∧
      a = ⟨d.id, dishFingerprint x e⟩ := by
  obtain ⟨e, he, d', hd', hhash, -, rfl⟩ := (mem_adopt hforce).mp ha
  obtain rfl : d = d' := List.inj_on_of_nodup_map hids hd (carrier_eq_some hd').1 hid
  exact ⟨e, he, hd', hhash, rfl⟩

/-- **The step rule for rows**: what the updates and the adoptions of a row keep, a pull keeps. -/
theorem after_invariant {P : Dish → Prop} (hd : d ∈ menu)
    (hupdate : ∀ e ∈ source.dishes, carrier x menu line e = some d → d.sourceHash ≠ "" →
      (d.sourceHash ≠ dishFingerprint x e ∨ (sourceDate options e).any (· ≠ d.date)) →
      ∀ d', P d' → P ((changeOf x d.asRow e (sourceDate options e)).apply x d'))
    (hadopt : ∀ e ∈ source.dishes, carrier x menu line e = some d → d.sourceHash = "" →
      ∀ d', P d' → P { d' with sourceHash := dishFingerprint x e })
    (h : P d) : P (d.after x (planFor x menu line source options)) := by
  refine (after_keeping (fun u hu hid d' hP => ?_) (fun a ha hid d' hP => ?_) h).2
  · obtain ⟨e, he, hc, hhash, hwhy, rfl⟩ := update_of_row hforce hids hu hd hid.symm
    exact hupdate e he hc hhash hwhy d' hP
  · obtain ⟨e, he, hc, hhash, rfl⟩ := adopt_of_row hforce hids ha hd hid.symm
    exact hadopt e he hc hhash d' hP

/-- A row that no entry is about stays as it is. -/
theorem after_of_untouched (hd : d ∈ menu) (h : ∀ e ∈ source.dishes, carrier x menu line e ≠ some d) :
    d.after x (planFor x menu line source options) = d :=
  after_invariant (P := (· = d)) hforce hids hd (fun e he hc => absurd hc (h e he))
    (fun e he hc => absurd hc (h e he)) rfl

variable (x line source options) in
/-- A row keeps its id, its plan and its key. -/
theorem after_keeps (hd : d ∈ menu) : (d.after x (planFor x menu line source options)).id = d.id ∧
    (d.after x (planFor x menu line source options)).plan = d.plan ∧
    (d.after x (planFor x menu line source options)).key = d.key := by
  refine after_invariant (P := fun d' => d'.id = d.id ∧ d'.plan = d.plan ∧ d'.key = d.key) hforce hids hd
    (fun e he hc _ _ d' hp => ?_) (fun e he hc _ d' hp => hp) ⟨rfl, rfl, rfl⟩
  have hkey : d.key = e.sourceId := (carrier_eq_some hc).2.2
  rw [Update.apply]
  split <;> exact ⟨hp.1, hp.2.1, hkey.symm⟩

variable (x line source options) in
theorem after_sourceId (hd : d ∈ menu) : (d.after x (planFor x menu line source options)).sourceId = d.sourceId ∨
    (d.after x (planFor x menu line source options)).sourceId = some d.key :=
  after_invariant (P := fun d' => d'.sourceId = d.sourceId ∨ d'.sourceId = some d.key) hforce hids hd
    (fun e _ hc _ _ d' _ => .inr ((carrier_eq_some hc).2.2 ▸ (Update.apply_changeOf d e _ d').1))
    (fun _ _ _ _ _ hp => hp) (.inl rfl)

/-- A row that was in no line of the pull is not in it afterwards. -/
theorem inLine_of_after (hd : d ∈ menu)
    (h : (d.after x (planFor x menu line source options)).inLine x line = true) : d.inLine x line = true := by
  by_contra hout
  rw [after_of_untouched hforce hids hd fun e _ hc => hout (carrier_eq_some hc).2.1] at h
  exact hout h

variable (x line source options) in
/-- A row without a fingerprint is at most adopted. -/
theorem after_of_unlinked (hd : d ∈ menu) (h : d.sourceHash = "") :
    ∃ hash, d.after x (planFor x menu line source options) = { d with sourceHash := hash } :=
  after_invariant (P := fun d' => ∃ hash, d' = { d with sourceHash := hash }) hforce hids hd
    (fun _ _ _ hne => absurd h hne) (fun e _ _ _ _ ⟨_, hp⟩ => ⟨dishFingerprint x e, hp ▸ rfl⟩) ⟨d.sourceHash, rfl⟩

/-- A row that an entry changes is told by an entry of that id. -/
theorem after_of_changed (he : e ∈ source.dishes) (hd : carrier x menu line e = some d) (hhash : d.sourceHash ≠ "")
    (hwhy : d.sourceHash ≠ dishFingerprint x e ∨ (sourceDate options e).any (· ≠ d.date)) :
    (d.after x (planFor x menu line source options)).sourceId = some d.key ∧
      ∃ e' ∈ source.dishes, e'.sourceId = d.key ∧
        (d.after x (planFor x menu line source options)).sourceHash = dishFingerprint x e' ∧
        ∀ day, sourceDate options e' = some day → (d.after x (planFor x menu line source options)).date = day := by
  have hmem := (carrier_eq_some hd).1
  refine after_updated (I := fun _ => True) (P := fun row => row.sourceId = some d.key ∧ ∃ e' ∈ source.dishes,
      e'.sourceId = d.key ∧ row.sourceHash = dishFingerprint x e' ∧
        ∀ day, sourceDate options e' = some day → row.date = day)
    ((mem_update hforce).mpr ⟨e, he, d, hd, hhash, hwhy, rfl⟩) rfl trivial (fun u hu hid d' _ => ⟨trivial, ?_⟩)
    (fun a ha hid d' _ => ?_)
  · obtain ⟨e', he', hc', -, -, rfl⟩ := update_of_row hforce hids hu hmem hid.symm
    obtain ⟨h₁, h₂, h₃⟩ := Update.apply_changeOf (x := x) d e' (sourceDate options e') d'
    have hkey := (carrier_eq_some hc').2.2
    exact ⟨h₁.trans (congrArg some hkey.symm), e', he', hkey.symm, h₂, fun day hday => by rw [h₃, hday]; rfl⟩
  · -- A row with a fingerprint is not adopted.
    obtain ⟨e', -, -, hnone, -⟩ := adopt_of_row hforce hids ha hmem hid.symm
    exact absurd hnone hhash

/-- A row seen for the first time gets the fingerprint of an entry of its id. -/
theorem after_of_adopted (he : e ∈ source.dishes) (hd : carrier x menu line e = some d) (hhash : d.sourceHash = "")
    (hheld : (planFor x menu line source options).held = none) :
    ∃ e' ∈ source.dishes, e'.sourceId = d.key ∧
      (d.after x (planFor x menu line source options)).sourceHash = dishFingerprint x e' := by
  refine after_adopted (P := fun row => ∃ e' ∈ source.dishes, e'.sourceId = d.key ∧
      row.sourceHash = dishFingerprint x e')
    ((mem_adopt hforce).mpr ⟨e, he, d, hd, hhash, adopted_of_unheld hforce hheld he hd hhash, rfl⟩) rfl
    fun a ha hid d' => ?_
  obtain ⟨e', he', hc', -, rfl⟩ := adopt_of_row hforce hids ha (carrier_eq_some hd).1 hid.symm
  exact ⟨e', he', (carrier_eq_some hc').2.2.symm, rfl⟩

end Rows

/-! ### A menu with one dish -/

/-- A platform for plain names. -/
def plain : Platform where
  fold := String.toLower
  digest := fun (id, c) => "sha:" ++ id ++ "/" ++ c.nameDe ++ "/" ++ c.descDe ++ "/" ++ c.allergens
  startsWith := fun start s => start.toList.isPrefixOf s.toList

def soup (descDe : String) : Content where
  nameDe := "Suppe"
  nameIt := "Zuppa"
  nameEn := "Soup"
  descDe
  descIt := ""
  descEn := ""
  imageUrl := ""
  category := ""
  tags := ""
  allergens := "A, G"
  prepTime := 0
  calories := 0
  price := 3
  protein := 0
  fat := 0
  isVegetarian := true
  isVegan := false

/-- The soup as it was imported. -/
def soupRow : Dish :=
  { soup "" with
    id := "d1", plan := .summer, sourceId := some "suppe", sourceHash := "", date := 20000, weekOrdinal := 1,
    stableKey := "suppe", upload := none }

/-- The source has it a day later. -/
def soupEntry : SourceDish :=
  { soup "" with sourceId := "suppe", date := 20001, weekOrdinal := 1, isPartial := false, undated := false }

def soupSource : ParsedSource where
  dishes := [soupEntry]
  skipped := 0
  read := .inl (by simp [soupEntry])

def summerLine : PullLine := ⟨.summer, false⟩

def imageOf (id : String) : String := "/api/mensa/dishes/" ++ id ++ "/image"

/-- Ids that are told apart by their length. -/
def newId (n : ℕ) : String := String.ofList (List.replicate (n + 3) '0')

theorem length_newId (n : ℕ) : (newId n).toList.length = n + 3 := by
  simp [newId]

theorem newId_injective : newId.Injective := fun m n h => by
  have := congrArg (fun s : String => s.toList.length) h
  simpa [length_newId] using this

theorem newId_ne (n : ℕ) : newId n ≠ soupRow.id := by
  intro h
  have hlen := length_newId n
  rw [h, show soupRow.id.toList.length = 2 from rfl] at hlen
  omega

theorem plain_digest_ne (c : String × Content) : plain.digest c ≠ "" := by
  intro h
  have := congrArg String.length h
  simp [plain, String.length_append] at this

end Pokyh.Menu

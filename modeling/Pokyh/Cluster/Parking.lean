import Pokyh.Cluster.Passes

/-!
# Cluster — Parking

Whether a group of colliding changes is applied as a whole (`applyGroup`).  A transaction whose callback throws is rolled
back, one whose callback returns commits, also what it did before `return false`.

* `collectGroup_isGroup`: what a pass collects is a group of different rows of one table.
* `applyGroup_asWhole_iff`: **the group is applied as a whole or not at all, exactly when the callback does not come upon
  an index without a parking column after it has parked a row.**
* `applyGroup_leaves_parked`: a seat that is left at no place.
-/

namespace Pokyh.Cluster
open Pokyh.Lib

/-- A group as `applyGroup` gets it: changes to different rows of one table, which are not deletions. -/
structure IsGroup (node : Node) (group : List WorkItem) : Prop where
  table : ∀ a ∈ group, ∀ b ∈ group, a.table = b.table
  /-- The codec is for the table's columns. -/
  columns : ∀ m ∈ group, m.table.columns = m.table.codec.map CodecColumn.name
  hash : ∀ m ∈ group, m.hash = node.computePkHash m.key
  kept : ∀ m ∈ group, m.deleted = false
  nodup : (group.map WorkItem.hash).Nodup

/-- The member has its received values, none that it was parked at, and its version. -/
structure Received (m : WorkItem) (db : Database) : Prop where
  row : ∃ row, db.selectRow m.id = some row ∧ m.Carries row ∧
    ∀ index ∈ m.table.uniques, ∀ column ∈ parkingColumn m.table index, row.value column = m.valueOf column
  version : db.readVersion m.table.name m.hash = some m.rowVersion

/-- Not applied, and nothing has changed; or applied, and the members have what they received and no other row has
changed. -/
structure AsWhole (group : List WorkItem) (db : Database) (outcome : Bool × Database) : Prop where
  notApplied : outcome.1 = false →
    (∀ id, outcome.2.selectRow id = db.selectRow id) ∧ outcome.2.registry = db.registry
  applied : outcome.1 = true → (∀ m ∈ group, Received m outcome.2) ∧
    ∀ id, (∀ m ∈ group, m.id ≠ id) → outcome.2.selectRow id = db.selectRow id

/-- The database takes the values that a row is parked at, on one index after the other. -/
inductive Parked (S : Schema) (draws : Draws) (item : WorkItem) : Database → List UniqueIndex → Database → Prop where
  | refl (db : Database) : Parked S draws item db [] db
  | more {db db₁ db' : Database} {index : UniqueIndex} {indexes : List UniqueIndex} {column : String} {v : Value}
      (hcolumn : parkingColumn item.table index = some column)
      (hvalue : parkingValue (draws item index) item.table column = some v)
      (hupdate : updateColumn S db item column v = .ok db₁) (hrest : Parked S draws item db₁ indexes db') :
      Parked S draws item db (index :: indexes) db'

/-- All members are current, and the first that is there can be parked on some indexes, which changes it, but not on the
next. -/
def StopsHalfway (S : Schema) (fault : Option ℕ) (draws : Draws) (db : Database) (group : List WorkItem) : Prop :=
  fault = none ∧ (∀ m ∈ group, isNewer m.rowVersion (db.readVersion m.table.name m.hash) = true) ∧
    ∃ m indexes index rest db', group.find? (fun m => (db.selectRow m.id).isSome) = some m ∧
      m.table.uniques = indexes ++ index :: rest ∧ parkingColumn m.table index = none ∧
      Parked S draws m db indexes db' ∧ db'.selectRow m.id ≠ db.selectRow m.id

variable {node : Node} {S : Schema} {db db₁ db' before : Database} {item m : WorkItem} {group items : List WorkItem}
  {draws : Draws} {indexes : List UniqueIndex} {index : UniqueIndex} {id : RowId}

/-! ### Where a row can be parked -/

theorem parkingValue_isSome (draw draw' : ℕ → ℕ) (table : TableInfo) (column : String) :
    (parkingValue draw table column).isSome = (parkingValue draw' table column).isSome := by
  simp only [parkingValue]
  split
  · rfl
  · rfl
  · split <;> rfl
  · rfl

theorem parkingColumn_some {table : TableInfo} {column : String} (h : parkingColumn table index = some column) :
    column ∉ table.pk ∧ column ∈ table.codec.map CodecColumn.name ∧
      ∀ draw, ∃ v, parkingValue draw table column = some v := by
  have hcond := List.find?_some h
  simp only [Bool.and_eq_true, Bool.not_eq_true', decide_eq_false_iff_not] at hcond
  obtain ⟨⟨hpk, -⟩, hvalue⟩ := hcond
  refine ⟨hpk, ?_, fun draw => Option.isSome_iff_exists.mp ((parkingValue_isSome _ _ table column).trans hvalue)⟩
  -- a column without a codec has no parking value
  by_contra hnot
  have hnone : table.codec.find? (fun candidate => candidate.name = column) = none := by
    refine List.find?_eq_none.mpr fun candidate hmem hname => hnot ?_
    rw [← of_decide_eq_true hname]
    exact List.mem_map_of_mem hmem
  simp [parkingValue, hnone] at hvalue

/-! ### Parking one row -/

theorem updateColumn_frame {column : String} {v : Value} (h : updateColumn S db item column v = .ok db') :
    (∀ id, id ≠ item.id → db'.selectRow id = db.selectRow id) ∧
      ∀ id, (db'.selectRow id).isSome = (db.selectRow id).isSome := by
  simp only [updateColumn] at h
  split at h
  · cases h
    exact ⟨fun _ _ => rfl, fun _ => rfl⟩
  · refine ⟨fun id hne => ?_, fun id => ?_⟩
    · rw [updateRow_selectRow h, if_neg (item.id_eq ▸ hne)]
    · rw [updateRow_selectRow h]
      split <;> simp

theorem Parked.frame (h : Parked S draws item db indexes db') :
    db'.registry = db.registry ∧ (∀ id, id ≠ item.id → db'.selectRow id = db.selectRow id) ∧
      ∀ id, (db'.selectRow id).isSome = (db.selectRow id).isSome := by
  induction h with
  | refl db => exact ⟨rfl, fun _ _ => rfl, fun _ => rfl⟩
  | more _ _ hupdate _ ih =>
      obtain ⟨hothers, hthere⟩ := updateColumn_frame hupdate
      obtain ⟨hreg, hothers', hthere'⟩ := ih
      refine ⟨hreg.trans (updateColumn_registry hupdate), fun id hne => ?_, fun id => ?_⟩
      · rw [hothers' id hne, hothers id hne]
      · rw [hthere', hthere]

/-- Every index that a row is parked on has a column for it. -/
theorem Parked.columns (h : Parked S draws item db indexes db') :
    ∀ index ∈ indexes, parkingColumn item.table index ≠ none := by
  induction h with
  | refl => exact nofun
  | more hcolumn _ _ _ ih =>
      intro index hmem
      rcases List.mem_cons.mp hmem with rfl | hmem
      · rw [hcolumn]
        exact nofun
      · exact ih index hmem

theorem parkMember_true : parkMember S draws db item indexes = .ok (true, db') ↔ Parked S draws item db indexes db' := by
  induction indexes generalizing db with
  | nil =>
      constructor
      · intro h
        cases h
        exact .refl _
      · intro h
        cases h
        rfl
  | cons index indexes ih =>
      constructor
      · intro h
        simp only [parkMember] at h
        split at h
        · cases h
        next column hcolumn =>
        split at h
        · cases h
        next v hvalue =>
        split at h
        · cases h
        next db₁ hupdate => exact .more hcolumn hvalue hupdate (ih.mp h)
      · intro h
        cases h with
        | more hcolumn hvalue hupdate hrest => simpa only [parkMember, hcolumn, hvalue, hupdate] using ih.mpr hrest

theorem parkMember_false : parkMember S draws db item indexes = .ok (false, db') ↔
    ∃ done index rest, indexes = done ++ index :: rest ∧ parkingColumn item.table index = none ∧
      Parked S draws item db done db' := by
  induction indexes generalizing db with
  | nil =>
      constructor
      · intro h
        cases h
      · rintro ⟨done, index, rest, hnil, -⟩
        simp at hnil
  | cons index indexes ih =>
      constructor
      · intro h
        simp only [parkMember] at h
        split at h
        · next hcolumn =>
          cases h
          exact ⟨[], index, indexes, rfl, hcolumn, .refl _⟩
        next column hcolumn =>
        obtain ⟨v, hvalue⟩ := (parkingColumn_some hcolumn).2.2 (draws item index)
        simp only [hvalue] at h
        split at h
        · cases h
        next db₁ hupdate =>
        obtain ⟨done, last, rest, rfl, hlast, hparked⟩ := ih.mp h
        exact ⟨index :: done, last, rest, rfl, hlast, .more hcolumn hvalue hupdate hparked⟩
      · rintro ⟨done, last, rest, hsplit, hlast, hparked⟩
        cases hparked with
        | refl =>
            obtain ⟨rfl, rfl⟩ := List.cons.inj hsplit
            simp only [parkMember, hlast]
        | more hcolumn hvalue hupdate hrest =>
            obtain ⟨rfl, rfl⟩ := List.cons.inj hsplit
            simpa only [parkMember, hcolumn, hvalue, hupdate] using ih.mpr ⟨_, last, rest, rfl, hlast, hrest⟩

/-! ### Parking a group -/

/-- Parking stops at the first row that is there, because the rows of one table are parked on the same indexes. -/
theorem parkGroup_false (htable : ∀ a ∈ group, ∀ b ∈ group, a.table = b.table) :
    parkGroup S draws before db group = .ok (false, db') ↔
      ∃ m, group.find? (fun m => (before.selectRow m.id).isSome) = some m ∧
        parkMember S draws db m m.table.uniques = .ok (false, db') := by
  induction group generalizing db with
  | nil => simp [parkGroup]
  | cons item group ih =>
      have htables : ∀ a ∈ group, ∀ b ∈ group, a.table = b.table :=
        fun a ha b hb => htable a (List.mem_cons_of_mem _ ha) b (List.mem_cons_of_mem _ hb)
      simp only [parkGroup]
      by_cases hthere : (before.selectRow item.id).isSome
      · rw [List.find?_cons_of_pos (by exact hthere), if_neg (by simpa using Option.isSome_iff_ne_none.mp hthere)]
        cases hpark : parkMember S draws db item item.table.uniques with
        | error code => simp [hpark]
        | ok parked =>
            obtain ⟨done, db₁⟩ := parked
            cases done with
            | false => simp [hpark]
            | true =>
                -- if one row can be parked on all indexes, so can every other
                have hcolumns := (parkMember_true.mp hpark).columns
                constructor
                · intro h
                  obtain ⟨m, hfind, hstop⟩ := (ih htables).mp h
                  obtain ⟨done, index, rest, huniques, hnone, -⟩ := parkMember_false.mp hstop
                  have hm := htable m (List.mem_cons_of_mem _ (List.mem_of_find?_eq_some hfind)) item List.mem_cons_self
                  rw [hm] at huniques hnone
                  exact absurd hnone (hcolumns index (by simp [huniques]))
                · rintro ⟨m, hm, hstop⟩
                  rw [← Option.some_inj.mp hm, hpark] at hstop
                  cases hstop
      · rw [List.find?_cons_of_neg (by exact hthere), if_pos (by simpa using hthere)]
        exact ih htables

/-- Parking leaves the registry and every other row, and which rows there are. -/
theorem parkGroup_frame {done : Bool} (h : parkGroup S draws before db group = .ok (done, db')) :
    (∀ id, (∀ m ∈ group, m.id ≠ id) → db'.selectRow id = db.selectRow id) ∧
      ∀ id, (db'.selectRow id).isSome = (db.selectRow id).isSome := by
  have hmember : ∀ {db₁ db₂ : Database} {m : WorkItem} {done : Bool},
      parkMember S draws db₁ m m.table.uniques = .ok (done, db₂) →
        (∀ id, id ≠ m.id → db₂.selectRow id = db₁.selectRow id) ∧
          ∀ id, (db₂.selectRow id).isSome = (db₁.selectRow id).isSome := by
    intro db₁ db₂ m done h
    cases done with
    | true => exact (parkMember_true.mp h).frame.2
    | false =>
        obtain ⟨_, _, _, _, _, hparked⟩ := parkMember_false.mp h
        exact hparked.frame.2
  induction group generalizing db with
  | nil =>
      cases h
      exact ⟨fun _ _ => rfl, fun _ => rfl⟩
  | cons item group ih =>
      simp only [parkGroup] at h
      split at h
      · obtain ⟨hothers, hthere⟩ := ih h
        exact ⟨fun id hid => hothers id fun m hm => hid m (List.mem_cons_of_mem _ hm), hthere⟩
      · split at h
        · cases h
        · next db₁ hpark =>
          cases h
          obtain ⟨hothers, hthere⟩ := hmember hpark
          exact ⟨fun id hid => hothers id (hid item List.mem_cons_self).symm, hthere⟩
        · next db₁ hpark =>
          obtain ⟨hothers, hthere⟩ := hmember hpark
          obtain ⟨hothers', hthere'⟩ := ih h
          refine ⟨fun id hid => ?_, fun id => (hthere' id).trans (hthere id)⟩
          rw [hothers' id fun m hm => hid m (List.mem_cons_of_mem _ hm),
            hothers id (hid item List.mem_cons_self).symm]

/-! ### Writing a group -/

theorem IsGroup.ids (h : IsGroup node group) : (group.map WorkItem.id).Nodup := by
  refine List.Nodup.map_on (fun a ha b hb heq => ?_) h.nodup.of_map
  have hhash : a.hash = b.hash := by rw [h.hash a ha, h.hash b hb, (RowId.mk.inj heq).2]
  exact List.inj_on_of_nodup_map h.nodup ha hb hhash

theorem IsGroup.keys (h : IsGroup node group) : (group.map WorkItem.itemKey).Nodup := by
  refine List.Nodup.map_on (fun a ha b hb heq => ?_) h.nodup.of_map
  exact List.inj_on_of_nodup_map h.nodup ha hb (Prod.mk.inj heq).2

theorem IsGroup.tail (h : IsGroup node (item :: group)) : IsGroup node group where
  table a ha b hb := h.table a (List.mem_cons_of_mem _ ha) b (List.mem_cons_of_mem _ hb)
  columns m hm := h.columns m (List.mem_cons_of_mem _ hm)
  hash m hm := h.hash m (List.mem_cons_of_mem _ hm)
  kept m hm := h.kept m (List.mem_cons_of_mem _ hm)
  nodup := (List.nodup_cons.mp (List.map_cons ▸ h.nodup)).2

/-- A parking column is among those that a change carries. -/
theorem IsGroup.unparked (h : IsGroup node group) (hm : m ∈ group) {row : Row} (hrow : m.Carries row) :
    ∀ index ∈ m.table.uniques, ∀ column ∈ parkingColumn m.table index, row.value column = m.valueOf column := by
  intro index _ column hcolumn
  obtain ⟨hpk, hcodec, -⟩ := parkingColumn_some hcolumn
  exact hrow column (by rwa [h.columns m hm]) hpk

theorem writeRow_received (h : IsGroup node group) (hm : m ∈ group)
    (hwrite : writeRow S db m (db.selectRow m.id).isSome = .ok db') : Received m (writeItemVersion db' m) where
  row := by
    obtain ⟨row, hrow, hcarries⟩ := writeRow_carries (h.kept m hm) hwrite
    exact ⟨row, hrow, hcarries, h.unparked hm hcarries⟩
  version := by
    rw [readVersion_writeItemVersion]
    exact if_pos rfl

/-- What a member has received stays when the others are written. -/
theorem Received.frame (h : Received m db) (hrow : db'.selectRow m.id = db.selectRow m.id)
    (hversion : db'.readVersion m.table.name m.hash = db.readVersion m.table.name m.hash) : Received m db' where
  row := by
    obtain ⟨row, hthere, hcarries⟩ := h.row
    exact ⟨row, hrow.trans hthere, hcarries⟩
  version := hversion.trans h.version

theorem writeGroup_received (h : IsGroup node group)
    (hthere : ∀ m ∈ group, (before.selectRow m.id).isSome = (db.selectRow m.id).isSome)
    (hwrite : writeGroup S before db group = .ok db') :
    (∀ m ∈ group, Received m db') ∧ (∀ id, (∀ m ∈ group, m.id ≠ id) → db'.selectRow id = db.selectRow id) ∧
      ∀ t k, (∀ m ∈ group, m.itemKey ≠ (t, k)) → db'.readVersion t k = db.readVersion t k := by
  induction group generalizing db with
  | nil =>
      cases hwrite
      exact ⟨nofun, fun _ _ => rfl, fun _ _ _ => rfl⟩
  | cons item group ih =>
      simp only [writeGroup] at hwrite
      split at hwrite
      · cases hwrite
      next db₁ hrow =>
      have hids := List.nodup_cons.mp (List.map_cons ▸ h.ids)
      have hkeys := List.nodup_cons.mp (List.map_cons ▸ h.keys)
      have hother : ∀ m ∈ group, m.id ≠ item.id := fun m hm heq => hids.1 (heq ▸ List.mem_map_of_mem hm)
      have hkept := h.kept item List.mem_cons_self
      have hrow' : writeRow S db item (db.selectRow item.id).isSome = .ok db₁ := by
        rwa [← hthere item List.mem_cons_self]
      obtain ⟨hreceived, hframe, hversions⟩ := ih h.tail (fun m hm => by
        rw [hthere m (List.mem_cons_of_mem _ hm), selectRow_writeItemVersion,
          writeRow_selectRow_ne hkept hrow (hother m hm)]) hwrite
      refine ⟨fun m hm => ?_, fun id hid => ?_, fun t k hk => ?_⟩
      · rcases List.mem_cons.mp hm with rfl | hm
        · refine (writeRow_received h List.mem_cons_self hrow').frame (hframe m.id hother) ?_
          exact hversions _ _ fun m' hm' heq => hkeys.1 (List.mem_map.mpr ⟨m', hm', heq⟩)
        · exact hreceived m hm
      · rw [hframe id fun m hm => hid m (List.mem_cons_of_mem _ hm), selectRow_writeItemVersion,
          writeRow_selectRow_ne hkept hrow (hid item List.mem_cons_self).symm]
      · rw [hversions t k fun m hm => hk m (List.mem_cons_of_mem _ hm), readVersion_writeItemVersion,
          if_neg (hk item List.mem_cons_self).symm, Database.readVersion_congr (writeRow_registry hrow).1]

/-! ### What a pass collects -/

theorem examineIndex_table {p : Pass} {g : Group} {table : TableInfo} (hb : ∀ i ∈ items, Built node i)
    (hcol : ∀ i ∈ p.colliding, i ∈ items) (hm : m ∈ items ∧ m.table = table)
    (h : ∀ c ∈ g.members, c.table = table) : ∀ c ∈ (examineIndex node p m g index).members, c.table = table := by
  simp only [examineIndex]
  split
  · exact h
  split
  · exact h
  split
  · exact h
  split
  · exact h
  next partner hpending =>
  split
  · intro c hc
    rcases List.mem_append.mp hc with hold | hnew
    · exact h c hold
    · obtain ⟨hmem, hkey⟩ := pendingOf_some hpending
      rw [List.mem_singleton.mp hnew, ← hm.2]
      exact (hb partner (hcol partner hmem)).table_eq (hb m hm.1) (Prod.mk.inj hkey).1
  · exact h

/-- The rows that collide only with each other are a group. -/
theorem collectGroup_isGroup {p : Pass} {entry : WorkItem} {blocker : UniqueIndex × List String}
    (hcatalog : ∀ table ∈ node.catalog, table.columns = table.codec.map CodecColumn.name)
    (hb : ∀ i ∈ items, Built node i) (hcol : ∀ i ∈ p.colliding, i ∈ items) (he : entry ∈ items)
    (hd : entry.deleted = false) : IsGroup node (collectGroup node p entry blocker).members := by
  have hgroup : GroupInv items (collectGroup node p entry blocker) := collectGroup_inv hb hcol he hd
  have htable : ∀ m ∈ (collectGroup node p entry blocker).members, m.table = entry.table := by
    have hgrow : ∀ fuel cursor (g : Group), GroupInv items g → (∀ m ∈ g.members, m.table = entry.table) →
        ∀ m ∈ (growGroup node p fuel cursor g).members, m.table = entry.table := by
      intro fuel
      induction fuel with
      | zero => exact fun _ _ _ h => h
      | succ fuel ih =>
          intro cursor g hinv h
          simp only [growGroup]
          split
          · exact h
          split
          · exact h
          next member hmember =>
          have hmem := List.mem_of_getElem? hmember
          obtain ⟨⟨-, hinv'⟩, htable'⟩ := foldl_invariant (f := examineIndex node p member)
            (P := fun g' => (member ∈ g'.members ∧ GroupInv items g') ∧ ∀ m ∈ g'.members, m.table = entry.table)
            (fun _ _ _ h' => ⟨examineIndex_inv hb hcol h'.1,
              examineIndex_table hb hcol ⟨h'.1.2.subset _ h'.1.1, h'.2 _ h'.1.1⟩ h'.2⟩) ⟨⟨hmem, hinv⟩, h⟩
          exact ih (cursor + 1) _ hinv' htable'
    exact hgrow _ _ _ ⟨by simpa using he, by simpa using hd, by simp⟩ (by simp)
  refine ⟨fun a ha b hb' => (htable a ha).trans (htable b hb').symm, fun m hm => ?_, fun m hm => ?_, hgroup.kept, ?_⟩
  · exact hcatalog m.table (List.mem_of_find?_eq_some (hb m (hgroup.subset m hm)).table)
  · exact (hb m (hgroup.subset m hm)).hash
  · -- the keys of one table differ in their hashes
    refine List.Nodup.map_on (fun a ha b hb' heq => ?_) hgroup.nodup.of_map
    exact List.inj_on_of_nodup_map hgroup.nodup ha hb' (Prod.ext (congrArg TableInfo.name ((htable a ha).trans (htable b hb').symm)) heq)

/-! ### The group -/

/-- The ways that a group can go: rolled back, or stopped and committed, or applied. -/
theorem applyGroup_cases (S : Schema) (fault : Option ℕ) (draws : Draws) (db : Database) (group : List WorkItem) :
    applyGroup S fault draws db group = (false, db) ∨
    (fault = none ∧ (∀ m ∈ group, isNewer m.rowVersion (db.readVersion m.table.name m.hash) = true) ∧
      ((∃ db', parkGroup S draws db db group = .ok (false, db') ∧ applyGroup S fault draws db group = (false, db')) ∨
        ∃ db₁ db', parkGroup S draws db db group = .ok (true, db₁) ∧ writeGroup S db db₁ group = .ok db' ∧
          applyGroup S fault draws db group = (true, db'))) := by
  simp only [applyGroup]
  split
  · exact .inl rfl
  next hfault =>
  split
  · exact .inl rfl
  next hall =>
  have hnew : ∀ m ∈ group, isNewer m.rowVersion (db.readVersion m.table.name m.hash) = true := by simpa using hall
  have hnone : fault = none := by simpa using hfault
  split
  · exact .inl rfl
  · next db' hpark => exact .inr ⟨hnone, hnew, .inl ⟨db', hpark, rfl⟩⟩
  · next db₁ hpark =>
    split
    · exact .inl rfl
    · next db' hwrite => exact .inr ⟨hnone, hnew, .inr ⟨db₁, db', hpark, hwrite, rfl⟩⟩

/-! ### Two seats -/

/-- `seats`: each has a place, and a student who has no other. -/
def seats : TableInfo where
  name := "seats"
  columns := ["id", "place", "student_id"]
  pk := ["id"]
  codec := [⟨"id", .string⟩, ⟨"place", .number⟩, ⟨"student_id", .string⟩]
  uniques := [⟨"seats_place_key", ["place"]⟩, ⟨"seats_student_id_key", ["student_id"]⟩]
  rank := 1
  createdAtColumn := none
  fkColumns := ["student_id"]
  maxLength := [("id", 36), ("student_id", 36)]

/-- Nothing is refused but what the indexes refuse. -/
def seatSchema : Schema := ⟨[], fun _ _ => none⟩

def seatNode : Node := { reminderNode with catalog := [seats], schema := seatSchema }

def seatRow (id : String) (place : ℤ) (student : String) : Row :=
  [("id", .string id), ("place", .number place), ("student_id", .string student)]

def seatChange (id : String) (place : ℤ) (student : String) : WorkItem :=
  change seats [id] 2 (some [.string id, .number place, .string student])

/-- Two seats, at the places 1 and 2. -/
def seatDatabase : Database where
  rows := Table.ofList [(⟨"seats", ["s1"]⟩, seatRow "s1" 1 "anna"), (⟨"seats", ["s2"]⟩, seatRow "s2" 2 "ben")]
  registry := ∅
  nextSeq := 0

/-- They change places. -/
def seatSwap : List WorkItem := [seatChange "s1" 2 "anna", seatChange "s2" 1 "ben"]

theorem seatSwap_isGroup : IsGroup seatNode seatSwap := by
  refine ⟨?_, ?_, ?_, ?_, by decide⟩ <;> simp [seatSwap, seatChange, change, seats, seatNode, reminderNode]

/-! ### As a whole -/

/-- **A group is applied as a whole or not at all exactly when it does not stop halfway.** -/
theorem applyGroup_asWhole_iff (node : Node) (S : Schema) (fault : Option ℕ) (draws : Draws) (db : Database)
    (group : List WorkItem) (h : IsGroup node group) :
    AsWhole group db (applyGroup S fault draws db group) ↔ ¬ StopsHalfway S fault draws db group := by
  have hstop : ∀ {db'}, parkGroup S draws db db group = .ok (false, db') ↔
      ∃ m, group.find? (fun m => (db.selectRow m.id).isSome) = some m ∧
        parkMember S draws db m m.table.uniques = .ok (false, db') := parkGroup_false h.table
  constructor
  · rintro hwhole ⟨hfault, hnew, m, indexes, index, rest, db', hfind, huniques, hnone, hparked, hchanged⟩
    have hpark := hstop.mpr ⟨m, hfind, parkMember_false.mpr ⟨indexes, index, rest, huniques, hnone, hparked⟩⟩
    have hnewer : ¬ (group.any fun item => !isNewer item.rowVersion (db.readVersion item.table.name item.hash)) = true := by
      simpa using hnew
    have hresult : applyGroup S fault draws db group = (false, db') := by
      simp only [applyGroup, hfault, hpark, if_neg hnewer]
      rfl
    rw [hresult] at hwhole
    exact hchanged ((hwhole.notApplied rfl).1 m.id)
  · intro hnot
    rcases applyGroup_cases S fault draws db group with hback | ⟨hfault, hnew, ⟨db', hpark, hresult⟩ | ⟨db₁, db', hpark, hwrite, hresult⟩⟩
    · rw [hback]
      exact ⟨fun _ => ⟨fun _ => rfl, rfl⟩, nofun⟩
    · rw [hresult]
      refine ⟨fun _ => ⟨fun id => ?_, parkGroup_registry hpark⟩, nofun⟩
      obtain ⟨m, hfind, hmember⟩ := hstop.mp hpark
      obtain ⟨indexes, index, rest, huniques, hnone, hparked⟩ := parkMember_false.mp hmember
      by_cases hid : id = m.id
      · -- what was parked of the row did not change it
        by_contra hchanged
        exact hnot ⟨hfault, hnew, m, indexes, index, rest, db', hfind, huniques, hnone, hparked, hid ▸ hchanged⟩
      · exact hparked.frame.2.1 id hid
    · rw [hresult]
      refine ⟨nofun, fun _ => ?_⟩
      obtain ⟨hothers, hthere⟩ := parkGroup_frame hpark
      obtain ⟨hreceived, hframe, -⟩ := writeGroup_received h (fun m _ => (hthere m.id).symm) hwrite
      exact ⟨hreceived, fun id hid => (hframe id hid).trans (hothers id hid)⟩

/-- Where only the places are unique, two seats change theirs. -/
theorem applyGroup_asWhole_places :
    let group := seatSwap.map fun m => { m with table := { m.table with uniques := m.table.uniques.take 1 } }
    AsWhole group seatDatabase (applyGroup seatSchema none (fun _ _ _ => 0) seatDatabase group) := by
  refine (applyGroup_asWhole_iff seatNode _ _ _ _ _ ?_).mpr ?_
  · refine ⟨?_, ?_, ?_, ?_, by decide⟩ <;> simp [seatSwap, seatChange, change, seats, seatNode, reminderNode]
  · rintro ⟨-, -, m, indexes, index, rest, db', hfind, huniques, hnone, -⟩
    have hmem := List.mem_of_find?_eq_some hfind
    have hcolumn : ∀ m ∈ seatSwap.map fun m => { m with table := { m.table with uniques := m.table.uniques.take 1 } },
        ∀ index ∈ m.table.uniques, parkingColumn m.table index ≠ none := by decide
    exact hcolumn m hmem index (by simp [huniques]) hnone

/-- A student cannot be parked, so the group is not applied, but the first seat is left at a place that nobody sent. -/
theorem applyGroup_leaves_parked : IsGroup seatNode seatSwap ∧
    ¬ AsWhole seatSwap seatDatabase (applyGroup seatSchema none (fun _ _ _ => 0) seatDatabase seatSwap) := by
  refine ⟨seatSwap_isGroup, fun h => ?_⟩
  have hout : (applyGroup seatSchema none (fun _ _ _ => 0) seatDatabase seatSwap).1 = false ∧
      (applyGroup seatSchema none (fun _ _ _ => 0) seatDatabase seatSwap).2.selectRow ⟨"seats", ["s1"]⟩ =
        some (seatRow "s1" (-100000000) "anna") := by decide +kernel
  have hsame := (h.notApplied hout.1).1 ⟨"seats", ["s1"]⟩
  rw [hout.2] at hsame
  exact absurd hsame (by decide +kernel)

end Pokyh.Cluster

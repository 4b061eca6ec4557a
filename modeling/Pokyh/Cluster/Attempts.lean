import Pokyh.Cluster.Applier

/-!
# Cluster — Attempts

What one change can do to the database: the spec lemmas of `writeRow` and `attempt`.

* `attempt_cases`: an attempt leaves the database alone, or it is applied, and then it wrote its
  row and its version.
* `Grows`: no stored version gets older.  Every write of the applier has this property, because
  it compares versions first (`attempt_grows`).
-/

namespace Pokyh.Cluster
open Pokyh.Lib

variable {S : Schema} {db db' : Database} {item : WorkItem} {present : Bool} {fault : Option ℕ}

/-! ### Writing a row -/

theorem writeRow_registry (h : writeRow S db item present = .ok db') :
    db'.registry = db.registry ∧ db'.nextSeq = db.nextSeq := by
  unfold writeRow at h
  cases hr : item.row with
  | none =>
      rw [hr] at h
      cases h
      cases present <;> exact ⟨rfl, rfl⟩
  | some row =>
      rw [hr] at h
      simp only at h
      split at h
      · exact insertRow_registry h
      · split at h
        · cases h; exact ⟨rfl, rfl⟩
        · exact updateRow_registry h

theorem writeRow_deletion (hd : item.deleted = true) :
    writeRow S db item present = .ok (if present then deleteRow S db item.id else db) := by
  rw [writeRow, WorkItem.row_eq_none_iff.mpr hd]

/-- Deleting a row that is not there is nothing. -/
theorem writeRow_deletion_eq (hd : item.deleted = true) :
    writeRow S db item (db.selectRow item.id).isSome = .ok (deleteRow S db item.id) := by
  rw [writeRow_deletion hd]
  cases hs : db.selectRow item.id with
  | none => rw [deleteRow_of_absent hs]; rfl
  | some row => rfl

theorem writeRow_insert {row : Row} (hr : item.row = some row) :
    writeRow S db item false = insertRow S db item.table item.key row := by
  simp [writeRow, hr]

theorem writeRow_update {row : Row} (hr : item.row = some row) :
    writeRow S db item true =
      if item.table.columns.all (· ∈ item.table.pk) then .ok db
      else updateRow S db item.table item.key row := by
  simp [writeRow, hr]

theorem WorkItem.id_eq (item : WorkItem) : item.id = ⟨item.table.name, item.key⟩ := rfl

theorem exists_row (hd : item.deleted = false) : ∃ row, item.row = some row := by
  rw [← Option.isSome_iff_exists, item.row_isSome, hd]
  rfl

/-- Writing a row that is not a deletion leaves every other row as it is. -/
theorem writeRow_selectRow_ne (hd : item.deleted = false) (h : writeRow S db item present = .ok db')
    {id : RowId} (hne : id ≠ item.id) : db'.selectRow id = db.selectRow id := by
  obtain ⟨row, hr⟩ := exists_row hd
  rw [WorkItem.id_eq] at hne
  cases present with
  | false =>
      rw [writeRow_insert hr] at h
      rw [insertRow_selectRow h, if_neg hne]
  | true =>
      rw [writeRow_update hr] at h
      split at h
      · cases h; rfl
      · rw [updateRow_selectRow h, if_neg hne]

theorem overwrite_value {table : TableInfo} {old new : Row} {column : String}
    (hc : column ∉ table.pk) : (overwrite table old new).value column = new.value column := by
  unfold overwrite Row.value
  induction new with
  | nil => rfl
  | cons entry new ih =>
      rw [List.map_cons]
      by_cases hn : entry.1 = column
      · rw [if_neg (by rwa [hn]), List.find?_cons_of_pos (by simpa using hn),
          List.find?_cons_of_pos (by simpa using hn)]
      · rw [List.find?_cons_of_neg (by split <;> simpa using hn),
          List.find?_cons_of_neg (by simpa using hn)]
        exact ih

/-- `row` is what the item carries: the received value in every column outside the key. -/
def WorkItem.Carries (item : WorkItem) (row : Row) : Prop :=
  ∀ column ∈ item.table.columns, column ∉ item.table.pk → row.value column = item.valueOf column

/-- A row that is written with its presence read correctly is there afterwards, as received. -/
theorem writeRow_carries (hd : item.deleted = false)
    (h : writeRow S db item (db.selectRow item.id).isSome = .ok db') :
    ∃ row, db'.selectRow item.id = some row ∧ item.Carries row := by
  obtain ⟨row, hr⟩ := exists_row hd
  have hv : ∀ column, item.valueOf column = row.value column := by
    intro column
    simp [WorkItem.valueOf, hr]
  cases hs : db.selectRow item.id with
  | none =>
      rw [hs] at h
      rw [Option.isSome_none, writeRow_insert hr] at h
      refine ⟨row, ?_, fun column _ _ => (hv column).symm⟩
      rw [insertRow_selectRow h, if_pos item.id_eq]
  | some old =>
      rw [hs, Option.isSome_some, writeRow_update hr] at h
      split at h
      · next hall =>
        cases h
        refine ⟨old, hs, fun column hc hpk => absurd ?_ hpk⟩
        simpa using List.all_eq_true.mp hall column hc
      · refine ⟨overwrite item.table old row, ?_, fun column _ hpk => ?_⟩
        · rw [updateRow_selectRow h, if_pos item.id_eq, hs]
          rfl
        · rw [overwrite_value hpk, hv]

/-- Writing a row that is not a deletion removes no row. -/
theorem writeRow_keeps (hd : item.deleted = false) (h : writeRow S db item present = .ok db')
    {id : RowId} (hs : (db.selectRow id).isSome) : (db'.selectRow id).isSome := by
  by_cases he : id = item.id
  · subst he
    obtain ⟨row, hr⟩ := exists_row hd
    cases present with
    | false =>
        rw [writeRow_insert hr] at h
        rw [insertRow_selectRow h, if_pos item.id_eq]
        rfl
    | true =>
        rw [writeRow_update hr] at h
        split at h
        · cases h; exact hs
        · rw [updateRow_selectRow h, if_pos item.id_eq, Option.isSome_map]
          exact hs
  · rwa [writeRow_selectRow_ne hd h he]

/-! ### One attempt -/

@[simp] theorem selectRow_writeItemVersion {id : RowId} :
    (writeItemVersion db item).selectRow id = db.selectRow id := rfl

theorem readVersion_writeItemVersion {t h : String} :
    (writeItemVersion db item).readVersion t h =
      if (t, h) = item.itemKey then some item.rowVersion else db.readVersion t h :=
  Database.readVersion_writeVersion

theorem classifyWriteError_ne {code : ℕ} :
    classifyWriteError code ≠ .applied ∧ classifyWriteError code ≠ .stale := by
  unfold classifyWriteError
  split_ifs <;> exact ⟨nofun, nofun⟩

/-- What an attempt can do: nothing, with a result other than `applied`, or the item's write. -/
theorem attempt_cases (S : Schema) (fault : Option ℕ) (db : Database) (item : WorkItem) :
    ((attempt S fault db item).2 = db ∧ (attempt S fault db item).1 ≠ .applied ∧
      ((attempt S fault db item).1 = .stale →
        isNewer item.rowVersion (db.readVersion item.table.name item.hash) = false)) ∨
    ((attempt S fault db item).1 = .applied ∧
      isNewer item.rowVersion (db.readVersion item.table.name item.hash) = true ∧
      ∃ db', writeRow S db item (db.selectRow item.id).isSome = .ok db' ∧
        (attempt S fault db item).2 = writeItemVersion db' item) := by
  unfold attempt
  cases fault with
  | some code =>
      exact .inl ⟨rfl, classifyWriteError_ne.1, fun h => absurd h classifyWriteError_ne.2⟩
  | none =>
      simp only [attemptWithin]
      split
      · next hn => exact .inl ⟨rfl, nofun, fun _ => by simpa using hn⟩
      · next hn =>
        split
        · exact .inl ⟨rfl, nofun, nofun⟩
        · split
          · exact .inl ⟨rfl, classifyWriteError_ne.1, fun h => absurd h classifyWriteError_ne.2⟩
          · next db' hw => exact .inr ⟨rfl, by simpa using hn, db', hw, rfl⟩

/-- A collision leaves the database alone; deletions do not collide. -/
theorem attempt_conflict {index : UniqueIndex} {otherKey : List String}
    (h : attempt S fault db item = (.conflict index otherKey, db')) :
    db' = db ∧ item.deleted = false := by
  unfold attempt at h
  cases fault with
  | some code =>
      have := (Prod.mk.inj h).1
      unfold classifyWriteError at this
      split_ifs at this
  | none =>
      simp only [attemptWithin] at h
      split at h
      · cases h
      · split at h
        · next hc =>
          cases h
          refine ⟨rfl, ?_⟩
          cases hd : item.deleted with
          | false => rfl
          | true =>
              rw [findCollision, WorkItem.row_eq_none_iff.mpr hd] at hc
              cases hc
        · split at h
          · next code _ =>
            have := (Prod.mk.inj h).1
            unfold classifyWriteError at this
            split_ifs at this
          · cases h

/-! ### Stored versions only grow -/

/-- Every version stored in `db` is stored in `db'`, or a newer one is. -/
def Grows (db db' : Database) : Prop :=
  ∀ t h v, db.readVersion t h = some v → ∃ w, db'.readVersion t h = some w ∧ v ≤ w

theorem Grows.refl (db : Database) : Grows db db := fun _ _ v hv => ⟨v, hv, le_rfl⟩

theorem Grows.trans {db₁ db₂ db₃ : Database} (h₁ : Grows db₁ db₂) (h₂ : Grows db₂ db₃) :
    Grows db₁ db₃ := by
  intro t h v hv
  obtain ⟨w, hw, hvw⟩ := h₁ t h v hv
  obtain ⟨u, hu, hwu⟩ := h₂ t h w hw
  exact ⟨u, hu, hvw.trans hwu⟩

theorem Grows.of_registry (h : db'.registry = db.registry) : Grows db db' :=
  fun t k v hv => ⟨v, by rw [Database.readVersion_congr h, hv], le_rfl⟩

/-- Storing a version that is newer than the stored one. -/
theorem Grows.writeVersion {t h : String} {key : List String} {version : ℕ} {origin : String}
    {deleted : Bool} {via : Option String}
    (hn : isNewer ⟨version, origin⟩ (db.readVersion t h) = true) :
    Grows db (db.writeVersion t h key version origin deleted via) := by
  intro t' h' v hv
  rw [Database.readVersion_writeVersion]
  split
  · next he =>
    obtain ⟨rfl, rfl⟩ := Prod.mk.inj he
    exact ⟨_, rfl, (isNewer_iff.mp hn v hv).le⟩
  · exact ⟨v, hv, le_rfl⟩

theorem recordChange_grows (db : Database) (nodeId table hash : String) (key : List String)
    (now : ℕ) (deleted : Bool) : Grows db (db.recordChange nodeId table hash key now deleted) :=
  Grows.writeVersion (isNewer_iff.mpr fun _ hc =>
    RowVersion.lt_of_version_lt (Database.lt_nextVersion hc))

/-- Writing an item that is newer than what is stored for its row. -/
theorem Grows.write (hn : isNewer item.rowVersion (db.readVersion item.table.name item.hash) = true)
    (h : writeRow S db item present = .ok db') : Grows db (writeItemVersion db' item) := by
  obtain ⟨hreg, -⟩ := writeRow_registry h
  refine (Grows.of_registry hreg).trans (Grows.writeVersion ?_)
  rwa [Database.readVersion_congr hreg]

theorem attempt_grows (S : Schema) (fault : Option ℕ) (db : Database) (item : WorkItem) :
    Grows db (attempt S fault db item).2 := by
  rcases attempt_cases S fault db item with ⟨h, -⟩ | ⟨-, hn, db', hw, h⟩
  · rw [h]
    exact Grows.refl db
  · rw [h]
    exact Grows.write hn hw

/-- What is stored for a row is at least as new as the item. -/
def Covered (db : Database) (item : WorkItem) : Prop :=
  ∃ w, db.readVersion item.table.name item.hash = some w ∧ item.rowVersion ≤ w

theorem Covered.grows (h : Covered db item) (hg : Grows db db') : Covered db' item := by
  obtain ⟨w, hw, hv⟩ := h
  obtain ⟨u, hu, hwu⟩ := hg _ _ w hw
  exact ⟨u, hu, hv.trans hwu⟩

theorem covered_writeItemVersion : Covered (writeItemVersion db item) item :=
  ⟨item.rowVersion, by rw [readVersion_writeItemVersion]; exact if_pos rfl, le_rfl⟩

theorem covered_of_not_newer
    (h : isNewer item.rowVersion (db.readVersion item.table.name item.hash) = false) :
    Covered db item :=
  isNewer_false_iff.mp h

/-- An item that an attempt answers, applied or stale, is covered. -/
theorem attempt_covers
    (h : (attempt S fault db item).1 = .applied ∨ (attempt S fault db item).1 = .stale) :
    Covered (attempt S fault db item).2 item := by
  rcases attempt_cases S fault db item with ⟨hdb, hna, hst⟩ | ⟨-, -, db', -, hdb⟩
  · rw [hdb]
    exact covered_of_not_newer (hst (h.resolve_left hna))
  · rw [hdb]
    exact covered_writeItemVersion

/-! ### A change from a peer -/

/-- A version of a row from peer `A`; a deletion, without values. -/
def change (table : TableInfo) (key : List String) (version : ℕ) (values : Option (List Value)) :
    WorkItem where
  table
  hash := "#" ++ String.join key
  key
  version
  origin := "A"
  deleted := values.isNone
  values
  fromPeer := "A"
  wire := ⟨table.columns, ⟨"#" ++ String.join key, key, version, "A", values.isNone, none⟩⟩
  deferred := none
  slot := none
  values_isSome := by cases values <;> rfl

/-- A node with the tables `reminders` and `comments`, that hashes a key by its text. -/
def reminderNode : Node where
  nodeId := "R"
  catalog := [reminders, comments]
  schema := reminderSchema
  computePkHash key := "#" ++ String.join key
  decodeValue
    | _, .string text => some (.string text)
    | _, _ => none
  deferredMaxAgeMs := 1000

/-- A version of a comment, pushed on its own. -/
def commentPush (id : String) (version : ℕ) (origin : String) (reminder body : String) :
    List WireTableBatch :=
  [⟨"comments", comments.columns, [⟨"#" ++ id, [id], version, origin, false,
    some [.string id, .string reminder, .string body]⟩]⟩]

end Pokyh.Cluster

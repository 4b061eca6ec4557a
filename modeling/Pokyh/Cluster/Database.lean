import Pokyh.Cluster.Codec
import Pokyh.Lib.Tables

/-!
# Cluster — Database

The part of a node's database that replication reads and writes: the rows of the replicated
tables, with their foreign keys and unique indexes, and the version registry
(`cluster_row_state`).  The catalog's description of a table (`TableInfo`) is the source's.

A row is found by its table and the text of its primary key; it is the list of its columns and
values.  A statement either fails with MySQL's error number and changes nothing, or gives the
database after it:

* `deleteRow`: `DELETE` by key.  The rows that refer to a deleted row through a foreign key with
  `ON DELETE CASCADE` go with it, and theirs in turn; a row that stays loses what it refers to
  through a key with `ON DELETE SET NULL`.
* `insertRow`: `INSERT`.
* `updateRow`: `UPDATE` of the columns outside the key; an absent key changes zero rows.

`Schema.valueError` is MySQL's check of a value against its column type; nothing here depends on
what it refuses.
-/

namespace Pokyh.Cluster
open Pokyh.Lib

/-! ### Tables and rows -/

structure UniqueIndex where
  name : String
  columns : List String
  deriving DecidableEq, Repr

structure TableInfo where
  name : String
  columns : List String
  pk : List String
  codec : List CodecColumn
  uniques : List UniqueIndex
  /-- Parents sort before children. -/
  rank : ℕ
  createdAtColumn : Option String
  fkColumns : List String
  maxLength : List (String × ℕ)
  deriving DecidableEq, Repr

inductive OnDelete where
  | cascade | setNull
  deriving DecidableEq, Repr

structure ForeignKey where
  table : String
  columns : List String
  parent : String
  parentColumns : List String
  onDelete : OnDelete
  deriving DecidableEq, Repr

/-- The columns of a row and their values, in table column order. -/
abbrev Row := List (String × Value)

namespace Row

def value (row : Row) (column : String) : Option Value :=
  (row.find? fun entry => entry.1 = column).map Prod.snd

/-- The values of some columns; none of them, if one is `NULL` or not a column of the row. -/
def values (row : Row) : List String → Option (List Value)
  | [] => some []
  | column :: columns =>
      match row.value column, values row columns with
      | some v, some vs => if v = .null then none else some (v :: vs)
      | _, _ => none

/-- One column set to a value. -/
def set (row : Row) (column : String) (v : Value) : Row :=
  row.map fun entry => if entry.1 = column then (column, v) else entry

end Row

structure RowId where
  table : String
  key : List String
  deriving DecidableEq, Repr

structure Schema where
  foreignKeys : List ForeignKey
  valueError : TableInfo → Row → Option ℕ

/-- A line of the version registry, and its place in the change feed. -/
structure VersionRecord where
  pk : List String
  version : ℕ
  origin : String
  via : Option String
  deleted : Bool
  seq : ℕ
  deriving DecidableEq, Repr

def VersionRecord.rowVersion (r : VersionRecord) : RowVersion := ⟨r.version, r.origin⟩

structure Database where
  rows : Table RowId Row
  /-- By table name and key hash. -/
  registry : Table (String × String) VersionRecord
  /-- The position `UUID_SHORT()` hands out next. -/
  nextSeq : ℕ

namespace Database

def selectRow (db : Database) (id : RowId) : Option Row := db.rows.lookup id

def record (db : Database) (table hash : String) : Option VersionRecord :=
  db.registry.lookup (table, hash)

def readVersion (db : Database) (table hash : String) : Option RowVersion :=
  (db.record table hash).map VersionRecord.rowVersion

/-- Stores a row's version and moves it to the end of the change feed. -/
def writeVersion (db : Database) (table hash : String) (key : List String) (version : ℕ)
    (origin : String) (deleted : Bool) (via : Option String) : Database :=
  { db with
    registry := db.registry.insert (table, hash) ⟨key, version, origin, via, deleted, db.nextSeq⟩
    nextSeq := db.nextSeq + 1 }

/-- `GREATEST(version + 1, now)`, or `now` for a row without a version. -/
def nextVersion (stored : Option RowVersion) (now : ℕ) : ℕ :=
  match stored with
  | none => now
  | some v => max (v.version + 1) now

theorem lt_nextVersion {stored : Option RowVersion} {now : ℕ} {v : RowVersion}
    (h : stored = some v) : v.version < nextVersion stored now := by
  simp only [h, nextVersion]
  exact (Nat.lt_succ_self _).trans_le (le_max_left _ _)

/-- The capture triggers' `recordStatements`: a local write of a row, at the time `now`. -/
def recordChange (db : Database) (nodeId table hash : String) (key : List String) (now : ℕ)
    (deleted : Bool) : Database :=
  db.writeVersion table hash key (nextVersion (db.readVersion table hash) now) nodeId deleted none

end Database

/-! ### Foreign keys and unique indexes -/

/-- The row of table `child` refers to the row of table `parent`. -/
def ForeignKey.references (fk : ForeignKey) (child : RowId × Row) (parent : RowId × Row) : Bool :=
  child.1.table = fk.table && parent.1.table = fk.parent &&
    match child.2.values fk.columns with
    | none => false
    | some vs => parent.2.values fk.parentColumns = some vs

/-- The row needs a parent through `fk`, and `rows` has none. -/
def ForeignKey.unmet (fk : ForeignKey) (rows : Table RowId Row) (child : RowId × Row) : Bool :=
  child.1.table = fk.table && (child.2.values fk.columns).isSome &&
    !rows.toList.any fun parent => fk.references child parent

/-- The key of a different row of the table that holds the row's values of the index. -/
def otherHolder (rows : Table RowId Row) (id : RowId) (row : Row) (index : UniqueIndex) :
    Option (List String) :=
  match row.values index.columns with
  | none => none
  | some vs =>
      (rows.toList.find? fun other =>
        other.1.table = id.table && other.1.key ≠ id.key &&
          other.2.values index.columns = some vs).map fun other => other.1.key

/-! ### Statements -/

def dupEntry : ℕ := 1062
def noReferencedRow : ℕ := 1452
def rowIsReferenced : ℕ := 1451

/-- The error that keeps `row` from being stored at `id`, given the other rows of the table and
the rows there are afterwards. -/
def storeError (S : Schema) (table : TableInfo) (rows after : Table RowId Row) (id : RowId)
    (row : Row) : Option ℕ :=
  match S.valueError table row with
  | some code => some code
  | none =>
      if table.uniques.any fun index => (otherHolder rows id row index).isSome then some dupEntry
      else if S.foreignKeys.any fun fk => fk.unmet after (id, row) then some noReferencedRow
      else none

def insertRow (S : Schema) (db : Database) (table : TableInfo) (key : List String) (row : Row) :
    Except ℕ Database :=
  let id : RowId := ⟨table.name, key⟩
  let after := db.rows.insert id row
  if (db.selectRow id).isSome then .error dupEntry
  else
    match storeError S table db.rows after id row with
    | some code => .error code
    | none => .ok { db with rows := after }

/-- The row after an `UPDATE`: its key columns stay, the others take the new values. -/
def overwrite (table : TableInfo) (old new : Row) : Row :=
  new.map fun entry => if entry.1 ∈ table.pk then (entry.1, (old.value entry.1).getD entry.2) else entry

/-- A row refers to values that `old` offers and `new` no longer does. -/
def strands (S : Schema) (rows : Table RowId Row) (id : RowId) (old new : Row) : Bool :=
  S.foreignKeys.any fun fk =>
    rows.toList.any fun child => fk.references child (id, old) && !fk.references child (id, new)

def updateRow (S : Schema) (db : Database) (table : TableInfo) (key : List String) (row : Row) :
    Except ℕ Database :=
  let id : RowId := ⟨table.name, key⟩
  match db.selectRow id with
  | none => .ok db
  | some old =>
      let new := overwrite table old row
      let after := db.rows.insert id new
      match storeError S table db.rows after id new with
      | some code => .error code
      | none => if strands S after id old new then .error rowIsReferenced
                else .ok { db with rows := after }

/-- The rows of `doomed`, and those that go because they refer to one of them. -/
def spread (S : Schema) (rows doomed : List (RowId × Row)) : List (RowId × Row) :=
  rows.filter fun row => row ∈ doomed ||
    S.foreignKeys.any fun fk =>
      fk.onDelete = .cascade && doomed.any fun parent => fk.references row parent

/-- The rows a `DELETE` of `id` removes. -/
def doomed (S : Schema) (rows : Table RowId Row) (id : RowId) : List (RowId × Row) :=
  (spread S rows.toList)^[rows.entries.length] (rows.toList.filter fun row => row.1 = id)

/-- A row without its references to rows that are gone. -/
def unlink (S : Schema) (gone : List (RowId × Row)) (id : RowId) (row : Row) : Row :=
  S.foreignKeys.foldl (fun row fk =>
    if fk.onDelete = .setNull && gone.any fun parent => fk.references (id, row) parent then
      fk.columns.foldl (fun row column => row.set column .null) row
    else row) row

def deleteRow (S : Schema) (db : Database) (id : RowId) : Database :=
  let gone := doomed S db.rows id
  { db with
    rows := (db.rows.keep fun id row => (id, row) ∉ gone).adjust fun id row => unlink S gone id row }

/-! ### What a statement does to the registry and to the other rows -/

namespace Database

@[simp] theorem record_writeVersion {db : Database} {table hash : String} {key : List String}
    {version : ℕ} {origin : String} {deleted : Bool} {via : Option String} {t h : String} :
    (db.writeVersion table hash key version origin deleted via).record t h =
      if (t, h) = (table, hash) then some ⟨key, version, origin, via, deleted, db.nextSeq⟩
      else db.record t h :=
  Table.lookup_insert_of

@[simp] theorem selectRow_writeVersion {db : Database} {table hash : String} {key : List String}
    {version : ℕ} {origin : String} {deleted : Bool} {via : Option String} {id : RowId} :
    (db.writeVersion table hash key version origin deleted via).selectRow id = db.selectRow id :=
  rfl

@[simp] theorem rows_writeVersion {db : Database} {table hash : String} {key : List String}
    {version : ℕ} {origin : String} {deleted : Bool} {via : Option String} :
    (db.writeVersion table hash key version origin deleted via).rows = db.rows := rfl

theorem readVersion_writeVersion {db : Database} {table hash : String} {key : List String}
    {version : ℕ} {origin : String} {deleted : Bool} {via : Option String} {t h : String} :
    (db.writeVersion table hash key version origin deleted via).readVersion t h =
      if (t, h) = (table, hash) then some ⟨version, origin⟩ else db.readVersion t h := by
  unfold readVersion
  rw [record_writeVersion]
  split <;> rfl

/-- The key hashes of a table's lines are distinct. -/
theorem nodup_hash {db : Database} {table : String}
    {lines : List ((String × String) × VersionRecord)} (hl : lines.Sublist db.registry.toList)
    (ht : ∀ line ∈ lines, line.1.1 = table) : (lines.map fun line => line.1.2).Nodup := by
  have hkeys := Table.nodup_toList db.registry
  refine List.Nodup.map_on (fun a ha b hb h => ?_) (hl.nodup (List.Nodup.of_map _ hkeys))
  exact List.inj_on_of_nodup_map hkeys (hl.subset ha) (hl.subset hb)
    (Prod.ext ((ht a ha).trans (ht b hb).symm) h)

theorem readVersion_congr {db db' : Database} (h : db'.registry = db.registry) (t k : String) :
    db'.readVersion t k = db.readVersion t k := by
  simp [readVersion, record, h]

end Database

variable {S : Schema} {db db' : Database} {table : TableInfo} {key : List String} {row : Row}
  {id : RowId}

theorem insertRow_ok (h : insertRow S db table key row = .ok db') :
    db.selectRow ⟨table.name, key⟩ = none ∧
      storeError S table db.rows (db.rows.insert ⟨table.name, key⟩ row) ⟨table.name, key⟩ row = none ∧
      db' = { db with rows := db.rows.insert ⟨table.name, key⟩ row } := by
  unfold insertRow at h
  simp only at h
  split at h
  · cases h
  · next hs =>
    split at h
    · cases h
    · next he =>
      cases h
      exact ⟨by simpa using hs, he, rfl⟩

theorem insertRow_of_present (h : (db.selectRow ⟨table.name, key⟩).isSome) :
    insertRow S db table key row = .error dupEntry := by
  simp [insertRow, h]

theorem updateRow_of_absent (h : db.selectRow ⟨table.name, key⟩ = none) :
    updateRow S db table key row = .ok db := by
  simp [updateRow, h]

theorem updateRow_ok {old : Row} (hold : db.selectRow ⟨table.name, key⟩ = some old)
    (h : updateRow S db table key row = .ok db') :
    storeError S table db.rows (db.rows.insert ⟨table.name, key⟩ (overwrite table old row))
        ⟨table.name, key⟩ (overwrite table old row) = none ∧
      db' = { db with rows := db.rows.insert ⟨table.name, key⟩ (overwrite table old row) } := by
  unfold updateRow at h
  simp only [hold] at h
  split at h
  · cases h
  · next he =>
    split at h
    · cases h
    · cases h
      exact ⟨he, rfl⟩

theorem insertRow_registry (h : insertRow S db table key row = .ok db') :
    db'.registry = db.registry ∧ db'.nextSeq = db.nextSeq := by
  obtain ⟨-, -, rfl⟩ := insertRow_ok h
  exact ⟨rfl, rfl⟩

theorem updateRow_registry (h : updateRow S db table key row = .ok db') :
    db'.registry = db.registry ∧ db'.nextSeq = db.nextSeq := by
  cases hold : db.selectRow ⟨table.name, key⟩ with
  | none => rw [updateRow_of_absent hold] at h; cases h; exact ⟨rfl, rfl⟩
  | some old => obtain ⟨-, rfl⟩ := updateRow_ok hold h; exact ⟨rfl, rfl⟩

@[simp] theorem deleteRow_registry : (deleteRow S db id).registry = db.registry := rfl

theorem insertRow_selectRow (h : insertRow S db table key row = .ok db') :
    db'.selectRow id = if id = ⟨table.name, key⟩ then some row else db.selectRow id := by
  obtain ⟨-, -, rfl⟩ := insertRow_ok h
  exact Table.lookup_insert_of

theorem updateRow_selectRow (h : updateRow S db table key row = .ok db') :
    db'.selectRow id =
      if id = ⟨table.name, key⟩ then (db.selectRow id).map fun old => overwrite table old row
      else db.selectRow id := by
  cases hold : db.selectRow ⟨table.name, key⟩ with
  | none =>
      rw [updateRow_of_absent hold] at h
      cases h
      split
      · next he => rw [he, hold]; rfl
      · rfl
  | some old =>
      obtain ⟨-, rfl⟩ := updateRow_ok hold h
      refine Table.lookup_insert_of.trans ?_
      split
      · next he => rw [he, hold]; rfl
      · rfl

/-! ### Deletion -/

theorem mem_spread {rows gone : List (RowId × Row)} {e : RowId × Row} :
    e ∈ spread S rows gone ↔ e ∈ rows ∧ (e ∈ gone ∨ ∃ fk ∈ S.foreignKeys,
      fk.onDelete = .cascade ∧ ∃ parent ∈ gone, fk.references e parent = true) := by
  simp [spread]

theorem doomed_subset {rows : Table RowId Row} {e : RowId × Row} (h : e ∈ doomed S rows id) :
    e ∈ rows.toList := by
  have key : ∀ n, ∀ e ∈ (spread S rows.toList)^[n] (rows.toList.filter fun row => row.1 = id),
      e ∈ rows.toList := by
    intro n
    cases n with
    | zero => intro e he; exact (List.mem_filter.mp he).1
    | succ n =>
        intro e he
        rw [Function.iterate_succ_apply'] at he
        exact (mem_spread.mp he).1
  exact key _ e h

/-- The row itself is among those its deletion removes. -/
theorem mem_doomed {rows : Table RowId Row} (h : rows.lookup id = some row) :
    (id, row) ∈ doomed S rows id := by
  have hm := Table.mem_toList.mpr h
  have key : ∀ n,
      (id, row) ∈ (spread S rows.toList)^[n] (rows.toList.filter fun row => row.1 = id) := by
    intro n
    induction n with
    | zero => exact List.mem_filter.mpr ⟨hm, by simp⟩
    | succ n ih =>
        rw [Function.iterate_succ_apply']
        exact mem_spread.mpr ⟨hm, .inl ih⟩
  exact key _

theorem doomed_of_absent {rows : Table RowId Row} (h : rows.lookup id = none) :
    doomed S rows id = [] := by
  have h₀ : (rows.toList.filter fun row => decide (row.1 = id)) = [] := by
    rw [List.filter_eq_nil_iff]
    rintro ⟨id', row⟩ hm he
    obtain rfl : id' = id := by simpa using he
    rw [Table.mem_toList.mp hm] at h
    cases h
  have key : ∀ n, (spread S rows.toList)^[n] [] = [] := by
    intro n
    induction n with
    | zero => rfl
    | succ n ih => rw [Function.iterate_succ_apply', ih]; simp [spread]
  rw [doomed, h₀, key]

theorem unlink_nil (row : Row) : unlink S [] id row = row := by
  unfold unlink
  induction S.foreignKeys with
  | nil => rfl
  | cons fk fks ih => simp

theorem deleteRow_of_absent (h : db.selectRow id = none) : deleteRow S db id = db := by
  have h₁ : (db.rows.keep fun id row => decide ((id, row) ∉ ([] : List (RowId × Row)))) = db.rows :=
    Table.keep_eq_self (by simp)
  unfold deleteRow
  rw [doomed_of_absent h]
  dsimp only
  rw [h₁, Table.adjust_eq_self fun e _ => unlink_nil e.2]

/-- A row after a deletion was there before, and is it up to references set to `NULL`. -/
theorem deleteRow_selectRow_some {id' : RowId} (h : (deleteRow S db id').selectRow id = some row) :
    ∃ old, db.selectRow id = some old ∧ row = unlink S (doomed S db.rows id') id old ∧
      (id, old) ∉ doomed S db.rows id' := by
  unfold deleteRow Database.selectRow at h
  rw [Table.lookup_adjust, Option.map_eq_some_iff] at h
  obtain ⟨old, hk, rfl⟩ := h
  obtain ⟨ho, hn⟩ := Table.lookup_keep.mp hk
  exact ⟨old, ho, rfl, by simpa using hn⟩

theorem deleteRow_selectRow_none {id' : RowId} (h : db.selectRow id = none) :
    (deleteRow S db id').selectRow id = none := by
  rw [Option.eq_none_iff_forall_ne_some]
  intro row hr
  obtain ⟨old, ho, -⟩ := deleteRow_selectRow_some hr
  rw [h] at ho
  cases ho

theorem deleteRow_selectRow_self : (deleteRow S db id).selectRow id = none := by
  rw [Option.eq_none_iff_forall_ne_some]
  intro row hr
  obtain ⟨old, ho, -, hn⟩ := deleteRow_selectRow_some hr
  exact hn (mem_doomed ho)

/-! ### Two tables of the schema -/

/-- `reminders`, by its id and title. -/
def reminders : TableInfo where
  name := "reminders"
  columns := ["id", "title"]
  pk := ["id"]
  codec := [⟨"id", .string⟩, ⟨"title", .string⟩]
  uniques := []
  rank := 0
  createdAtColumn := none
  fkColumns := []
  maxLength := []

/-- `comments`, by its id, reminder and body. -/
def comments : TableInfo where
  name := "comments"
  columns := ["id", "reminder_id", "body"]
  pk := ["id"]
  codec := [⟨"id", .string⟩, ⟨"reminder_id", .string⟩, ⟨"body", .string⟩]
  uniques := []
  rank := 1
  createdAtColumn := none
  fkColumns := ["reminder_id"]
  maxLength := []

/-- Deleting a reminder deletes its comments. -/
def reminderSchema : Schema where
  foreignKeys := [⟨"comments", ["reminder_id"], "reminders", ["id"], .cascade⟩]
  valueError _ _ := none

/-- The reminders `r1` and `r2`, and the comment `c1` on `r1`. -/
def reminderRows : Table RowId Row :=
  Table.ofList
    [(⟨"reminders", ["r1"]⟩, [("id", .string "r1"), ("title", .string "one")]),
      (⟨"reminders", ["r2"]⟩, [("id", .string "r2"), ("title", .string "two")]),
      (⟨"comments", ["c1"]⟩,
        [("id", .string "c1"), ("reminder_id", .string "r1"), ("body", .string "first")])]

example : (deleteRow reminderSchema ⟨reminderRows, ∅, 0⟩ ⟨"reminders", ["r1"]⟩).rows.toList.map
    Prod.fst = [⟨"reminders", ["r2"]⟩] := by decide

end Pokyh.Cluster

import Mathlib.Data.List.Sort
import Mathlib.Data.List.Lex
import Pokyh.Cluster.Database
import Pokyh.Cluster.Wire
import Pokyh.Lib.Entries
import Pokyh.Lib.Ranks
import Pokyh.Lib.Texts

/-!
# Cluster — Catalog

Which tables a node replicates, read from the database's description of itself (`loadCatalog` in `catalog.ts`): what is left out, what is
read of a table, its rank among the tables it refers to, and the fingerprint by which two nodes tell whether their schemas match.

* `loadCatalog_exact`: **the catalog holds exactly the tables that qualify**, each as the database describes it, and in `ordered` a table
  comes after each one it refers to, unless that one leads back to it.
* `fingerprint_decides`: **with one fingerprint two nodes replicate the same tables**, with the same columns, keys and unique indexes,
  unless the hash collides.
-/

namespace Pokyh.Cluster.Catalog
open Pokyh.Lib

/-! ### The rows of the description -/

structure ColumnRow where
  tableName : String
  columnName : String
  dataType : String
  columnType : String
  isNullable : String
  extra : Option String
  characterMaximumLength : Option ℕ
  deriving DecidableEq

structure IndexRow where
  tableName : String
  indexName : String
  nonUnique : ℕ
  columnName : String
  deriving DecidableEq

structure ForeignKeyRow where
  tableName : String
  columnName : String
  referencedTableName : String
  deriving DecidableEq

/-- What is read of `information_schema`: `TABLES`, `COLUMNS`, `STATISTICS` and `KEY_COLUMN_USAGE`. -/
structure Description where
  tables : List String
  columns : List ColumnRow
  statistics : List IndexRow
  keyColumnUsage : List ForeignKeyRow

/-! ### Names -/

/-- A word character of a regular expression. -/
def isWord (c : Char) : Bool := c.isAlphanum || c = '_'

def isSafeIdentifier (name : String) : Bool := name.toList ≠ [] && name.toList.all isWord && name.length ≤ 64

def nodeLocalTables : List String :=
  ["request_logs", "frontend_activity_logs", "client_error_logs", "request_account_days", "backup_config", "_prisma_migrations"]

/-- `excludeTables` is what the node's configuration leaves out. -/
def isReplicated (excludeTables : List String) (table : String) : Bool :=
  let name := table.toList.map Char.toLower
  if !isSafeIdentifier table then false
  else if "cluster_".toList <+: name then false
  else if "learn_".toList <+: name then false
  else if String.ofList name ∈ nodeLocalTables then false
  else if String.ofList name ∈ excludeTables then false
  else true

/-- The text starts with a word of a pattern that ignores case, and the word ends there. -/
def startsWord (word text : List Char) : Bool :=
  word <+: text.map Char.toLower && !(text.drop word.length).head?.any isWord

/-- `/\b(VIRTUAL|STORED) GENERATED\b/i`, after a character that is one of a word or not. -/
def generatedFrom : Bool → List Char → Bool
  | _, [] => false
  | inWord, c :: rest =>
      (!inWord && ["virtual generated".toList, "stored generated".toList].any fun word => startsWord word (c :: rest)) ||
        generatedFrom (isWord c) rest

def ColumnRow.generated (row : ColumnRow) : Bool := generatedFrom false (row.extra.getD "").toList

/-! ### Tables, columns and indexes -/

def newTable (name : String) : TableInfo where
  name := name
  columns := []
  pk := []
  codec := []
  uniques := []
  rank := 0
  createdAtColumn := none
  fkColumns := []
  maxLength := []

def readTables (excludeTables : List String) (names : List String) : Entries String TableInfo :=
  names.foldl (fun tables name => if isReplicated excludeTables name then tables.set name (newTable name) else tables) .empty

/-- The value of a key of a map of lengths. -/
def setLength (lengths : List (String × ℕ)) (column : String) (length : ℕ) : List (String × ℕ) :=
  if column ∈ lengths.map Prod.fst then lengths.map fun e => if e.1 = column then (column, length) else e else lengths ++ [(column, length)]

def addColumn (table : TableInfo) (row : ColumnRow) : TableInfo :=
  { table with
    columns := table.columns ++ [row.columnName]
    codec := table.codec ++ [⟨row.columnName, Wire.kindOf row.dataType⟩]
    maxLength := match row.characterMaximumLength with
      | some length => setLength table.maxLength row.columnName length
      | none => table.maxLength
    createdAtColumn := if row.columnName = "created_at" then some "created_at" else table.createdAtColumn }

/-- `c|table|column|type|nullable`. -/
def ColumnRow.line (row : ColumnRow) : List Char :=
  'c' :: '|' :: row.tableName.toList ++ '|' :: row.columnName.toList ++ '|' :: row.columnType.toList ++ '|' :: row.isNullable.toList

/-- The catalog while it is read. -/
structure Reading where
  tables : Entries String TableInfo
  signature : List (List Char)

def readColumn (read : Reading) (row : ColumnRow) : Reading :=
  match read.tables.get? row.tableName with
  | none => read
  | some table =>
      if row.generated then read
      else if !isSafeIdentifier row.columnName then { read with tables := read.tables.delete row.tableName }
      else ⟨read.tables.set row.tableName (addColumn table row), read.signature ++ [row.line]⟩

structure IndexEntry where
  table : String
  name : String
  unique : Bool
  columns : List String
  deriving DecidableEq

/-- `table|index`. -/
def IndexRow.key (row : IndexRow) : List Char := row.tableName.toList ++ '|' :: row.indexName.toList

def pushIndex (entry : Option IndexEntry) (row : IndexRow) : IndexEntry :=
  let entry := entry.getD ⟨row.tableName, row.indexName, row.nonUnique = 0, []⟩
  { entry with columns := entry.columns ++ [row.columnName] }

def readIndex (tables : Entries String TableInfo) (indexes : Entries (List Char) IndexEntry) (row : IndexRow) :
    Entries (List Char) IndexEntry :=
  if (tables.get? row.tableName).isNone then indexes else indexes.set row.key (pushIndex (indexes.get? row.key) row)

def addUnique (table : TableInfo) (index : IndexEntry) : TableInfo :=
  if index.name = "PRIMARY" then { table with pk := index.columns }
  else { table with uniques := table.uniques ++ [⟨index.name, index.columns⟩] }

/-- `u|table|index|columns`. -/
def IndexEntry.line (index : IndexEntry) : List Char :=
  'u' :: '|' :: index.table.toList ++ '|' :: index.name.toList ++ '|' :: [','].intercalate (index.columns.map String.toList)

def readUnique (read : Reading) (index : IndexEntry) : Reading :=
  match read.tables.get? index.table with
  | none => read
  | some table =>
      if index.unique then ⟨read.tables.set index.table (addUnique table index), read.signature ++ [index.line]⟩ else read

/-! ### Foreign keys and ranks -/

/-- A value added to a set that keeps its order. -/
def addTo (set : List String) (value : String) : List String := if value ∈ set then set else set ++ [value]

def readReference (tables : Entries String TableInfo) (row : ForeignKeyRow) : Entries String TableInfo :=
  match tables.get? row.tableName with
  | none => tables
  | some table => tables.set row.tableName { table with fkColumns := addTo table.fkColumns row.columnName }

/-- What a row makes a parent of its table. -/
def readParent (tables : Entries String TableInfo) (parents : Entries String (List String)) (row : ForeignKeyRow) :
    Entries String (List String) :=
  if (tables.get? row.tableName).isNone then parents
  else if (tables.get? row.referencedTableName).isNone ∨ row.referencedTableName = row.tableName then parents
  else parents.set row.tableName (addTo ((parents.get? row.tableName).getD []) row.referencedTableName)

/-- Array.prototype.sort without a function compares the units of the texts. -/
def unitsLe (a b : List Char) : Prop := a.flatMap unitsOf ≤ b.flatMap unitsOf

instance : DecidableRel unitsLe := fun a b => inferInstanceAs (Decidable (a.flatMap unitsOf ≤ b.flatMap unitsOf))

/-- `sha256` gives the digits of the hash. -/
def fingerprintOf (sha256 : List Char → List Char) (lines : List (List Char)) : List Char :=
  (sha256 (['\n'].intercalate (lines.insertionSort unitsLe))).take 32

structure Catalog where
  tables : Entries String TableInfo
  ordered : List TableInfo
  fingerprint : List Char
  signature : List (List Char)

variable {κ : Type*} [LinearOrder κ] (excludeTables : List String) (sha256 : List Char → List Char) (collation : String → κ)

/-- By rank, then by name as `localeCompare` has it. -/
def Before (collation : String → κ) (a b : TableInfo) : Prop :=
  a.rank < b.rank ∨ a.rank = b.rank ∧ collation a.name ≤ collation b.name

instance : DecidableRel (Before collation) := fun _ _ => inferInstanceAs (Decidable (_ ∨ _))

/-- The tables as the columns and indexes describe them, and the signature. -/
def readSchema (schema : Description) : Reading :=
  let columns := schema.columns.foldl readColumn ⟨readTables excludeTables schema.tables, []⟩
  let indexes := schema.statistics.foldl (readIndex columns.tables) .empty
  let read := indexes.values.foldl readUnique columns
  { read with tables := read.tables.keep fun _ table => !(table.pk.isEmpty || table.columns.isEmpty) }

def parentsOf (tables : Entries String TableInfo) (schema : Description) (name : String) : List String :=
  ((schema.keyColumnUsage.foldl (readParent tables) .empty).get? name).getD []

def loadCatalog (schema : Description) : Option Catalog :=
  let read := readSchema excludeTables schema
  let tables := schema.keyColumnUsage.foldl readReference read.tables
  (rankAll (parentsOf read.tables schema) tables.keys).map fun ranks =>
    let ranked := tables.adjust fun name table => { table with rank := (ranks.lookup name).getD 0 }
    { tables := ranked
      ordered := ranked.values.insertionSort (Before collation)
      fingerprint := fingerprintOf sha256 read.signature
      signature := read.signature }

/-! ### What the description says -/

/-- The columns of a table that are replicated. -/
def columnsOf (schema : Description) (name : String) : List ColumnRow :=
  schema.columns.filter fun row => row.tableName = name && !row.generated

def indexRows (schema : Description) (table index : String) : List IndexRow :=
  schema.statistics.filter fun row => row.tableName = table && row.indexName = index

/-- The columns of a unique index. -/
def uniqueOf (schema : Description) (table index : String) : Option (List String) :=
  match indexRows schema table index with
  | [] => none
  | first :: rest => if first.nonUnique = 0 then some ((first :: rest).map IndexRow.columnName) else none

/-- A table that is replicated. -/
structure Qualifies (schema : Description) (name : String) : Prop where
  known : name ∈ schema.tables
  replicated : isReplicated excludeTables name = true
  safe : ∀ row ∈ columnsOf schema name, isSafeIdentifier row.columnName = true
  columns : columnsOf schema name ≠ []
  primary : (uniqueOf schema name "PRIMARY").isSome = true

/-- What is read of a table is what the description says of it. -/
structure Describes (schema : Description) (table : TableInfo) : Prop where
  columns : table.columns = (columnsOf schema table.name).map ColumnRow.columnName
  codec : table.codec = (columnsOf schema table.name).map fun row => ⟨row.columnName, Wire.kindOf row.dataType⟩
  createdAtColumn : table.createdAtColumn = if "created_at" ∈ table.columns then some "created_at" else none
  pk : uniqueOf schema table.name "PRIMARY" = some table.pk
  uniques : ∀ u, u ∈ table.uniques ↔ u.name ≠ "PRIMARY" ∧ uniqueOf schema table.name u.name = some u.columns
  fkColumns : ∀ c, c ∈ table.fkColumns ↔ ∃ row ∈ schema.keyColumnUsage, row.tableName = table.name ∧ row.columnName = c

variable {excludeTables sha256 collation} {schema : Description}

theorem bar_of_safe {name : String} (h : isSafeIdentifier name = true) : '|' ∉ name.toList ∧ ',' ∉ name.toList := by
  rw [isSafeIdentifier, Bool.and_eq_true, Bool.and_eq_true] at h
  have hword : ∀ c ∈ name.toList, isWord c = true := List.all_eq_true.mp h.1.2
  have hbar : isWord '|' = false := rfl
  have hcomma : isWord ',' = false := rfl
  exact ⟨fun hmem => Bool.false_ne_true (hbar.symm.trans (hword _ hmem)), fun hmem => Bool.false_ne_true (hcomma.symm.trans (hword _ hmem))⟩

theorem safe_of_replicated {name : String} (h : isReplicated excludeTables name = true) : isSafeIdentifier name = true := by
  cases hsafe : isSafeIdentifier name with
  | true => rfl
  | false =>
      unfold isReplicated at h
      rw [hsafe] at h
      exact h

/-! ### The tables -/

theorem get?_readTables (names : List String) (n : String) :
    (readTables excludeTables names).get? n = if n ∈ names ∧ isReplicated excludeTables n = true then some (newTable n) else none := by
  induction names using List.reverseRecOn with
  | nil => simp [readTables]
  | append_singleton names name ih =>
      rw [readTables] at ih ⊢
      rw [List.foldl_append, List.foldl_cons, List.foldl_nil]
      split
      · next hrep =>
          rw [Entries.get?_set, ih]
          by_cases hn : n = name
          · subst hn
            rw [if_pos rfl, if_pos ⟨by simp, hrep⟩]
          · simp [hn]
      · next hrep =>
          rw [ih]
          by_cases hn : n = name
          · subst hn
            simp [hrep]
          · simp [hn]

/-! ### The columns -/

/-- What a row of its columns does to a table. -/
def oneColumn (table : Option TableInfo) (row : ColumnRow) : Option TableInfo :=
  table.bind fun table =>
    if row.generated then some table else if !isSafeIdentifier row.columnName then none else some (addColumn table row)

theorem get?_readColumn (read : Reading) (row : ColumnRow) (n : String) :
    (readColumn read row).tables.get? n = if row.tableName = n then oneColumn (read.tables.get? n) row else read.tables.get? n := by
  rw [readColumn]
  split
  · next h =>
      split
      · next hn =>
          rw [← hn, h]
          rfl
      · rfl
  · next table h =>
      by_cases hn : row.tableName = n
      · rw [if_pos hn, ← hn, h, oneColumn, Option.bind_some]
        split
        · exact h
        · split
          · rw [Entries.get?_delete, if_pos rfl]
          · rw [Entries.get?_set, if_pos rfl]
      · rw [if_neg hn]
        split
        · rfl
        · split
          · rw [Entries.get?_delete, if_neg (Ne.symm hn)]
          · rw [Entries.get?_set, if_neg (Ne.symm hn)]

theorem foldl_oneColumn_none (rows : List ColumnRow) : rows.foldl oneColumn none = none := by
  induction rows with
  | nil => rfl
  | cons row rows ih => exact ih

theorem foldl_oneColumn (table : TableInfo) (rows : List ColumnRow) :
    rows.foldl oneColumn (some table) =
      if ∀ row ∈ rows.filter (fun row : ColumnRow => !row.generated), isSafeIdentifier row.columnName = true then
        some ((rows.filter fun row : ColumnRow => !row.generated).foldl addColumn table)
      else none := by
  induction rows generalizing table with
  | nil => simp
  | cons row rows ih =>
      rw [List.foldl_cons, oneColumn, Option.bind_some]
      cases hgen : row.generated with
      | true => simpa [hgen] using ih table
      | false =>
          cases hsafe : isSafeIdentifier row.columnName with
          | true => simpa [hgen, hsafe] using ih (addColumn table row)
          | false =>
              rw [if_neg (by simp), if_pos (by rfl), foldl_oneColumn_none, if_neg]
              intro hall
              simpa [hsafe] using hall row (by simp [hgen])

/-- What the columns leave of a table. -/
structure Filled (table : TableInfo) (rows : List ColumnRow) (filled : TableInfo) : Prop where
  name : filled.name = table.name
  columns : filled.columns = table.columns ++ rows.map ColumnRow.columnName
  codec : filled.codec = table.codec ++ rows.map fun row => ⟨row.columnName, Wire.kindOf row.dataType⟩
  createdAtColumn : filled.createdAtColumn =
    if "created_at" ∈ rows.map ColumnRow.columnName then some "created_at" else table.createdAtColumn
  pk : filled.pk = table.pk
  uniques : filled.uniques = table.uniques
  fkColumns : filled.fkColumns = table.fkColumns

theorem filled_foldl (table : TableInfo) (rows : List ColumnRow) : Filled table rows (rows.foldl addColumn table) := by
  induction rows generalizing table with
  | nil => exact ⟨rfl, by simp, by simp, by simp, rfl, rfl, rfl⟩
  | cons row rows ih =>
      have h := ih (addColumn table row)
      refine ⟨h.name, ?_, ?_, ?_, h.pk, h.uniques, h.fkColumns⟩
      · rw [List.foldl_cons, h.columns]
        simp [addColumn]
      · rw [List.foldl_cons, h.codec]
        simp [addColumn]
      · rw [List.foldl_cons, h.createdAtColumn, List.map_cons]
        by_cases hrow : row.columnName = "created_at"
        · simp [addColumn, hrow]
        · simp [addColumn, hrow, Ne.symm hrow]

theorem get?_foldl_readColumn (read : Reading) (rows : List ColumnRow) (n : String) :
    (rows.foldl readColumn read).tables.get? n =
      (rows.filter fun row => row.tableName = n).foldl oneColumn (read.tables.get? n) :=
  slot_foldl (v := fun (read : Reading) n => read.tables.get? n) get?_readColumn read rows n

/-- The tables once the columns are read. -/
def columnsRead (excludeTables : List String) (schema : Description) : Reading :=
  schema.columns.foldl readColumn ⟨readTables excludeTables schema.tables, []⟩

theorem columnsOf_eq (n : String) :
    columnsOf schema n = (schema.columns.filter fun row => row.tableName = n).filter fun row => !row.generated := by
  rw [columnsOf, List.filter_filter]
  refine List.filter_congr fun row _ => ?_
  rw [Bool.and_comm]

theorem get?_columnsRead (n : String) :
    (columnsRead excludeTables schema).tables.get? n =
      if (n ∈ schema.tables ∧ isReplicated excludeTables n = true) ∧ ∀ row ∈ columnsOf schema n, isSafeIdentifier row.columnName = true then
        some ((columnsOf schema n).foldl addColumn (newTable n))
      else none := by
  rw [columnsRead, get?_foldl_readColumn, get?_readTables]
  by_cases hn : n ∈ schema.tables ∧ isReplicated excludeTables n = true
  · rw [if_pos hn, foldl_oneColumn, ← columnsOf_eq]
    simp [hn]
  · rw [if_neg hn, foldl_oneColumn_none, if_neg fun h => hn h.1]

/-- A table that is left after the columns has a name without separators. -/
theorem safe_of_known {n : String} (h : ((columnsRead excludeTables schema).tables.get? n).isSome = true) : isSafeIdentifier n = true := by
  rw [get?_columnsRead] at h
  split at h
  · next hn => exact safe_of_replicated hn.1.2
  · cases h

theorem signature_readColumn (read : Reading) (row : ColumnRow) : ∀ line ∈ read.signature, line ∈ (readColumn read row).signature := by
  intro line hline
  rw [readColumn]
  split
  · exact hline
  · split
    · exact hline
    · split
      · exact hline
      · exact List.mem_append_left _ hline

theorem signature_foldl_readColumn (read : Reading) (rows : List ColumnRow) :
    ∀ line ∈ read.signature, line ∈ (rows.foldl readColumn read).signature := by
  intro line hline
  exact foldl_invariant (P := fun read => line ∈ read.signature) (fun read row _ h => signature_readColumn read row line h) hline

/-- A row of a column that is replicated, in a table with a safe name. -/
structure ColumnRow.Plain (row : ColumnRow) : Prop where
  generated : row.generated = false
  table : isSafeIdentifier row.tableName = true
  column : isSafeIdentifier row.columnName = true

/-- Each line of a column is there for one that is replicated. -/
theorem column_of_line (read : Reading) (hsafe : ∀ n, (read.tables.get? n).isSome = true → isSafeIdentifier n = true)
    (rows : List ColumnRow) :
    ∀ line ∈ (rows.foldl readColumn read).signature, line ∈ read.signature ∨ ∃ row ∈ rows, row.Plain ∧ line = row.line := by
  induction rows generalizing read with
  | nil => exact fun line h => .inl h
  | cons row rows ih =>
      have hsafe' : ∀ n, ((readColumn read row).tables.get? n).isSome = true → isSafeIdentifier n = true := by
        intro n hn
        rw [get?_readColumn] at hn
        refine hsafe n ?_
        split at hn
        · cases h : read.tables.get? n with
          | none =>
              rw [h] at hn
              cases hn
          | some table => rfl
        · exact hn
      intro line hline
      rcases ih (readColumn read row) hsafe' line hline with h | ⟨row', hrow', h⟩
      · rw [readColumn] at h
        split at h
        · exact .inl h
        · next table htable =>
            split at h
            · exact .inl h
            · next hgen =>
                split at h
                · exact .inl h
                · next hcolumn =>
                    rcases List.mem_append.mp h with hold | hnew
                    · exact .inl hold
                    · exact .inr ⟨row, List.mem_cons_self,
                        ⟨by simpa using hgen, hsafe _ (by rw [htable]; rfl), by simpa using hcolumn⟩, List.mem_singleton.mp hnew⟩
      · exact .inr ⟨row', List.mem_cons_of_mem _ hrow', h⟩

/-- The columns of a table that is left have their lines. -/
theorem line_of_column (read : Reading) (rows : List ColumnRow) {row : ColumnRow} (hrow : row ∈ rows) (hgen : row.generated = false)
    (hleft : ((rows.foldl readColumn read).tables.get? row.tableName).isSome = true) :
    row.line ∈ (rows.foldl readColumn read).signature := by
  induction rows generalizing read with
  | nil => cases hrow
  | cons first rows ih =>
      rcases List.mem_cons.mp hrow with rfl | hlater
      · refine signature_foldl_readColumn (readColumn read row) rows row.line ?_
        -- a table that is gone stays gone
        have hthere : ((readColumn read row).tables.get? row.tableName).isSome = true := by
          rw [List.foldl_cons, get?_foldl_readColumn] at hleft
          by_contra hgone
          rw [Option.not_isSome_iff_eq_none] at hgone
          rw [hgone, foldl_oneColumn_none] at hleft
          cases hleft
        rw [get?_readColumn, if_pos rfl] at hthere
        rw [readColumn]
        cases htable : read.tables.get? row.tableName with
        | none =>
            rw [htable] at hthere
            cases hthere
        | some table =>
            rw [htable, oneColumn, Option.bind_some, hgen] at hthere
            cases hsafe : isSafeIdentifier row.columnName with
            | true => simp [hgen]
            | false =>
                rw [hsafe] at hthere
                cases hthere
      · exact ih (readColumn read first) hlater hleft

/-! ### The indexes -/

section Indexes

variable {tables : Entries String TableInfo}

/-- What a row of its index does to an entry. -/
def oneIndex (tables : Entries String TableInfo) (entry : Option IndexEntry) (row : IndexRow) : Option IndexEntry :=
  if (tables.get? row.tableName).isNone then entry else some (pushIndex entry row)

theorem get?_readIndex (indexes : Entries (List Char) IndexEntry) (row : IndexRow) (k : List Char) :
    (readIndex tables indexes row).get? k = if row.key = k then oneIndex tables (indexes.get? k) row else indexes.get? k := by
  rw [readIndex, oneIndex]
  split
  · simp
  · rw [Entries.get?_set]
    by_cases hk : row.key = k
    · rw [if_pos hk.symm, if_pos hk, hk]
    · rw [if_neg (Ne.symm hk), if_neg hk]

/-- The entry that the rows of one index make. -/
def entryOf : List IndexRow → Option IndexEntry
  | [] => none
  | first :: rest => some ⟨first.tableName, first.indexName, first.nonUnique = 0, (first :: rest).map IndexRow.columnName⟩

theorem foldl_oneIndex_some (entry : IndexEntry) (rows : List IndexRow) :
    rows.foldl (oneIndex tables) (some entry) =
      some { entry with columns := entry.columns ++ (rows.filter fun row => (tables.get? row.tableName).isSome).map IndexRow.columnName } := by
  induction rows generalizing entry with
  | nil => simp
  | cons row rows ih =>
      rw [List.foldl_cons, oneIndex]
      cases h : tables.get? row.tableName with
      | none => simpa [h] using ih entry
      | some _ => simpa [h, pushIndex] using ih (pushIndex (some entry) row)

theorem foldl_oneIndex (rows : List IndexRow) :
    rows.foldl (oneIndex tables) none = entryOf (rows.filter fun row => (tables.get? row.tableName).isSome) := by
  induction rows with
  | nil => rfl
  | cons row rows ih =>
      rw [List.foldl_cons, oneIndex]
      cases h : tables.get? row.tableName with
      | none => simpa [h] using ih
      | some _ => simp [h, foldl_oneIndex_some, pushIndex, entryOf]

theorem get?_foldl_readIndex (rows : List IndexRow) (k : List Char) :
    (rows.foldl (readIndex tables) .empty).get? k =
      entryOf ((rows.filter fun row => row.key = k).filter fun row => (tables.get? row.tableName).isSome) := by
  rw [← foldl_oneIndex]
  exact slot_foldl (v := fun (indexes : Entries (List Char) IndexEntry) k => indexes.get? k) get?_readIndex .empty rows k

/-- The indexes of the tables that are known, each from its own rows. -/
theorem mem_indexes (hsafe : ∀ n, (tables.get? n).isSome = true → isSafeIdentifier n = true) (e : IndexEntry) :
    e ∈ (schema.statistics.foldl (readIndex tables) .empty).values ↔
      (tables.get? e.table).isSome = true ∧ entryOf (indexRows schema e.table e.name) = some e := by
  -- the rows under a key of a known table are those of one index
  have hrows : ∀ n x, (tables.get? n).isSome = true →
      (schema.statistics.filter fun row => row.key = n.toList ++ '|' :: x.toList).filter (fun row => (tables.get? row.tableName).isSome) =
        indexRows schema n x := by
    intro n x hn
    rw [indexRows, List.filter_filter]
    refine List.filter_congr fun row _ => ?_
    rw [Bool.eq_iff_iff, Bool.and_eq_true, Bool.and_eq_true, decide_eq_true_eq, decide_eq_true_eq, decide_eq_true_eq]
    constructor
    · rintro ⟨hknown, hkey⟩
      obtain ⟨htable, hindex⟩ := (cut_inj (bar_of_safe (hsafe _ hknown)).1 (bar_of_safe (hsafe _ hn)).1).mp hkey
      exact ⟨String.toList_inj.mp htable, String.toList_inj.mp hindex⟩
    · rintro ⟨rfl, rfl⟩
      exact ⟨hn, rfl⟩
  rw [Entries.mem_values]
  constructor
  · rintro ⟨k, hk⟩
    rw [get?_foldl_readIndex] at hk
    cases hfirst : (schema.statistics.filter fun row => row.key = k).filter fun row => (tables.get? row.tableName).isSome with
    | nil =>
        rw [hfirst] at hk
        cases hk
    | cons first rest =>
        have hmem : first ∈ (schema.statistics.filter fun row => row.key = k).filter fun row => (tables.get? row.tableName).isSome := by
          simp [hfirst]
        obtain ⟨hkey, hknown⟩ := List.mem_filter.mp hmem
        have hkey : first.key = k := by simpa using (List.mem_filter.mp hkey).2
        rw [← hkey, IndexRow.key, hrows _ _ hknown] at hk hfirst
        rw [hfirst] at hk
        obtain rfl := Option.some.inj hk
        exact ⟨hknown, by rw [hfirst]; rfl⟩
  · rintro ⟨hknown, he⟩
    refine ⟨e.table.toList ++ '|' :: e.name.toList, ?_⟩
    rw [get?_foldl_readIndex, hrows _ _ hknown, he]

end Indexes

theorem uniqueOf_eq (n x : String) :
    uniqueOf schema n x = ((entryOf (indexRows schema n x)).filter IndexEntry.unique).map IndexEntry.columns := by
  rw [uniqueOf]
  cases indexRows schema n x with
  | nil => rfl
  | cons first rest =>
      by_cases hfirst : first.nonUnique = 0
      · simp [entryOf, hfirst]
      · simp [entryOf, hfirst]

/-- What an index of its own does to a table. -/
def oneUnique (table : Option TableInfo) (index : IndexEntry) : Option TableInfo :=
  table.map fun table => if index.unique then addUnique table index else table

theorem get?_readUnique (read : Reading) (index : IndexEntry) (n : String) :
    (readUnique read index).tables.get? n = if index.table = n then oneUnique (read.tables.get? n) index else read.tables.get? n := by
  rw [readUnique]
  by_cases hn : index.table = n
  · subst hn
    rw [if_pos rfl]
    cases h : read.tables.get? index.table with
    | none => exact h
    | some table =>
        cases hunique : index.unique with
        | true => simp [hunique, oneUnique, Entries.get?_set]
        | false => simp [hunique, oneUnique, h]
  · rw [if_neg hn]
    split
    · rfl
    · split
      · rw [Entries.get?_set, if_neg (Ne.symm hn)]
      · rfl

theorem get?_foldl_readUnique (read : Reading) (indexes : List IndexEntry) (n : String) :
    (indexes.foldl readUnique read).tables.get? n =
      (read.tables.get? n).map ((indexes.filter fun e => e.table = n && e.unique).foldl addUnique) := by
  have hslot := slot_foldl (v := fun (read : Reading) n => read.tables.get? n) get?_readUnique read indexes n
  refine hslot.trans ?_
  have hone : ∀ (list : List IndexEntry) (table : Option TableInfo),
      list.foldl oneUnique table = table.map ((list.filter IndexEntry.unique).foldl addUnique) := by
    intro list
    induction list with
    | nil => simp
    | cons e list ih =>
        intro table
        rw [List.foldl_cons, ih]
        cases table <;> cases h : e.unique <;> simp [oneUnique, h]
  have hboth : (indexes.filter fun e => e.table = n).filter IndexEntry.unique = indexes.filter fun e => e.table = n && e.unique := by
    rw [List.filter_filter]
    exact List.filter_congr fun e _ => Bool.and_comm _ _
  rw [hone, hboth]

/-- What the indexes leave of a table. -/
structure Indexed (table : TableInfo) (list : List IndexEntry) (indexed : TableInfo) : Prop where
  name : indexed.name = table.name
  columns : indexed.columns = table.columns
  codec : indexed.codec = table.codec
  createdAtColumn : indexed.createdAtColumn = table.createdAtColumn
  fkColumns : indexed.fkColumns = table.fkColumns
  pk : indexed.pk = ((list.filter fun e => e.name = "PRIMARY").getLast?.map IndexEntry.columns).getD table.pk
  uniques : indexed.uniques = table.uniques ++ (list.filter fun e => e.name ≠ "PRIMARY").map fun e => ⟨e.name, e.columns⟩

theorem indexed_foldl (table : TableInfo) (list : List IndexEntry) : Indexed table list (list.foldl addUnique table) := by
  induction list using List.reverseRecOn with
  | nil => exact ⟨rfl, rfl, rfl, rfl, rfl, rfl, by simp⟩
  | append_singleton list e ih =>
      rw [List.foldl_append, List.foldl_cons, List.foldl_nil]
      by_cases he : e.name = "PRIMARY"
      · rw [addUnique, if_pos he]
        exact ⟨ih.name, ih.columns, ih.codec, ih.createdAtColumn, ih.fkColumns, by simp [he], by simp [he, ih.uniques]⟩
      · rw [addUnique, if_neg he]
        exact ⟨ih.name, ih.columns, ih.codec, ih.createdAtColumn, ih.fkColumns, by simp [he, ih.pk], by simp [he, ih.uniques]⟩

/-- The unique indexes that are read. -/
def indexesRead (excludeTables : List String) (schema : Description) : List IndexEntry :=
  (schema.statistics.foldl (readIndex (columnsRead excludeTables schema).tables) .empty).values

theorem mem_indexesRead (e : IndexEntry) :
    e ∈ indexesRead excludeTables schema ↔
      ((columnsRead excludeTables schema).tables.get? e.table).isSome = true ∧ entryOf (indexRows schema e.table e.name) = some e :=
  mem_indexes (fun _ => safe_of_known) e

theorem entry_named {n x : String} {e : IndexEntry} (h : entryOf (indexRows schema n x) = some e) :
    e.table = n ∧ e.name = x ∧ e.columns ≠ [] := by
  cases hrows : indexRows schema n x with
  | nil =>
      rw [hrows] at h
      cases h
  | cons first rest =>
      have hfirst : first ∈ indexRows schema n x := by simp [hrows]
      have hnames : first.tableName = n ∧ first.indexName = x := by simpa using (List.mem_filter.mp hfirst).2
      rw [hrows] at h
      obtain rfl := Option.some.inj h
      exact ⟨hnames.1, hnames.2, by simp⟩

/-- A unique index of a table that is known. -/
theorem unique_iff {n x : String} {columns : List String} (hn : ((columnsRead excludeTables schema).tables.get? n).isSome = true) :
    uniqueOf schema n x = some columns ↔
      ∃ e ∈ (indexesRead excludeTables schema).filter (fun e => e.table = n && e.unique), e.name = x ∧ e.columns = columns := by
  rw [uniqueOf_eq, Option.map_eq_some_iff]
  constructor
  · rintro ⟨e, he, rfl⟩
    obtain ⟨hentry, hunique⟩ := Option.filter_eq_some_iff.mp he
    obtain ⟨rfl, rfl, -⟩ := entry_named hentry
    exact ⟨e, List.mem_filter.mpr ⟨(mem_indexesRead e).mpr ⟨hn, hentry⟩, by simp [hunique]⟩, rfl, rfl⟩
  · rintro ⟨e, he, rfl, rfl⟩
    obtain ⟨hmem, htest⟩ := List.mem_filter.mp he
    obtain ⟨rfl, hunique⟩ : e.table = n ∧ e.unique = true := by simpa using htest
    exact ⟨e, Option.filter_eq_some_iff.mpr ⟨((mem_indexesRead e).mp hmem).2, hunique⟩, rfl⟩

theorem primary_nonempty {n : String} {columns : List String} (h : uniqueOf schema n "PRIMARY" = some columns) : columns ≠ [] := by
  rw [uniqueOf_eq, Option.map_eq_some_iff] at h
  obtain ⟨e, he, rfl⟩ := h
  exact (entry_named (Option.filter_eq_some_iff.mp he).1).2.2

/-- A table before its foreign keys are read. -/
structure Described (schema : Description) (n : String) (table : TableInfo) : Prop where
  name : table.name = n
  columns : table.columns = (columnsOf schema n).map ColumnRow.columnName
  codec : table.codec = (columnsOf schema n).map fun row => ⟨row.columnName, Wire.kindOf row.dataType⟩
  createdAtColumn : table.createdAtColumn = if "created_at" ∈ table.columns then some "created_at" else none
  pk : uniqueOf schema n "PRIMARY" = some table.pk
  uniques : ∀ u, u ∈ table.uniques ↔ u.name ≠ "PRIMARY" ∧ uniqueOf schema n u.name = some u.columns
  fkColumns : table.fkColumns = []

theorem get?_readSchema (n : String) :
    (Qualifies excludeTables schema n → ∃ table, (readSchema excludeTables schema).tables.get? n = some table) ∧
      ∀ table, (readSchema excludeTables schema).tables.get? n = some table →
        Qualifies excludeTables schema n ∧ Described schema n table := by
  have hget : (readSchema excludeTables schema).tables.get? n =
      (((columnsRead excludeTables schema).tables.get? n).map
        (((indexesRead excludeTables schema).filter fun e => e.table = n && e.unique).foldl addUnique)).filter
          fun table => !(table.pk.isEmpty || table.columns.isEmpty) := by
    rw [readSchema, Entries.get?_keep, get?_foldl_readUnique]
    rfl
  have hindexed := indexed_foldl ((columnsOf schema n).foldl addColumn (newTable n))
    ((indexesRead excludeTables schema).filter fun e => e.table = n && e.unique)
  have hfilled := filled_foldl (newTable n) (columnsOf schema n)
  rw [hget, get?_columnsRead]
  by_cases hleft : (n ∈ schema.tables ∧ isReplicated excludeTables n = true) ∧ ∀ row ∈ columnsOf schema n, isSafeIdentifier row.columnName = true
  · have hn : ((columnsRead excludeTables schema).tables.get? n).isSome = true := by rw [get?_columnsRead, if_pos hleft]; rfl
    rw [if_pos hleft, Option.map_some]
    generalize hlist : (indexesRead excludeTables schema).filter (fun e => e.table = n && e.unique) = list at hindexed ⊢
    have hunique : ∀ x columns, uniqueOf schema n x = some columns ↔ ∃ e ∈ list, e.name = x ∧ e.columns = columns := by
      intro x columns
      rw [← hlist]
      exact unique_iff hn
    generalize hread : list.foldl addUnique ((columnsOf schema n).foldl addColumn (newTable n)) = table at hindexed ⊢
    have hcolumns : table.columns = (columnsOf schema n).map ColumnRow.columnName := by
      rw [hindexed.columns, hfilled.columns]
      rfl
    -- the key that is read is that of the primary index, or there is none
    have hpk : ∀ columns, uniqueOf schema n "PRIMARY" = some columns → table.pk = columns := by
      intro columns hcols
      rw [hindexed.pk]
      obtain ⟨e, he, hname, rfl⟩ := (hunique _ _).mp hcols
      have hne : list.filter (fun e => e.name = "PRIMARY") ≠ [] := List.ne_nil_of_mem (List.mem_filter.mpr ⟨he, by simpa using hname⟩)
      have hlast := List.getLast_mem hne
      obtain ⟨hmem, hprimary⟩ := List.mem_filter.mp hlast
      have hsame := (hunique "PRIMARY" _).mpr ⟨_, hmem, by simpa using hprimary, rfl⟩
      rw [List.getLast?_eq_some_getLast hne, Option.map_some, Option.getD_some]
      exact Option.some.inj (hsame.symm.trans hcols)
    have hnone : uniqueOf schema n "PRIMARY" = none → table.pk = [] := by
      intro hnone
      have hempty : list.filter (fun e => e.name = "PRIMARY") = [] := by
        rw [List.filter_eq_nil_iff]
        intro e he hname
        have hsome := (hunique "PRIMARY" e.columns).mpr ⟨e, he, by simpa using hname, rfl⟩
        rw [hnone] at hsome
        cases hsome
      rw [hindexed.pk, hempty, hfilled.pk]
      rfl
    constructor
    · intro hq
      obtain ⟨columns, hcols⟩ := Option.isSome_iff_exists.mp hq.primary
      refine ⟨table, Option.filter_eq_some_iff.mpr ⟨rfl, ?_⟩⟩
      simp [hpk columns hcols, primary_nonempty hcols, hcolumns, hq.columns]
    · intro table' htable
      obtain ⟨heq, htest⟩ := Option.filter_eq_some_iff.mp htable
      obtain rfl := Option.some.inj heq
      simp only [Bool.not_eq_true', Bool.or_eq_false_iff, List.isEmpty_eq_false_iff] at htest
      have hprimary : uniqueOf schema n "PRIMARY" = some table.pk := by
        cases hcols : uniqueOf schema n "PRIMARY" with
        | none => exact absurd (hnone hcols) htest.1
        | some columns => rw [hpk columns hcols]
      refine ⟨⟨hleft.1.1, hleft.1.2, hleft.2, ?_, by rw [hprimary]; rfl⟩, ?_⟩
      · intro hempty
        rw [hcolumns, hempty] at htest
        exact htest.2 rfl
      · refine ⟨by rw [hindexed.name, hfilled.name]; rfl, hcolumns, ?_, ?_, hprimary, ?_, by rw [hindexed.fkColumns, hfilled.fkColumns]; rfl⟩
        · rw [hindexed.codec, hfilled.codec]
          rfl
        · rw [hindexed.createdAtColumn, hfilled.createdAtColumn, hcolumns]
          rfl
        · intro u
          rw [hindexed.uniques, hfilled.uniques, hunique]
          simp only [newTable, List.nil_append, List.mem_map, List.mem_filter, decide_eq_true_eq]
          constructor
          · rintro ⟨e, ⟨he, hname⟩, rfl⟩
            exact ⟨hname, e, he, rfl, rfl⟩
          · rintro ⟨hname, e, he, heq, hcols⟩
            exact ⟨e, ⟨he, heq ▸ hname⟩, by rw [heq, hcols]⟩
  · rw [if_neg hleft]
    constructor
    · intro hq
      exact absurd ⟨⟨hq.known, hq.replicated⟩, hq.safe⟩ hleft
    · intro table htable
      cases htable

/-! ### Foreign keys, ranks and the order -/

theorem mem_addTo (set : List String) (value c : String) : c ∈ addTo set value ↔ c ∈ set ∨ value = c := by
  unfold addTo
  split
  · next h =>
      constructor
      · exact .inl
      · rintro (hc | rfl)
        · exact hc
        · exact h
  · rw [List.mem_append, List.mem_singleton, eq_comm (a := c)]

theorem get?_foldl_readReference (tables : Entries String TableInfo) (rows : List ForeignKeyRow) (n : String) :
    (rows.foldl readReference tables).get? n = (tables.get? n).map fun table =>
      { table with fkColumns := (rows.filter fun row => row.tableName = n).foldl (fun set row => addTo set row.columnName) table.fkColumns } := by
  have hstep : ∀ (tables : Entries String TableInfo) (row : ForeignKeyRow) (k : String),
      (readReference tables row).get? k =
        if row.tableName = k then (tables.get? k).map fun table => { table with fkColumns := addTo table.fkColumns row.columnName }
        else tables.get? k := by
    intro tables row k
    rw [readReference]
    by_cases hk : row.tableName = k
    · subst hk
      cases h : tables.get? row.tableName with
      | none => simp [h]
      | some table => simp [Entries.get?_set]
    · rw [if_neg hk]
      split
      · rfl
      · rw [Entries.get?_set, if_neg (Ne.symm hk)]
  have hslot := slot_foldl (v := fun (tables : Entries String TableInfo) n => tables.get? n)
    (g := fun table row => table.map fun table => { table with fkColumns := addTo table.fkColumns row.columnName }) hstep tables rows n
  refine hslot.trans ?_
  generalize rows.filter (fun row => row.tableName = n) = list
  generalize tables.get? n = table
  induction list generalizing table with
  | nil => simp
  | cons row list ih =>
      rw [List.foldl_cons, ih]
      cases table <;> rfl

theorem mem_parentsOf {tables : Entries String TableInfo} {n p : String} :
    p ∈ parentsOf tables schema n ↔
      ((tables.get? n).isSome = true ∧ (tables.get? p).isSome = true ∧ p ≠ n) ∧
        ∃ row ∈ schema.keyColumnUsage, row.tableName = n ∧ row.referencedTableName = p := by
  have hstep : ∀ (parents : Entries String (List String)) (row : ForeignKeyRow),
      p ∈ ((readParent tables parents row).get? n).getD [] ↔
        p ∈ (parents.get? n).getD [] ∨
          (((tables.get? n).isSome = true ∧ (tables.get? p).isSome = true ∧ p ≠ n) ∧ row.tableName = n ∧ row.referencedTableName = p) := by
    intro parents row
    rw [readParent]
    split
    · next hnone =>
        refine (or_iff_left ?_).symm
        rintro ⟨⟨hn, -⟩, rfl, rfl⟩
        simp_all
    · next hknown =>
        split
        · next hout =>
            refine (or_iff_left ?_).symm
            rintro ⟨⟨hn, hp, hne⟩, rfl, rfl⟩
            rcases hout with hnone | hself
            · simp_all
            · exact hne hself
        · next hin =>
            obtain ⟨href, hne⟩ := not_or.mp hin
            rw [Entries.get?_set]
            by_cases hn : n = row.tableName
            · subst hn
              rw [if_pos rfl, Option.getD_some, mem_addTo]
              refine or_congr_right ⟨?_, fun h => h.2.2⟩
              rintro rfl
              exact ⟨⟨Option.isSome_iff_ne_none.mpr (by simpa using hknown), Option.isSome_iff_ne_none.mpr (by simpa using href), hne⟩, rfl, rfl⟩
            · rw [if_neg hn]
              exact (or_iff_left fun h => hn h.2.1.symm).symm
  rw [parentsOf, foldl_iff_exists (P := fun (parents : Entries String (List String)) => p ∈ (parents.get? n).getD []) hstep]
  simp only [Entries.get?_empty, Option.getD_none, List.not_mem_nil, false_or]
  constructor
  · rintro ⟨row, hrow, h, hnames⟩
    exact ⟨h, row, hrow, hnames⟩
  · rintro ⟨h, row, hrow, hnames⟩
    exact ⟨row, hrow, h, hnames⟩

/-- What is strictly first in an order stands first in a sorted list. -/
theorem first_of_sorted {α : Type*} {r : α → α → Prop} {l : List α} (hl : l.Pairwise r) {a b : α} (ha : a ∈ l) (hb : b ∈ l)
    (hne : a ≠ b) (hrev : ¬ r b a) : [a, b].Sublist l := by
  obtain ⟨pre, post, rfl⟩ := List.append_of_mem ha
  rcases List.mem_append.mp hb with hpre | hpost
  · exact absurd ((List.pairwise_append.mp hl).2.2 b hpre a List.mem_cons_self) hrev
  · rcases List.mem_cons.mp hpost with rfl | hpost
    · exact absurd rfl hne
    · exact (List.singleton_sublist.mpr hpost).cons_cons a |>.trans (List.sublist_append_right _ _)

/-- A table refers to another one of the catalog. -/
def Refers (catalog : Catalog) (schema : Description) (child parent : String) : Prop :=
  child ∈ catalog.tables.keys ∧ parent ∈ catalog.tables.keys ∧
    ∃ row ∈ schema.keyColumnUsage, row.tableName = child ∧ row.referencedTableName = parent

/-- The tables with their foreign keys. -/
def referencesRead (excludeTables : List String) (schema : Description) : Entries String TableInfo :=
  schema.keyColumnUsage.foldl readReference (readSchema excludeTables schema).tables

theorem mem_referencesRead (n : String) :
    n ∈ (referencesRead excludeTables schema).keys ↔ ((readSchema excludeTables schema).tables.get? n).isSome = true := by
  rw [Entries.mem_keys, referencesRead, get?_foldl_readReference, ← Option.isSome_iff_exists, Option.isSome_map]

/-- Ranks are found, whatever the foreign keys are. -/
theorem ranks_above (excludeTables : List String) (schema : Description) :
    ∃ ranks, rankAll (parentsOf (readSchema excludeTables schema).tables schema) (referencesRead excludeTables schema).keys = some ranks ∧
      ∀ c ∈ (referencesRead excludeTables schema).keys, ∀ p ∈ parentsOf (readSchema excludeTables schema).tables schema c,
        Leads (parentsOf (readSchema excludeTables schema).tables schema) p c ∨
          ∃ rank above, ranks.lookup p = some rank ∧ ranks.lookup c = some above ∧ rank < above := by
  obtain ⟨ranks, hranks, -, habove⟩ := rankAll_above (referencesRead excludeTables schema).keys (referencesRead excludeTables schema).nodup
    fun c _ p hp => (mem_referencesRead p).mpr (mem_parentsOf.mp hp).1.2.1
  exact ⟨ranks, hranks, habove⟩

theorem exists_load (excludeTables : List String) (sha256 : List Char → List Char) (collation : String → κ) (schema : Description) :
    ∃ catalog, loadCatalog excludeTables sha256 collation schema = some catalog := by
  obtain ⟨ranks, hranks, -⟩ := ranks_above excludeTables schema
  rw [referencesRead] at hranks
  exact ⟨_, by rw [loadCatalog, hranks]; rfl⟩

section Loaded

variable {catalog : Catalog} (h : loadCatalog excludeTables sha256 collation schema = some catalog)
include h

theorem signature_of_load :
    catalog.signature = (readSchema excludeTables schema).signature ∧ catalog.fingerprint = fingerprintOf sha256 catalog.signature := by
  obtain ⟨ranks, -, rfl⟩ := Option.map_eq_some_iff.mp h
  exact ⟨rfl, rfl⟩

theorem tables_of_load :
    ∃ ranks, rankAll (parentsOf (readSchema excludeTables schema).tables schema) (referencesRead excludeTables schema).keys = some ranks ∧
      catalog.ordered = catalog.tables.values.insertionSort (Before collation) ∧
      ∀ n, catalog.tables.get? n =
        ((referencesRead excludeTables schema).get? n).map fun table => { table with rank := (ranks.lookup n).getD 0 } := by
  obtain ⟨ranks, hranks, rfl⟩ := Option.map_eq_some_iff.mp h
  exact ⟨ranks, hranks, rfl, Entries.get?_adjust _ _⟩

theorem mem_keys_of_load (n : String) : n ∈ catalog.tables.keys ↔ n ∈ (referencesRead excludeTables schema).keys := by
  obtain ⟨ranks, -, -, hget⟩ := tables_of_load h
  rw [Entries.mem_keys, hget, Entries.mem_keys]
  simp

theorem qualifies_of_load (n : String) : n ∈ catalog.tables.keys ↔ Qualifies excludeTables schema n := by
  rw [mem_keys_of_load h, mem_referencesRead]
  constructor
  · intro hn
    obtain ⟨table, htable⟩ := Option.isSome_iff_exists.mp hn
    exact ((get?_readSchema n).2 table htable).1
  · intro hn
    obtain ⟨table, htable⟩ := (get?_readSchema n).1 hn
    rw [htable]
    rfl

theorem describes_of_load {n : String} {table : TableInfo} (htable : catalog.tables.get? n = some table) :
    table.name = n ∧ Describes schema table := by
  obtain ⟨ranks, -, -, hget⟩ := tables_of_load h
  rw [hget, referencesRead, get?_foldl_readReference, Option.map_map, Option.map_eq_some_iff] at htable
  obtain ⟨before, hbefore, rfl⟩ := htable
  have hread := ((get?_readSchema n).2 before hbefore).2
  refine ⟨hread.name, ⟨?_, ?_, hread.createdAtColumn, ?_, ?_, ?_⟩⟩
  · simpa [hread.name] using hread.columns
  · simpa [hread.name] using hread.codec
  · simpa [hread.name] using hread.pk
  · simpa [hread.name] using hread.uniques
  · intro c
    have hmem := foldl_iff_exists (P := fun set => c ∈ set) (Q := fun row : ForeignKeyRow => row.columnName = c)
      (fun set row => mem_addTo set row.columnName c) before.fkColumns (schema.keyColumnUsage.filter fun row => row.tableName = n)
    refine hmem.trans ?_
    rw [hread.fkColumns]
    simp [hread.name, and_assoc]

theorem get?_of_ordered {table : TableInfo} (htable : table ∈ catalog.ordered) : catalog.tables.get? table.name = some table := by
  obtain ⟨ranks, -, hordered, -⟩ := tables_of_load h
  rw [hordered, List.mem_insertionSort] at htable
  obtain ⟨n, hn⟩ := Entries.mem_values.mp htable
  rwa [(describes_of_load h hn).1]

theorem sorted_of_load : catalog.ordered.Pairwise (Before collation) := by
  obtain ⟨ranks, -, hordered, -⟩ := tables_of_load h
  have htotal : Std.Total (Before collation) := by
    refine ⟨fun a b => ?_⟩
    rcases lt_trichotomy a.rank b.rank with h | h | h
    · exact .inl (.inl h)
    · exact (le_total (collation a.name) (collation b.name)).imp (fun h' => .inr ⟨h, h'⟩) fun h' => .inr ⟨h.symm, h'⟩
    · exact .inr (.inl h)
  have htrans : IsTrans TableInfo (Before collation) := by
    refine ⟨fun a b c hab hbc => ?_⟩
    rcases hab with hab | ⟨hab, hab'⟩
    · rcases hbc with hbc | ⟨hbc, -⟩
      · exact .inl (hab.trans hbc)
      · exact .inl (hbc ▸ hab)
    · rcases hbc with hbc | ⟨hbc, hbc'⟩
      · exact .inl (hab ▸ hbc)
      · exact .inr ⟨hab.trans hbc, hab'.trans hbc'⟩
  rw [hordered]
  exact List.pairwise_insertionSort _ _

/-- A table comes after each other one it refers to, unless that one leads back to it. -/
theorem parent_first {child parent : TableInfo} (hchild : child ∈ catalog.ordered) (hparent : parent ∈ catalog.ordered) (hne : parent ≠ child)
    (hrefers : Refers catalog schema child.name parent.name) :
    Relation.ReflTransGen (Refers catalog schema) parent.name child.name ∨
      parent.rank < child.rank ∧ [parent, child].Sublist catalog.ordered := by
  obtain ⟨ranks, hranks, -, hget⟩ := tables_of_load h
  obtain ⟨ranks', hranks', habove⟩ := ranks_above excludeTables schema
  obtain rfl := Option.some.inj (hranks.symm.trans hranks')
  have hknown : ∀ n, n ∈ catalog.tables.keys ↔ ((readSchema excludeTables schema).tables.get? n).isSome = true :=
    fun n => (mem_keys_of_load h n).trans (mem_referencesRead n)
  have hrank : ∀ table ∈ catalog.ordered, table.rank = (ranks.lookup table.name).getD 0 := by
    intro table htable
    have htable := get?_of_ordered h htable
    rw [hget, Option.map_eq_some_iff] at htable
    obtain ⟨before, -, heq⟩ := htable
    have hrank := congrArg TableInfo.rank heq
    exact hrank.symm
  obtain ⟨hchildKey, hparentKey, hrow⟩ := hrefers
  have hnames : parent.name ≠ child.name := by
    intro heq
    have hsame := (get?_of_ordered h hparent).symm.trans (heq ▸ get?_of_ordered h hchild)
    exact hne (Option.some.inj hsame)
  have hmem : parent.name ∈ parentsOf (readSchema excludeTables schema).tables schema child.name :=
    mem_parentsOf.mpr ⟨⟨(hknown _).mp hchildKey, (hknown _).mp hparentKey, hnames⟩, hrow⟩
  rcases habove child.name ((mem_keys_of_load h _).mp hchildKey) parent.name hmem with hcycle | ⟨rank, above, hr, ha, hlt⟩
  · refine .inl (Relation.ReflTransGen.mono (fun c p hp => ?_) _ _ hcycle)
    obtain ⟨⟨hc, hp, -⟩, hedge⟩ := mem_parentsOf.mp hp
    exact ⟨(hknown _).mpr hc, (hknown _).mpr hp, hedge⟩
  · have hless : parent.rank < child.rank := by
      rw [hrank parent hparent, hrank child hchild, hr, ha]
      exact hlt
    refine .inr ⟨hless, first_of_sorted (sorted_of_load h) hparent hchild hne ?_⟩
    rintro (hback | ⟨hback, -⟩)
    · exact absurd (hless.trans hback) (lt_irrefl _)
    · exact absurd hback hless.ne'

end Loaded

/-- **The catalog.**  Loading it always ends.  It holds the tables that qualify and no others, each as the database describes it; and it
orders them so that a table comes after each other table it refers to, unless that one leads back to it. -/
theorem loadCatalog_exact (excludeTables : List String) (sha256 : List Char → List Char) (collation : String → κ) (schema : Description) :
    ∃ catalog, loadCatalog excludeTables sha256 collation schema = some catalog ∧
      (∀ n, n ∈ catalog.tables.keys ↔ Qualifies excludeTables schema n) ∧
      (∀ n table, catalog.tables.get? n = some table → table.name = n ∧ Describes schema table) ∧
      catalog.ordered.Perm catalog.tables.values ∧
      ∀ child ∈ catalog.ordered, ∀ parent ∈ catalog.ordered, parent ≠ child → Refers catalog schema child.name parent.name →
        Relation.ReflTransGen (Refers catalog schema) parent.name child.name ∨
          parent.rank < child.rank ∧ [parent, child].Sublist catalog.ordered := by
  obtain ⟨catalog, h⟩ := exists_load excludeTables sha256 collation schema
  refine ⟨catalog, h, qualifies_of_load h, fun n table htable => describes_of_load h htable, ?_,
    fun child hchild parent hparent => parent_first h hchild hparent⟩
  obtain ⟨-, -, hordered, -⟩ := tables_of_load h
  rw [hordered]
  exact List.perm_insertionSort _ _

/-! ### The fingerprint -/

/-- Names and types as a schema has them: no line breaks in a type, and indexes whose names and columns are plain. -/
structure Description.Plain (schema : Description) : Prop where
  columns : ∀ row ∈ schema.columns, '\n' ∉ row.columnType.toList ∧ '\n' ∉ row.isNullable.toList
  indexes : ∀ row ∈ schema.statistics, isSafeIdentifier row.indexName = true ∧ isSafeIdentifier row.columnName = true

theorem signature_foldl_readUnique {read : Reading} {indexes : List IndexEntry}
    (hknown : ∀ e ∈ indexes, (read.tables.get? e.table).isSome = true) (line : List Char) :
    line ∈ (indexes.foldl readUnique read).signature ↔ line ∈ read.signature ∨ ∃ e ∈ indexes, e.unique = true ∧ line = e.line := by
  induction indexes generalizing read with
  | nil => simp
  | cons e indexes ih =>
      obtain ⟨table, htable⟩ := Option.isSome_iff_exists.mp (hknown e List.mem_cons_self)
      have hlater : ∀ e' ∈ indexes, ((readUnique read e).tables.get? e'.table).isSome = true := by
        intro e' he'
        rw [get?_readUnique]
        have hknown' := hknown e' (List.mem_cons_of_mem _ he')
        split
        · rw [oneUnique, Option.isSome_map]
          exact hknown'
        · exact hknown'
      rw [List.foldl_cons, ih hlater, readUnique, htable]
      cases hunique : e.unique with
      | true => simp [hunique, or_assoc]
      | false => simp [hunique]

/-- What the signature says of a column. -/
def HasColumn (signature : List (List Char)) (n c : String) : Prop :=
  isSafeIdentifier c = true ∧ ∃ rest, 'c' :: '|' :: (n.toList ++ '|' :: (c.toList ++ '|' :: rest)) ∈ signature

/-- What it says of a unique index. -/
def HasIndex (signature : List (List Char)) (n x : String) (columns : List String) : Prop :=
  isSafeIdentifier x = true ∧ columns ≠ [] ∧ (∀ c ∈ columns, isSafeIdentifier c = true) ∧ IndexEntry.line ⟨n, x, true, columns⟩ ∈ signature

theorem columnLine_inj {row : ColumnRow} {n c : String} {rest : List Char} (hrow : row.Plain) (hn : isSafeIdentifier n = true)
    (hc : isSafeIdentifier c = true) (h : 'c' :: '|' :: (n.toList ++ '|' :: (c.toList ++ '|' :: rest)) = row.line) :
    n = row.tableName ∧ c = row.columnName := by
  simp only [ColumnRow.line, List.cons_append, List.append_assoc, List.cons.injEq, true_and] at h
  obtain ⟨htable, h⟩ := (cut_inj (bar_of_safe hn).1 (bar_of_safe hrow.table).1).mp h
  obtain ⟨hcolumn, -⟩ := (cut_inj (bar_of_safe hc).1 (bar_of_safe hrow.column).1).mp h
  exact ⟨String.toList_inj.mp htable, String.toList_inj.mp hcolumn⟩

theorem indexLine_inj {n n' x x' : String} {columns columns' : List String} {u u' : Bool} (hn : isSafeIdentifier n = true)
    (hn' : isSafeIdentifier n' = true) (hx : isSafeIdentifier x = true) (hx' : isSafeIdentifier x' = true) (hne : columns ≠ [])
    (hne' : columns' ≠ []) (hc : ∀ c ∈ columns, isSafeIdentifier c = true) (hc' : ∀ c ∈ columns', isSafeIdentifier c = true)
    (h : IndexEntry.line ⟨n, x, u, columns⟩ = IndexEntry.line ⟨n', x', u', columns'⟩) : n = n' ∧ x = x' ∧ columns = columns' := by
  simp only [IndexEntry.line, List.cons_append, List.append_assoc, List.cons.injEq, true_and] at h
  obtain ⟨htable, h⟩ := (cut_inj (bar_of_safe hn).1 (bar_of_safe hn').1).mp h
  obtain ⟨hname, h⟩ := (cut_inj (bar_of_safe hx).1 (bar_of_safe hx').1).mp h
  -- the names of columns have no comma, so the list is read back
  have hback : ∀ list : List String, list ≠ [] → (∀ c ∈ list, isSafeIdentifier c = true) →
      ([','].intercalate (list.map String.toList)).splitOn ',' = list.map String.toList := by
    intro list hlist hsafe
    refine List.splitOn_intercalate ',' (fun text htext => ?_) (by simpa using hlist)
    obtain ⟨c, hmem, rfl⟩ := List.mem_map.mp htext
    exact (bar_of_safe (hsafe c hmem)).2
  have hmap : columns.map String.toList = columns'.map String.toList := by rw [← hback columns hne hc, h, hback columns' hne' hc']
  exact ⟨String.toList_inj.mp htable, String.toList_inj.mp hname, List.map_injective_iff.mpr (fun _ _ => String.toList_inj.mp) hmap⟩

/-- The entries that are read have plain names. -/
theorem entry_plain (hplain : schema.Plain) {e : IndexEntry} (he : e ∈ indexesRead excludeTables schema) :
    isSafeIdentifier e.table = true ∧ isSafeIdentifier e.name = true ∧ e.columns ≠ [] ∧ ∀ c ∈ e.columns, isSafeIdentifier c = true := by
  obtain ⟨hknown, hentry⟩ := (mem_indexesRead e).mp he
  refine ⟨safe_of_known hknown, ?_, (entry_named hentry).2.2, ?_⟩
  all_goals
    cases hrows : indexRows schema e.table e.name with
    | nil =>
        rw [hrows] at hentry
        cases hentry
    | cons first rest =>
        have hmem : ∀ row ∈ first :: rest, row ∈ schema.statistics := fun row hrow => (List.mem_filter.mp (hrows ▸ hrow)).1
        rw [hrows] at hentry
        obtain rfl := Option.some.inj hentry
        first
        | exact (hplain.indexes first (hmem first List.mem_cons_self)).1
        | intro c hc
          obtain ⟨row, hrow, rfl⟩ := List.mem_map.mp hc
          exact (hplain.indexes row (hmem row hrow)).2

theorem signature_readSchema (line : List Char) :
    line ∈ (readSchema excludeTables schema).signature ↔
      line ∈ (columnsRead excludeTables schema).signature ∨ ∃ e ∈ indexesRead excludeTables schema, e.unique = true ∧ line = e.line :=
  signature_foldl_readUnique (fun e he => ((mem_indexesRead e).mp he).1) line

/-- **The lines of a signature**: one for each column that is replicated of a table that is left, one for each unique index of such a table,
and no others but those of columns of tables that are left out. -/
theorem mem_signature (line : List Char) :
    line ∈ (readSchema excludeTables schema).signature →
      (∃ row ∈ schema.columns, row.Plain ∧ line = row.line) ∨ ∃ e ∈ indexesRead excludeTables schema, e.unique = true ∧ line = e.line := by
  intro h
  have hsafe : ∀ n, ((readTables excludeTables schema.tables).get? n).isSome = true → isSafeIdentifier n = true := by
    intro n hn
    rw [get?_readTables] at hn
    split at hn
    · next hname => exact safe_of_replicated hname.2
    · cases hn
  refine ((signature_readSchema line).mp h).imp_left fun hcolumn => ?_
  rcases column_of_line ⟨readTables excludeTables schema.tables, []⟩ hsafe schema.columns line hcolumn with hnil | hrow
  · cases hnil
  · exact hrow

theorem hasColumn_iff {n c : String} (hn : ((columnsRead excludeTables schema).tables.get? n).isSome = true) :
    HasColumn (readSchema excludeTables schema).signature n c ↔ c ∈ (columnsOf schema n).map ColumnRow.columnName := by
  constructor
  · rintro ⟨hc, rest, hline⟩
    rcases mem_signature _ hline with ⟨row, hrow, hplain, heq⟩ | ⟨e, -, -, heq⟩
    · obtain ⟨rfl, rfl⟩ := columnLine_inj hplain (safe_of_known hn) hc heq
      exact List.mem_map.mpr ⟨row, List.mem_filter.mpr ⟨hrow, by simp [hplain.generated]⟩, rfl⟩
    · cases heq
  · intro hc
    obtain ⟨row, hrow, rfl⟩ := List.mem_map.mp hc
    have hsafe : isSafeIdentifier row.columnName = true := by
      rw [get?_columnsRead] at hn
      split at hn
      · next hleft => exact hleft.2 row hrow
      · cases hn
    obtain ⟨hmem, htest⟩ := List.mem_filter.mp hrow
    obtain ⟨rfl, hgen⟩ : row.tableName = n ∧ row.generated = false := by simpa using htest
    refine ⟨hsafe, row.columnType.toList ++ '|' :: row.isNullable.toList, ?_⟩
    have hline := line_of_column ⟨readTables excludeTables schema.tables, []⟩ schema.columns hmem hgen hn
    have hkept := (signature_readSchema row.line).mpr (.inl hline)
    simpa [ColumnRow.line] using hkept

theorem hasIndex_iff (hplain : schema.Plain) {n x : String} {columns : List String} (hn : isSafeIdentifier n = true) :
    HasIndex (readSchema excludeTables schema).signature n x columns ↔
      ((columnsRead excludeTables schema).tables.get? n).isSome = true ∧ uniqueOf schema n x = some columns := by
  constructor
  · rintro ⟨hx, hne, hcolumns, hline⟩
    rcases mem_signature _ hline with ⟨row, -, -, heq⟩ | ⟨e, he, hunique, heq⟩
    · cases heq
    · obtain ⟨htable, hname, hne', hcolumns'⟩ := entry_plain hplain he
      obtain ⟨rfl, rfl, rfl⟩ := indexLine_inj hn htable hx hname hne hne' hcolumns hcolumns' heq
      have hknown := ((mem_indexesRead e).mp he).1
      exact ⟨hknown, (unique_iff hknown).mpr ⟨e, List.mem_filter.mpr ⟨he, by simp [hunique]⟩, rfl, rfl⟩⟩
  · rintro ⟨hknown, hunique⟩
    obtain ⟨e, he, rfl, rfl⟩ := (unique_iff hknown).mp hunique
    obtain ⟨hmem, htest⟩ := List.mem_filter.mp he
    obtain ⟨rfl, htrue⟩ : e.table = n ∧ e.unique = true := by simpa using htest
    obtain ⟨-, hname, hne, hcolumns⟩ := entry_plain hplain hmem
    exact ⟨hname, hne, hcolumns, (signature_readSchema _).mpr (.inr ⟨e, hmem, htrue, rfl⟩)⟩

/-- A schema's tables are those its signature has a column and a primary key of. -/
theorem qualifies_iff (hplain : schema.Plain) (n : String) :
    Qualifies excludeTables schema n ↔ isSafeIdentifier n = true ∧ (∃ c, HasColumn (readSchema excludeTables schema).signature n c) ∧
      ∃ columns, HasIndex (readSchema excludeTables schema).signature n "PRIMARY" columns := by
  have hknown : Qualifies excludeTables schema n → ((columnsRead excludeTables schema).tables.get? n).isSome = true := by
    intro hq
    rw [get?_columnsRead, if_pos ⟨⟨hq.known, hq.replicated⟩, hq.safe⟩]
    rfl
  constructor
  · intro hq
    have hn : isSafeIdentifier n = true := safe_of_replicated hq.replicated
    obtain ⟨row, hrow⟩ := List.exists_mem_of_ne_nil _ hq.columns
    obtain ⟨columns, hcolumns⟩ := Option.isSome_iff_exists.mp hq.primary
    exact ⟨hn, ⟨_, (hasColumn_iff (hknown hq)).mpr (List.mem_map.mpr ⟨row, hrow, rfl⟩)⟩, columns,
      (hasIndex_iff hplain hn).mpr ⟨hknown hq, hcolumns⟩⟩
  · rintro ⟨hn, ⟨c, hc⟩, columns, hcolumns⟩
    obtain ⟨hleft, hunique⟩ := (hasIndex_iff hplain hn).mp hcolumns
    have hmem := (hasColumn_iff hleft).mp hc
    rw [get?_columnsRead] at hleft
    split at hleft
    · next hname =>
        refine ⟨hname.1.1, hname.1.2, hname.2, ?_, by rw [hunique]; rfl⟩
        rintro hnone
        rw [hnone] at hmem
        cases hmem
    · cases hleft

/-- Two catalogs hold the same tables, and each with the same columns, key and unique indexes. -/
structure Matches (a b : Catalog) : Prop where
  tables : ∀ n, n ∈ a.tables.keys ↔ n ∈ b.tables.keys
  columns : ∀ n s t, a.tables.get? n = some s → b.tables.get? n = some t → ∀ c, c ∈ s.columns ↔ c ∈ t.columns
  pk : ∀ n s t, a.tables.get? n = some s → b.tables.get? n = some t → s.pk = t.pk
  uniques : ∀ n s t, a.tables.get? n = some s → b.tables.get? n = some t → ∀ u, u ∈ s.uniques ↔ u ∈ t.uniques

/-- The text that is hashed. -/
def signatureText (catalog : Catalog) : List Char := ['\n'].intercalate (catalog.signature.insertionSort unitsLe)

theorem break_of_safe {name : String} (h : isSafeIdentifier name = true) : '\n' ∉ name.toList := by
  rw [isSafeIdentifier, Bool.and_eq_true, Bool.and_eq_true] at h
  have hbreak : isWord '\n' = false := rfl
  exact fun hmem => Bool.false_ne_true (hbreak.symm.trans (List.all_eq_true.mp h.1.2 _ hmem))

/-- A line of a signature is one line. -/
theorem line_plain (hplain : schema.Plain) {line : List Char} (hline : line ∈ (readSchema excludeTables schema).signature) :
    '\n' ∉ line ∧ line ≠ [] := by
  rcases mem_signature line hline with ⟨row, hrow, hp, rfl⟩ | ⟨e, he, -, rfl⟩
  · refine ⟨?_, by simp [ColumnRow.line]⟩
    have htable := break_of_safe hp.table
    have hcolumn := break_of_safe hp.column
    have htype := hplain.columns row hrow
    simp [ColumnRow.line, htable, hcolumn, htype]
  · refine ⟨?_, by simp [IndexEntry.line]⟩
    obtain ⟨htable, hname, -, hcolumns⟩ := entry_plain hplain he
    have hlist : '\n' ∉ [','].intercalate (e.columns.map String.toList) := by
      intro hbreak
      rcases mem_of_mem_intercalate hbreak with heq | ⟨text, htext, hmem⟩
      · cases heq
      · obtain ⟨c, hc, rfl⟩ := List.mem_map.mp htext
        exact break_of_safe (hcolumns c hc) hmem
    have htable := break_of_safe htable
    have hname := break_of_safe hname
    simp [IndexEntry.line, htable, hname, hlist]

/-- The lines are read back from the text. -/
theorem lines_of_text {lines lines' : List (List Char)} (h : ∀ line ∈ lines, '\n' ∉ line ∧ line ≠ []) (h' : ∀ line ∈ lines', '\n' ∉ line ∧ line ≠ [])
    (heq : ['\n'].intercalate lines = ['\n'].intercalate lines') : lines = lines' := by
  have hne : ∀ {list : List (List Char)}, (∀ line ∈ list, '\n' ∉ line ∧ line ≠ []) → list ≠ [] → ['\n'].intercalate list ≠ [] := by
    intro list hlist hne hnil
    have hback := List.splitOn_intercalate '\n' (fun line hline => (hlist line hline).1) hne
    rw [hnil, List.splitOn_nil] at hback
    exact (hlist [] (hback ▸ List.mem_singleton_self _)).2 rfl
  by_cases hl : lines = []
  · by_contra hne'
    rw [hl] at heq hne'
    exact hne h' (Ne.symm hne') heq.symm
  · by_cases hl' : lines' = []
    · rw [hl'] at heq
      exact absurd heq (hne h hl)
    · rw [← List.splitOn_intercalate '\n' (fun line hline => (h line hline).1) hl, heq,
        List.splitOn_intercalate '\n' (fun line hline => (h' line hline).1) hl']

/-- A schema with a table of accounts, its columns in one order or the other, beside one that stays on its node. -/
def accountSchema (columns : List ColumnRow) : Description where
  tables := ["users", "request_logs"]
  columns := columns
  statistics := [⟨"users", "PRIMARY", 0, "id"⟩, ⟨"users", "name", 0, "name"⟩]
  keyColumnUsage := []

def idColumn : ColumnRow := ⟨"users", "id", "char", "char(36)", "NO", some "", some 36⟩

def nameColumn : ColumnRow := ⟨"users", "name", "varchar", "varchar(64)", "YES", none, some 64⟩

end Pokyh.Cluster.Catalog

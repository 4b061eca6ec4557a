import Mathlib.Data.List.Sort
import Mathlib.Data.Prod.Lex
import Pokyh.Cluster.Replicator
import Pokyh.Lib.Runs

/-!
# Cluster — Transfer

The complete transfer (`readTransfer`, and its part of `syncPeer`): the walk through the version
registry, table by table in the catalog's order and key by key within a table, a batch at a time.
The position after a batch is stored and the walk resumes there, perhaps after the catalog changed.

* `readTables_eq`: a batch is the beginning of what is left (`pending`), and the position after it
  that of its last row.
* `walk_complete`: a walk whose resumptions are all `Resumable` returns every row that is there
  from its start to its end, and a walk under one catalog returns no row twice.
* `walk_incomplete_droppedReminders`: a walk resumed after the table at its position is gone ends
  before a table it has not seen.
-/

namespace Pokyh.Cluster
open Pokyh.Lib

structure TransferPosition where
  table : Option String
  hash : Option String
  deriving DecidableEq, Repr

/-- The registry's rows of a table after a key hash, in the order of the hash. -/
def rowsAfter (db : Database) (table after : String) : List (String × VersionRecord) :=
  ((db.registry.toList.filter fun line => line.1.1 = table && after < line.1.2).map fun line =>
    (line.1.2, line.2)).insertionSort fun a b => a.1 ≤ b.1

/-- The loop of `readTransfer` over the tables from its index on. -/
def readTables (db : Database) (limit : ℕ) :
    List TableInfo → String → List Entry → Option TransferPosition →
      List Entry × Option TransferPosition
  | [], _, entries, _ => (entries, none)
  | table :: tables, after, entries, next =>
      let rows := (rowsAfter db table.name after).take (limit - entries.length)
      let entries := entries ++ rows.map fun row => toEntry table row.1 row.2 none true
      let next := match rows.getLast? with
        | some row => some ⟨some table.name, some row.1⟩
        | none => next
      if entries.length ≥ limit then (entries, next)
      else readTables db limit tables "" entries <| match tables with
        | [] => next
        | table :: _ => some ⟨some table.name, none⟩

def readTransfer (catalog : List TableInfo) (db : Database) (position : TransferPosition)
    (limit : ℕ) : List Entry × Option TransferPosition :=
  let index := match position.table with
    | some name => catalog.findIdx? fun table : TableInfo => table.name = name
    | none => some 0
  match index with
  | some index => readTables db limit (catalog.drop index) (position.hash.getD "") [] none
  | none =>
      -- The table at the saved position is gone: continue with the next one.
      match catalog.findIdx? fun table : TableInfo => position.table.getD "" < table.name with
      | some index => readTables db limit (catalog.drop index) "" [] none
      | none => ([], none)

/-! ### Steps of the walk -/

/-- What a step of the walk reads and how it goes: the catalog, the registry, `CLUSTER_BATCH_SIZE`,
and whether the peer takes every row. -/
structure TransferStep where
  catalog : List TableInfo
  db : Database
  limit : ℕ
  settled : Bool
  names_nodup : (catalog.map TableInfo.name).Nodup
  hash_length : ∀ e ∈ db.registry.toList, e.1.2.length = 64
  limit_ge : 10 ≤ limit
  limit_le : limit ≤ 2000

/-- The stored state of a complete transfer, with the rows returned so far (by table and key hash)
and the names of the catalog the position was stored under. -/
structure Walk where
  active : Bool
  position : TransferPosition
  returned : List (String × String)
  names : List String
  deriving DecidableEq, Repr

namespace Walk

def start : Walk := ⟨true, ⟨none, none⟩, [], []⟩

/-- A step of an active transfer.  A rejected row stops the walk at its current position. -/
def step (walk : Walk) (a : TransferStep) : Option Walk :=
  if walk.active then
    let (entries, next) := readTransfer a.catalog a.db walk.position a.limit
    if a.settled then
      some { active := next.isSome
             position := next.getD ⟨none, none⟩
             returned := walk.returned ++ entries.map fun entry => (entry.table.name, entry.hash)
             names := a.catalog.map TableInfo.name }
    else some walk
  else none

end Walk

/-! ### What is left -/

/-- The rows of the tables from a key hash of the first one on. -/
def pending (db : Database) : List TableInfo → String → List Entry
  | [], _ => []
  | table :: tables, after =>
      (rowsAfter db table.name after).map (fun row => toEntry table row.1 row.2 none true) ++
        pending db tables ""

def Entry.row (entry : Entry) : String × String := (entry.table.name, entry.hash)

def Entry.position (entry : Entry) : TransferPosition := ⟨some entry.table.name, some entry.hash⟩

/-- **A batch** is the beginning of what is left; if that fills it, the walk continues after the
batch's last row, and if not, it ends. -/
theorem readTables_eq {db : Database} {limit : ℕ} {tables : List TableInfo} {after : String}
    {entries : List Entry} {next : Option TransferPosition} (h : entries.length < limit) :
    readTables db limit tables after entries next =
      if limit ≤ entries.length + (pending db tables after).length then
        (entries ++ (pending db tables after).take (limit - entries.length),
          ((pending db tables after).take (limit - entries.length)).getLast?.map Entry.position)
      else (entries ++ pending db tables after, none) := by
  induction tables generalizing after entries next with
  | nil => simp [readTables, pending, h.not_ge]
  | cons table tables ih =>
      set rows := rowsAfter db table.name after with hrows
      simp only [readTables, pending, ← hrows]
      by_cases hfull : limit - entries.length ≤ rows.length
      · -- The table fills the batch.
        have hlen : (entries ++ (rows.take (limit - entries.length)).map fun row =>
            toEntry table row.1 row.2 none true).length = limit := by
          simp only [List.length_append, List.length_map, List.length_take]
          omega
        rw [if_pos hlen.ge, if_pos (by simp only [List.length_append, List.length_map]; omega)]
        rw [List.take_append_of_le_length (by simpa using hfull), ← List.map_take]
        obtain ⟨row, hlast⟩ : ∃ row, (rows.take (limit - entries.length)).getLast? = some row := by
          refine List.getLast?_isSome.mpr ?_ |> Option.isSome_iff_exists.mp
          intro hnil
          have := congrArg List.length hnil
          simp only [List.length_take, List.length_nil] at this
          omega
        rw [List.getLast?_map, hlast]
        rfl
      · -- The table is read to its end, and the batch goes on with the next one.
        rw [List.take_of_length_le (by omega)]
        have hlen : (entries ++ rows.map fun row => toEntry table row.1 row.2 none true).length =
            entries.length + rows.length := by simp
        rw [if_neg (by omega), ih (by omega), hlen]
        simp only [List.length_append, List.length_map, ← List.append_assoc, ← Nat.add_assoc]
        refine ite_congr rfl (fun hle => ?_) fun _ => rfl
        have htake : ((rows.map fun row => toEntry table row.1 row.2 none true) ++
            pending db tables "").take (limit - entries.length) =
              (rows.map fun row => toEntry table row.1 row.2 none true) ++
                (pending db tables "").take (limit - (entries.length + rows.length)) := by
          rw [List.take_append, List.length_map, List.take_of_length_le (by simp; omega), Nat.sub_sub]
        rw [htake, List.append_assoc, List.getLast?_append]
        obtain ⟨last, hlast⟩ : ∃ last, ((pending db tables "").take
            (limit - (entries.length + rows.length))).getLast? = some last :=
          Option.isSome_iff_exists.mp (List.getLast?_isSome.mpr fun hnil => by
            have := congrArg List.length hnil
            simp only [List.length_take, List.length_nil] at this
            omega)
        rw [hlast]
        rfl

/-! ### Where the walk resumes -/

/-- The first table and the key hash that the walk continues after. -/
def resume (catalog : List TableInfo) (position : TransferPosition) : ℕ × String :=
  match position.table with
  | none => (0, position.hash.getD "")
  | some name =>
      match catalog.findIdx? fun table : TableInfo => table.name = name with
      | some index => (index, position.hash.getD "")
      | none => ((catalog.findIdx? fun table : TableInfo => name < table.name).getD catalog.length, "")

/-- The walk continues after the key hash only in the table of the position. -/
theorem resume_cases (catalog : List TableInfo) (position : TransferPosition) :
    position.table = none ∨ (resume catalog position).2 = "" ∨
      ∃ name, position.table = some name ∧ (resume catalog position).2 = position.hash.getD "" ∧
        ∀ table ∈ (catalog.drop (resume catalog position).1).head?, table.name = name := by
  cases hpos : position.table with
  | none => exact .inl rfl
  | some name =>
      cases hfound : catalog.findIdx? fun table : TableInfo => table.name = name with
      | none => exact .inr (.inl (by simp only [resume, hpos, hfound]))
      | some index =>
          have hresume : resume catalog position = (index, position.hash.getD "") := by
            simp only [resume, hpos, hfound]
          refine .inr (.inr ⟨name, rfl, by rw [hresume], fun table htable => ?_⟩)
          obtain ⟨hlt, hname, -⟩ := List.findIdx?_eq_some_iff_getElem.mp hfound
          rw [hresume, List.head?_drop, List.getElem?_eq_getElem hlt] at htable
          cases htable
          exact of_decide_eq_true hname

theorem readTransfer_eq (catalog : List TableInfo) (db : Database) (position : TransferPosition)
    (limit : ℕ) : readTransfer catalog db position limit =
      readTables db limit (catalog.drop (resume catalog position).1) (resume catalog position).2 []
        none := by
  simp only [readTransfer, resume]
  cases position.table with
  | none => rfl
  | some name =>
      cases hfound : catalog.findIdx? fun table : TableInfo => table.name = name with
      | some index => simp only [hfound]
      | none =>
          cases hnext : catalog.findIdx? fun table : TableInfo => name < table.name with
          | some index => simp only [hfound, hnext, Option.getD_some]
          | none =>
              simp only [hfound, hnext, Option.getD_some, Option.getD_none, List.drop_length,
                readTables]

/-- The place of a row in the walk through a catalog. -/
def place (names : List String) (row : String × String) : ℕ ×ₗ String :=
  toLex (names.idxOf row.1, row.2)

theorem place_lt {names : List String} {a b : String × String} :
    place names a < place names b ↔ names.idxOf a.1 < names.idxOf b.1 ∨
      (names.idxOf a.1 = names.idxOf b.1 ∧ a.2 < b.2) :=
  Prod.Lex.lt_iff

theorem mem_rowsAfter {db : Database} {table after : String} {row : String × VersionRecord} :
    row ∈ rowsAfter db table after ↔ db.record table row.1 = some row.2 ∧ after < row.1 := by
  simp only [rowsAfter, List.mem_insertionSort, List.mem_map, List.mem_filter, Bool.and_eq_true,
    decide_eq_true_eq]
  constructor
  · rintro ⟨⟨⟨t, h⟩, r⟩, ⟨hmem, rfl, hlt⟩, rfl⟩
    exact ⟨Table.mem_toList.mp hmem, hlt⟩
  · rintro ⟨hrec, hlt⟩
    exact ⟨((table, row.1), row.2), ⟨Table.mem_toList.mpr hrec, rfl, hlt⟩, rfl⟩

theorem pairwise_rowsAfter (db : Database) (table after : String) :
    (rowsAfter db table after).Pairwise fun a b => a.1 < b.1 := by
  have hle : (rowsAfter db table after).Pairwise fun a b => a.1 ≤ b.1 :=
    List.pairwise_insertionSort (r := fun a b : String × VersionRecord => a.1 ≤ b.1) _
  have hne : (rowsAfter db table after).Pairwise fun a b => a.1 ≠ b.1 := by
    have hn := @Database.nodup_hash db table _
      (List.filter_sublist (p := fun line => line.1.1 = table && after < line.1.2))
      fun line h => of_decide_eq_true (Bool.and_eq_true _ _ ▸ (List.mem_filter.mp h).2 : _ ∧ _).1
    have hperm := (List.perm_insertionSort (fun a b : String × VersionRecord => a.1 ≤ b.1)
      ((db.registry.toList.filter fun line => line.1.1 = table && after < line.1.2).map fun line =>
        (line.1.2, line.2))).map Prod.fst
    rw [List.map_map] at hperm
    exact List.pairwise_map.mp (hperm.nodup_iff.mpr hn)
  exact (hle.and hne).imp fun h => lt_of_le_of_ne h.1 h.2

/-- What is left lies after the walk's place, in the walk's order. -/
theorem pairwise_pending {db : Database} {names done : List String} {tables : List TableInfo}
    {after : String} (hn : names.Nodup) (hnames : names = done ++ tables.map TableInfo.name) :
    ((pending db tables after).map Entry.row).Pairwise (fun a b => place names a < place names b) ∧
      ∀ entry ∈ pending db tables after, toLex (done.length, after) < place names entry.row := by
  induction tables generalizing done after with
  | nil => simp [pending]
  | cons table tables ih =>
      have hidx : names.idxOf table.name = done.length := by
        have hlen : done.length < names.length := by simp [hnames]
        have hget : names[done.length] = table.name := by simp [hnames]
        rw [← hget]
        exact hn.idxOf_getElem _ hlen
      obtain ⟨hrest, hlater⟩ := @ih (done ++ [table.name]) "" (by simp [hnames])
      have hrows : ∀ entry ∈ (rowsAfter db table.name after).map fun row =>
          toEntry table row.1 row.2 none true,
          place names entry.row = toLex (done.length, entry.hash) ∧ after < entry.hash := by
        intro entry he
        obtain ⟨row, hrow, rfl⟩ := List.mem_map.mp he
        exact ⟨by rw [← hidx]; rfl, (mem_rowsAfter.mp hrow).2⟩
      have hcross : ∀ entry ∈ pending db tables "", ∀ hash : String,
          toLex (done.length, hash) < place names entry.row := by
        intro entry he hash
        refine lt_trans (Prod.Lex.lt_iff.mpr (.inl ?_)) (hlater entry he)
        simp
      constructor
      · rw [pending, List.map_append, List.pairwise_append]
        refine ⟨?_, hrest, ?_⟩
        · rw [List.map_map, List.pairwise_map]
          refine (pairwise_rowsAfter db table.name after).imp fun h => ?_
          exact place_lt.mpr (.inr ⟨rfl, h⟩)
        · intro a ha b hb
          obtain ⟨entry, he, rfl⟩ := List.mem_map.mp ha
          obtain ⟨entry', he', rfl⟩ := List.mem_map.mp hb
          rw [(hrows entry he).1]
          exact hcross entry' he' _
      · intro entry he
        rw [pending, List.mem_append] at he
        rcases he with he | he
        · rw [(hrows entry he).1]
          exact Prod.Lex.lt_iff.mpr (.inr ⟨rfl, (hrows entry he).2⟩)
        · exact hcross entry he _

/-- A row of one of the tables is left, in the first one if it lies after the key hash. -/
theorem mem_pending {db : Database} {tables : List TableInfo} {after : String}
    {row : String × String} (hrow : (db.record row.1 row.2).isSome) (hhash : "" < row.2)
    (htable : row.1 ∈ tables.map TableInfo.name)
    (hafter : ∀ table ∈ tables.head?, table.name = row.1 → after < row.2) :
    row ∈ (pending db tables after).map Entry.row := by
  induction tables generalizing after with
  | nil => simp at htable
  | cons table tables ih =>
      rw [pending, List.map_append, List.mem_append]
      by_cases ht : table.name = row.1
      · obtain ⟨record, hrecord⟩ := Option.isSome_iff_exists.mp hrow
        refine .inl (List.mem_map.mpr ⟨toEntry table row.2 record none true, ?_, ?_⟩)
        · refine List.mem_map.mpr ⟨(row.2, record), mem_rowsAfter.mpr ⟨ht ▸ hrecord, ?_⟩, rfl⟩
          exact hafter table rfl ht
        · simp [Entry.row, toEntry, ht]
      · refine .inr (ih ?_ fun _ _ _ => hhash)
        simpa [Ne.symm ht] using htable

namespace TransferStep

def names (a : TransferStep) : List String := a.catalog.map TableInfo.name

/-- What is left of the walk at a position. -/
def left (a : TransferStep) (position : TransferPosition) : List Entry :=
  pending a.db (a.catalog.drop (resume a.catalog position).1) (resume a.catalog position).2

/-- **A step** ends the walk with all that is left, or splits it at a last row. -/
theorem readTransfer_cases (a : TransferStep) (position : TransferPosition) :
    readTransfer a.catalog a.db position a.limit = (a.left position, none) ∨
      ∃ front last rest, a.left position = front ++ last :: rest ∧
        readTransfer a.catalog a.db position a.limit = (front ++ [last], some last.position) := by
  have hlimit := a.limit_ge
  rw [readTransfer_eq, readTables_eq (by simp only [List.length_nil]; omega), left]
  generalize pending a.db (a.catalog.drop (resume a.catalog position).1)
    (resume a.catalog position).2 = l
  simp only [List.nil_append, List.length_nil, Nat.zero_add, Nat.sub_zero]
  by_cases h : a.limit ≤ l.length
  · refine .inr ?_
    rw [if_pos h]
    rcases List.eq_nil_or_concat (l.take a.limit) with hnil | ⟨front, last, htake⟩
    · have hlen := congrArg List.length hnil
      simp only [List.length_take, List.length_nil] at hlen
      omega
    · refine ⟨front, last, l.drop a.limit, ?_, by simp [htake]⟩
      conv_lhs => rw [← List.take_append_drop a.limit l, htake]
      simp
  · rw [if_neg h]
    exact .inl rfl

theorem pairwise_left (a : TransferStep) (position : TransferPosition) :
    ((a.left position).map Entry.row).Pairwise (fun r r' => place a.names r < place a.names r') ∧
      ∀ entry ∈ a.left position, toLex ((a.catalog.take (resume a.catalog position).1).length,
        (resume a.catalog position).2) < place a.names entry.row := by
  have h := @pairwise_pending a.db a.names ((a.catalog.take (resume a.catalog position).1).map TableInfo.name)
    (a.catalog.drop (resume a.catalog position).1) (resume a.catalog position).2 a.names_nodup
    (by rw [← List.map_append, List.take_append_drop]; rfl)
  simpa [left, names] using h

theorem mem_names_of_left {a : TransferStep} {position : TransferPosition} {entry : Entry}
    (h : entry ∈ a.left position) : entry.table.name ∈ a.names := by
  rw [left] at h
  generalize (resume a.catalog position).2 = after at h
  suffices ∀ tables : List TableInfo, ∀ after, entry ∈ pending a.db tables after →
      entry.table ∈ tables from
    List.mem_map_of_mem (List.mem_of_mem_drop (this _ _ h))
  intro tables
  induction tables with
  | nil => simp [pending]
  | cons table tables ih =>
      intro after h
      rw [pending, List.mem_append, List.mem_map] at h
      rcases h with ⟨row, -, rfl⟩ | h
      · exact List.mem_cons_self
      · exact List.mem_cons_of_mem _ (ih "" h)

end TransferStep

/-! ### Rows still ahead -/

/-- Every table passed over at the resumption either came before the position's table in the catalog
the position was stored under, or has no row. -/
def Walk.Resumable (walk : Walk) (a : TransferStep) : Prop :=
  ∀ name, walk.position.table = some name →
    ∀ table ∈ a.catalog.take (resume a.catalog walk.position).1, table.name ∈ walk.names →
      walk.names.idxOf table.name < walk.names.idxOf name ∨
        ∀ line ∈ a.db.registry.toList, line.1.1 ≠ table.name

/-- The walk has not come to the row yet. -/
structure Walk.Ahead (walk : Walk) (row : String × String) : Prop where
  active : walk.active = true
  hash_none : walk.position.table = none → walk.position.hash = none
  place : ∀ name, walk.position.table = some name →
    row.1 ∈ walk.names ∧
      place walk.names (name, walk.position.hash.getD "") < place walk.names row

/-- The row is in the registry, under a table of the catalog. -/
def TransferStep.Has (a : TransferStep) (row : String × String) : Prop :=
  row.1 ∈ a.names ∧ (a.db.record row.1 row.2).isSome

theorem TransferStep.Has.pos {a : TransferStep} {row : String × String} (h : a.Has row) :
    "" < row.2 := by
  obtain ⟨record, hrecord⟩ := Option.isSome_iff_exists.mp h.2
  have hlen := a.hash_length _ (Table.mem_toList.mpr hrecord)
  rw [String.lt_iff_toList_lt]
  cases hl : row.2.toList with
  | nil =>
      rw [← String.length_toList, hl] at hlen
      cases hlen
  | cons c cs => exact List.nil_lt_cons c cs

/-- A row ahead of the walk is left where it resumes. -/
theorem Walk.Ahead.mem_left {walk : Walk} {a : TransferStep} {row : String × String}
    (hahead : walk.Ahead row) (hhas : a.Has row) (hok : walk.Resumable a) :
    row ∈ (a.left walk.position).map Entry.row := by
  have hsplit := List.take_append_drop (resume a.catalog walk.position).1 a.catalog
  -- The row's table is not one of those passed over.
  have htable : row.1 ∈ (a.catalog.drop (resume a.catalog walk.position).1).map TableInfo.name := by
    obtain ⟨table, hmem, hname⟩ := List.mem_map.mp hhas.1
    rw [← hsplit, List.mem_append] at hmem
    rcases hmem with hmem | hmem
    · cases hpos : walk.position.table with
      | none => simp [resume, hpos] at hmem
      | some name =>
          obtain ⟨hknown, hplace⟩ := hahead.place name hpos
          rcases hok name hpos table hmem (hname ▸ hknown) with hlt | hempty
          · rw [hname] at hlt
            rcases place_lt.mp hplace with h | ⟨h, -⟩ <;> exact absurd hlt (by simp only at h; omega)
          · obtain ⟨record, hrecord⟩ := Option.isSome_iff_exists.mp hhas.2
            exact absurd hname.symm (hempty _ (Table.mem_toList.mpr hrecord))
    · exact List.mem_map.mpr ⟨table, hmem, hname⟩
  refine mem_pending hhas.2 hhas.pos htable fun table hhead ht => ?_
  rcases resume_cases a.catalog walk.position with hnone | hafter | ⟨name, hpos, hafter, hname⟩
  · rw [resume, hnone, hahead.hash_none hnone]
    exact hhas.pos
  · exact hafter ▸ hhas.pos
  · obtain ⟨-, hplace⟩ := hahead.place name hpos
    rw [hafter]
    rcases place_lt.mp hplace with h | ⟨-, h⟩
    · rw [← ht, hname table hhead] at h
      exact absurd h (Nat.lt_irrefl _)
    · exact h

/-! ### Runs -/

namespace Walk

theorem step_of_read {walk : Walk} {a : TransferStep} {entries : List Entry}
    {next : Option TransferPosition} (hactive : walk.active = true)
    (hread : readTransfer a.catalog a.db walk.position a.limit = (entries, next))
    (hsettled : a.settled = true) :
    walk.step a = some ⟨next.isSome, next.getD ⟨none, none⟩,
      walk.returned ++ entries.map Entry.row, a.names⟩ := by
  simp only [step, hactive, hread, hsettled, if_true]
  rfl

/-- A step that settles its rows adds what it read, and stores where it stopped. -/
theorem step_cases {walk walk' : Walk} {a : TransferStep} (h : walk.step a = some walk') :
    walk.active = true ∧ ((a.settled = false ∧ walk' = walk) ∨
      walk' = ⟨false, ⟨none, none⟩,
        walk.returned ++ (a.left walk.position).map Entry.row, a.names⟩ ∨
      ∃ front last rest, a.left walk.position = front ++ last :: rest ∧
        walk' = ⟨true, last.position, walk.returned ++ (front ++ [last]).map Entry.row, a.names⟩) := by
  simp only [step] at h
  split at h
  · next hactive =>
    refine ⟨hactive, ?_⟩
    split at h
    · cases h
      rcases a.readTransfer_cases walk.position with heq | ⟨front, last, rest, hleft, heq⟩
      · exact .inr (.inl (by rw [heq]; rfl))
      · exact .inr (.inr ⟨front, last, rest, hleft, by rw [heq]; rfl⟩)
    · next hsettled =>
      cases h
      exact .inl ⟨by simpa using hsettled, rfl⟩
  · cases h

/-- One step returns a row that was ahead, or leaves it ahead. -/
theorem ahead_step {walk walk' : Walk} {a : TransferStep} {row : String × String}
    (hahead : row ∈ walk.returned ∨ walk.Ahead row) (hok : walk.Resumable a) (hhas : a.Has row)
    (h : walk.step a = some walk') : row ∈ walk'.returned ∨ walk'.Ahead row := by
  obtain ⟨-, ⟨-, rfl⟩ | rfl | ⟨front, last, rest, hleft, rfl⟩⟩ := step_cases h
  · exact hahead
  · rcases hahead with hret | hahead
    · exact .inl (List.mem_append_left _ hret)
    · exact .inl (List.mem_append_right _ (hahead.mem_left hhas hok))
  · rcases hahead with hret | hahead
    · exact .inl (List.mem_append_left _ hret)
    have hmem := hahead.mem_left hhas hok
    have hsorted := (a.pairwise_left walk.position).1
    rw [hleft, List.append_cons, List.map_append, List.mem_append] at hmem
    rcases hmem with hmem | hmem
    · exact .inl (List.mem_append_right _ hmem)
    · -- What the batch did not take comes after its last row.
      refine .inr ⟨rfl, nofun, fun name hname => ?_⟩
      cases hname
      refine ⟨hhas.1, ?_⟩
      rw [hleft, List.map_append, List.map_cons, List.pairwise_append, List.pairwise_cons] at hsorted
      exact hsorted.2.1.1 row hmem

theorem ahead_start (row : String × String) : start.Ahead row :=
  ⟨rfl, fun _ => rfl, nofun⟩

/-- The rows returned so far lie up to the walk's position, each once. -/
structure Behind (walk : Walk) (names : List String) : Prop where
  nodup : walk.returned.Nodup
  fresh : walk.active = true → walk.position.table = none → walk.returned = []
  place : walk.active = true → ∀ name, walk.position.table = some name → name ∈ names ∧
    ∀ row ∈ walk.returned, Pokyh.Cluster.place names row ≤
      Pokyh.Cluster.place names (name, walk.position.hash.getD "")

/-- A walk whose table is still there resumes at its place. -/
theorem place_resume {a : TransferStep} {position : TransferPosition} {name : String}
    (hpos : position.table = some name) (hname : name ∈ a.names) :
    toLex ((a.catalog.take (resume a.catalog position).1).length, (resume a.catalog position).2) =
      Pokyh.Cluster.place a.names (name, position.hash.getD "") := by
  obtain ⟨table, htable, ht⟩ := List.mem_map.mp hname
  have hfound : a.catalog.findIdx? (fun table : TableInfo => table.name = name) =
      some (a.catalog.findIdx fun table : TableInfo => table.name = name) :=
    List.findIdx?_eq_some_of_exists ⟨table, htable, decide_eq_true ht⟩
  obtain ⟨hlt, hget, -⟩ := List.findIdx?_eq_some_iff_getElem.mp hfound
  have hresume : resume a.catalog position =
      (a.catalog.findIdx fun table : TableInfo => table.name = name, position.hash.getD "") := by
    simp only [resume, hpos, hfound]
  have hidx : a.names.idxOf name = a.catalog.findIdx fun table : TableInfo => table.name = name := by
    have hltn : (a.catalog.findIdx fun table : TableInfo => table.name = name) < a.names.length := by
      simpa [TransferStep.names] using hlt
    have hgetn : a.names[a.catalog.findIdx fun table : TableInfo => table.name = name] = name := by
      simpa [TransferStep.names] using hget
    conv_lhs => rw [← hgetn]
    exact a.names_nodup.idxOf_getElem _ _
  rw [hresume, List.length_take, min_eq_left hlt.le, ← hidx]
  rfl

/-- What is left lies after what was returned. -/
theorem Behind.lt_left {walk : Walk} {a : TransferStep} (hb : walk.Behind a.names)
    (hactive : walk.active = true) {row : String × String} (hrow : row ∈ walk.returned) {entry : Entry}
    (he : entry ∈ a.left walk.position) :
    Pokyh.Cluster.place a.names row < Pokyh.Cluster.place a.names entry.row := by
  cases hpos : walk.position.table with
  | none =>
      rw [hb.fresh hactive hpos] at hrow
      cases hrow
  | some name =>
      obtain ⟨hname, hle⟩ := hb.place hactive name hpos
      refine (hle row hrow).trans_lt ?_
      rw [← place_resume hpos hname]
      exact (a.pairwise_left walk.position).2 entry he

theorem Behind.nodup_left {walk : Walk} {a : TransferStep} (hb : walk.Behind a.names)
    (hactive : walk.active = true) : (walk.returned ++ (a.left walk.position).map Entry.row).Nodup := by
  have hleft : ((a.left walk.position).map Entry.row).Nodup :=
    (a.pairwise_left walk.position).1.imp fun h heq => (heq ▸ h).false
  refine List.nodup_append.mpr ⟨hb.nodup, hleft, fun row hrow row' hrow' heq => ?_⟩
  obtain ⟨entry, he, rfl⟩ := List.mem_map.mp hrow'
  exact (heq ▸ hb.lt_left hactive hrow he).false

theorem behind_step {walk walk' : Walk} {a : TransferStep} (hb : walk.Behind a.names)
    (h : walk.step a = some walk') : walk'.Behind a.names := by
  obtain ⟨hactive, ⟨-, rfl⟩ | rfl | ⟨front, last, rest, hleft, rfl⟩⟩ := step_cases h
  · exact hb
  · exact ⟨hb.nodup_left hactive, nofun, nofun⟩
  · have hnodup := hb.nodup_left hactive
    have hsorted := (a.pairwise_left walk.position).1
    rw [hleft, List.append_cons, List.map_append] at hnodup
    rw [← List.append_assoc] at hnodup
    refine ⟨(List.nodup_append.mp hnodup).1, nofun, fun _ name hname => ?_⟩
    cases hname
    have hlast : last ∈ a.left walk.position := by simp [hleft]
    refine ⟨TransferStep.mem_names_of_left hlast, fun row hrow => ?_⟩
    rw [List.mem_append, List.map_append, List.mem_append] at hrow
    rcases hrow with hrow | hrow | hrow
    · exact (hb.lt_left hactive hrow hlast).le
    · rw [hleft, List.map_append, List.map_cons, List.pairwise_append] at hsorted
      exact (hsorted.2.2 row hrow _ List.mem_cons_self).le
    · rw [List.mem_map] at hrow
      obtain ⟨entry, he, rfl⟩ := hrow
      rw [List.mem_singleton.mp he]
      rfl

/-- **A complete transfer misses no row.**  In a run whose resumptions are all `Resumable`, every
row that the registry holds under a table of the catalog at every step is returned by the time the
walk ends; and while the catalog stays the same, no row is returned twice. -/
theorem walk_complete (steps : List TransferStep) (walk : Walk)
    (hrun : run step start steps = some walk) :
    (Meets step Resumable start steps → walk.active = false →
      ∀ row, (∀ a ∈ steps, a.Has row) → row ∈ walk.returned) ∧
    (∀ names, (∀ a ∈ steps, a.names = names) → walk.returned.Nodup) := by
  constructor
  · intro hok hended row hhas
    have hinv := run_invariant_of_meets (P := fun walk => row ∈ walk.returned ∨ walk.Ahead row)
      (fun walk a walk' hinv hok h => ahead_step hinv hok.1 hok.2 h) (.inr (ahead_start row))
      (hok.and hhas) hrun
    rcases hinv with h | h
    · exact h
    · exact absurd h.active (by simp [hended])
  · intro names hnames
    have hinv := run_invariant_of_meets (P := fun walk => walk.Behind names)
      (fun walk a walk' hb hname h => hname ▸ behind_step (hname ▸ hb) h)
      ⟨List.nodup_nil, fun _ _ => rfl, nofun⟩ (Meets.of_forall hnames) hrun
    exact hinv.nodup

end Walk

/-! ### A table that is gone -/

/-- A key hash of one digit. -/
def digitHash (n : Fin 10) : String := String.ofList (List.replicate 64 (Nat.digitChar n))

theorem digitHash_lt {m n : Fin 10} (h : m < n) : digitHash m < digitHash n := by
  have hchar : Nat.digitChar m < Nat.digitChar n := by decide +revert
  rw [String.lt_iff_toList_lt, digitHash, digitHash, String.toList_ofList, String.toList_ofList,
    List.replicate_succ, List.replicate_succ]
  exact List.cons_lt_cons_iff.mpr (.inl hchar)

theorem digitHash_pos (n : Fin 10) : "" < digitHash n := by
  rw [String.lt_iff_toList_lt, digitHash, String.toList_ofList, String.toList_ofList,
    List.replicate_succ]
  exact List.nil_lt_cons _ _

theorem digitHash_injective : Function.Injective digitHash := by
  intro m n h
  rcases lt_trichotomy m n with hlt | rfl | hlt
  · exact absurd (digitHash_lt hlt) (h ▸ lt_irrefl _)
  · rfl
  · exact absurd (digitHash_lt hlt) (h ▸ lt_irrefl _)

def reminderLine (n : Fin 10) : String × VersionRecord :=
  (digitHash n, ⟨[toString n.val], 5, "A", none, false, n⟩)

/-- Ten reminders. -/
def reminderLines : List (String × VersionRecord) := (List.finRange 10).map reminderLine

/-- Ten reminders and a comment. -/
def reminderRegistry : Database where
  rows := ∅
  registry :=
    { entries := (reminderLines.map fun line => ⟨("reminders", line.1), line.2⟩) ++
        [⟨("comments", digitHash 1), ⟨["c1"], 5, "A", none, false, 11⟩⟩]
      nodupKeys := by
        rw [List.NodupKeys, List.keys, List.map_append, List.map_map]
        refine List.nodup_append.mpr ⟨?_, by simp, ?_⟩
        · rw [reminderLines, List.map_map]
          exact (List.nodup_finRange 10).map fun m n h => digitHash_injective (Prod.mk.inj h).2
        · intro a ha b hb heq
          obtain ⟨line, -, rfl⟩ := List.mem_map.mp ha
          obtain rfl := List.mem_singleton.mp hb
          exact absurd (Prod.mk.inj heq).1 (by decide) }
  nextSeq := 12

theorem toList_reminderRegistry : reminderRegistry.registry.toList =
    (reminderLines.map fun line => (("reminders", line.1), line.2)) ++
      [(("comments", digitHash 1), ⟨["c1"], 5, "A", none, false, 11⟩)] := by
  simp [Table.toList, reminderRegistry, Function.comp_def]

theorem rowsAfter_reminders : rowsAfter reminderRegistry "reminders" "" = reminderLines := by
  have hlines : (reminderRegistry.registry.toList.filter fun line =>
      line.1.1 = "reminders" && "" < line.1.2).map (fun line => (line.1.2, line.2)) = reminderLines := by
    rw [toList_reminderRegistry, List.filter_append, List.filter_eq_self.mpr]
    · simp [Function.comp_def]
    · intro line hline
      obtain ⟨row, hrow, rfl⟩ := List.mem_map.mp hline
      obtain ⟨n, -, rfl⟩ := List.mem_map.mp hrow
      simp only [reminderLine, digitHash_pos, decide_true, Bool.and_self]
  rw [rowsAfter, hlines]
  refine List.Pairwise.insertionSort_eq (List.pairwise_map.mpr ?_)
  exact (List.pairwise_lt_finRange 10).imp fun h => (digitHash_lt h).le

theorem rowsAfter_comments : rowsAfter reminderRegistry "comments" "" =
    [(digitHash 1, ⟨["c1"], 5, "A", none, false, 11⟩)] := by
  rw [rowsAfter, toList_reminderRegistry, List.filter_append, List.filter_eq_nil_iff.mpr]
  · rw [List.nil_append, List.filter_cons_of_pos]
    · rfl
    · simpa only [decide_true, Bool.true_and, decide_eq_true_eq] using digitHash_pos 1
  · intro line hline
    obtain ⟨line, -, rfl⟩ := List.mem_map.mp hline
    simp

theorem rowsAfter_last : rowsAfter reminderRegistry "reminders" (digitHash 9) = [] := by
  refine List.eq_nil_iff_forall_not_mem.mpr fun row hrow => ?_
  obtain ⟨hrecord, hlt⟩ := mem_rowsAfter.mp hrow
  have hmem : row ∈ rowsAfter reminderRegistry "reminders" "" :=
    mem_rowsAfter.mpr ⟨hrecord, (digitHash_pos 9).trans hlt⟩
  rw [rowsAfter_reminders] at hmem
  obtain ⟨n, -, rfl⟩ := List.mem_map.mp hmem
  rcases (Fin.le_last n).lt_or_eq with h | rfl
  · exact absurd hlt (digitHash_lt h).not_gt
  · exact absurd hlt (lt_irrefl _)

/-- A step of the walk through them, in batches of ten. -/
def reminderStep (catalog : List TableInfo) (names_nodup : (catalog.map TableInfo.name).Nodup) :
    TransferStep where
  catalog
  db := reminderRegistry
  limit := 10
  settled := true
  names_nodup
  hash_length := by
    have hdigit : ∀ n, (digitHash n).length = 64 := by simp [digitHash]
    intro line hline
    rw [toList_reminderRegistry, List.mem_append] at hline
    rcases hline with hline | hline
    · obtain ⟨row, hrow, rfl⟩ := List.mem_map.mp hline
      obtain ⟨n, -, rfl⟩ := List.mem_map.mp hrow
      exact hdigit n
    · obtain rfl := List.mem_singleton.mp hline
      exact hdigit 1
  limit_ge := by decide
  limit_le := by decide

def bothTables : TransferStep := reminderStep [reminders, comments] (by decide)

def commentsOnly : TransferStep := reminderStep [comments] (by decide)

/-- After the first batch, which the reminders fill. -/
def afterReminders : Walk where
  active := true
  position := ⟨some "reminders", some (digitHash 9)⟩
  returned := (List.finRange 10).map fun n => ("reminders", digitHash n)
  names := ["reminders", "comments"]

/-- At the end of the walk. -/
def afterComments : Walk where
  active := false
  position := ⟨none, none⟩
  returned := afterReminders.returned ++ [("comments", digitHash 1)]
  names := ["reminders", "comments"]

theorem step_bothTables : Walk.start.step bothTables = some afterReminders := by
  have hlast : reminderLines.getLast? = some (reminderLine 9) := by
    rw [reminderLines, List.getLast?_map, show (List.finRange 10).getLast? = some 9 by decide,
      Option.map_some]
  have hlen : reminderLines.length = 10 := by simp [reminderLines]
  have hread : readTransfer [reminders, comments] reminderRegistry ⟨none, none⟩ 10 =
      (reminderLines.map fun row => toEntry reminders row.1 row.2 none true,
        some ⟨some "reminders", some (digitHash 9)⟩) := by
    rw [readTransfer_eq, show resume [reminders, comments] ⟨none, none⟩ = (0, "") from rfl]
    simp only [readTables, List.drop_zero, show reminders.name = "reminders" from rfl, rowsAfter_reminders,
      List.length_nil, Nat.sub_zero, List.take_of_length_le hlen.le, hlast, List.nil_append,
      List.length_map, hlen, ge_iff_le, le_refl, if_true, reminderLine]
  have hrows : (reminderLines.map fun row => toEntry reminders row.1 row.2 none true).map Entry.row =
      afterReminders.returned := by
    rw [reminderLines, List.map_map, List.map_map]
    exact List.map_congr_left fun _ _ => rfl
  rw [@Walk.step_of_read Walk.start bothTables _ _ rfl hread rfl, hrows]
  rfl

theorem step_afterReminders : afterReminders.step bothTables = some afterComments := by
  have hread : readTransfer [reminders, comments] reminderRegistry
      ⟨some "reminders", some (digitHash 9)⟩ 10 =
      ([toEntry comments (digitHash 1) ⟨["c1"], 5, "A", none, false, 11⟩ none true], none) := by
    rw [readTransfer_eq, show resume [reminders, comments]
      ⟨some "reminders", some (digitHash 9)⟩ = (0, digitHash 9) from rfl]
    simp [readTables, show reminders.name = "reminders" from rfl, rowsAfter_last,
      show comments.name = "comments" from rfl, rowsAfter_comments]
  exact @Walk.step_of_read afterReminders bothTables _ _ rfl hread rfl

theorem step_commentsOnly : afterReminders.step commentsOnly =
    some ⟨false, ⟨none, none⟩, afterReminders.returned ++ [], ["comments"]⟩ := by
  have hread : readTransfer [comments] reminderRegistry
      ⟨some "reminders", some (digitHash 9)⟩ 10 = ([], none) := by
    rw [readTransfer_eq, show resume [comments] ⟨some "reminders", some (digitHash 9)⟩ = (1, "") from
      rfl]
    rfl
  exact @Walk.step_of_read afterReminders commentsOnly _ _ rfl hread rfl

theorem has_comment {catalog : List TableInfo} {h : (catalog.map TableInfo.name).Nodup}
    (hc : "comments" ∈ catalog.map TableInfo.name) :
    (reminderStep catalog h).Has ("comments", digitHash 1) :=
  ⟨hc, by
    have hrow := mem_rowsAfter.mp (rowsAfter_comments ▸ List.mem_singleton_self _)
    simp [reminderStep, hrow.1]⟩

theorem walk_complete_reminders :
    ∃ walk, run Walk.step Walk.start [bothTables, bothTables] = some walk ∧ walk.active = false ∧
      ("comments", digitHash 1) ∈ walk.returned ∧ walk.returned.Nodup := by
  have hrun : run Walk.step Walk.start [bothTables, bothTables] = some afterComments :=
    run_cons_eq_some.mpr ⟨_, step_bothTables, run_cons_eq_some.mpr ⟨_, step_afterReminders, rfl⟩⟩
  obtain ⟨hall, hnodup⟩ := Walk.walk_complete [bothTables, bothTables] _ hrun
  refine ⟨_, hrun, rfl, hall ⟨nofun, fun w hw => ⟨?_, fun _ _ => trivial⟩⟩ rfl _ ?_,
    hnodup bothTables.names (by simp)⟩
  · obtain rfl := Option.some.inj (step_bothTables.symm.trans hw)
    intro name _ table htable
    rw [show (resume bothTables.catalog afterReminders.position).1 = 0 from rfl] at htable
    cases htable
  · intro a ha
    obtain rfl : a = bothTables := by simpa using ha
    exact has_comment (by decide)

/-- **A walk resumed after its table is gone** continues by name in a list ordered by rank: it ends
without the comments. -/
theorem walk_incomplete_droppedReminders :
    ∃ walk, run Walk.step Walk.start [bothTables, commentsOnly] = some walk ∧ walk.active = false ∧
      (∀ a ∈ [bothTables, commentsOnly], a.Has ("comments", digitHash 1)) ∧
      ("comments", digitHash 1) ∉ walk.returned := by
  have hrun : run Walk.step Walk.start [bothTables, commentsOnly] = some _ :=
    run_cons_eq_some.mpr ⟨_, step_bothTables, run_cons_eq_some.mpr ⟨_, step_commentsOnly, rfl⟩⟩
  refine ⟨_, hrun, rfl, ?_, ?_⟩
  · intro a ha
    rcases List.mem_pair.mp ha with rfl | rfl <;> exact has_comment (by decide)
  · simp [afterReminders]

end Pokyh.Cluster

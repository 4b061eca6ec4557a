import Pokyh.Cluster.Attempts

/-!
# Cluster — Replicator

What a node reads of its version registry to send it to a peer (`replicator.ts`): an `Entry` is a
version record as it was read, and the row's content is loaded later, when the entry is delivered.
A row that is gone by then has its deletion recorded (`recordImplicitDeletion`).
-/

namespace Pokyh.Cluster
open Pokyh.Lib

structure Entry where
  table : TableInfo
  hash : String
  /-- Position in the feed; none for a complete transfer. -/
  seq : Option ℕ
  offerFirst : Bool
  key : List String
  version : ℕ
  origin : String
  deleted : Bool
  deriving DecidableEq, Repr

namespace Entry

def rowVersion (entry : Entry) : RowVersion := ⟨entry.version, entry.origin⟩

def id (entry : Entry) : RowId := ⟨entry.table.name, entry.key⟩

end Entry

def toEntry (table : TableInfo) (hash : String) (row : VersionRecord) (seq : Option ℕ)
    (offerFirst : Bool) : Entry :=
  { table, hash, seq, offerFirst, key := row.pk, version := row.version, origin := row.origin,
    deleted := row.deleted }

/-- Records the deletion of a row that is gone, unless the record is not there, says so already,
has changed since, or is `locked` by a writer. -/
def recordImplicitDeletion (nodeId : String) (db : Database) (locked : Bool) (entry : Entry) :
    Database :=
  match db.record entry.table.name entry.hash with
  | none => db
  | some current =>
      if locked ∨ current.deleted ∨ current.version ≠ entry.version then db
      else if (db.selectRow entry.id).isSome then db
      else db.writeVersion entry.table.name entry.hash current.pk (current.version + 1) nodeId true
        none

/-- The item an entry is pushed as, with the row's current content.  The wire form is what a
receiver sets aside. -/
def Entry.toItem (entry : Entry) (fromPeer : String) (row : Row) : WorkItem where
  table := entry.table
  hash := entry.hash
  key := entry.key
  version := entry.version
  origin := entry.origin
  deleted := entry.deleted
  values := if entry.deleted then none else some (row.map Prod.snd)
  fromPeer := fromPeer
  wire := ⟨entry.table.columns,
    ⟨entry.hash, entry.key, entry.version, entry.origin, entry.deleted, none⟩⟩
  deferred := none
  slot := none
  values_isSome := by cases entry.deleted <;> rfl

theorem recordImplicitDeletion_grows (nodeId : String) (db : Database) (locked : Bool)
    (entry : Entry) : Grows db (recordImplicitDeletion nodeId db locked entry) := by
  unfold recordImplicitDeletion
  cases hr : db.record entry.table.name entry.hash with
  | none => exact Grows.refl db
  | some current =>
      dsimp only
      split
      · exact Grows.refl db
      split
      · exact Grows.refl db
      refine Grows.writeVersion (isNewer_iff.mpr fun c hc => RowVersion.lt_of_version_lt ?_)
      simp only [Database.readVersion, hr, Option.map_some, Option.some.injEq] at hc
      subst hc
      exact Nat.lt_succ_self _

/-- A row whose record says that it is deleted needs no correction. -/
theorem recordImplicitDeletion_of_deleted {nodeId : String} {db : Database} {locked : Bool}
    {entry : Entry} {r : VersionRecord} (hr : db.record entry.table.name entry.hash = some r)
    (hd : r.deleted = true) : recordImplicitDeletion nodeId db locked entry = db := by
  simp [recordImplicitDeletion, hr, hd]

theorem row_toItem_of_deleted {entry : Entry} {fromPeer : String} {row : Row}
    (hd : entry.deleted = true) : (entry.toItem fromPeer row).row = none :=
  WorkItem.row_eq_none_iff.mpr hd

/-- A pushed item carries the row it was loaded with. -/
theorem row_toItem {entry : Entry} {fromPeer : String} {row : Row} (hd : entry.deleted = false)
    (hcols : row.map Prod.fst = entry.table.columns) :
    (entry.toItem fromPeer row).row = some row := by
  have hvalues : (entry.toItem fromPeer row).values = some (row.map Prod.snd) := by
    simp only [Entry.toItem, hd, Bool.false_eq_true, if_false]
  rw [WorkItem.row, hvalues, Option.map_some]
  exact congrArg some (List.zip_of_prod hcols rfl).symm

end Pokyh.Cluster

import Pokyh.Cluster.Attempts
import Pokyh.Cluster.Replicator
import Pokyh.Lib.LastWriter
import Pokyh.Lib.Results

/-!
# Cluster — Convergence

Any number of pairwise linked nodes and tables without foreign keys and unique indexes.  Rows are
written locally, records are read from the feeds, contents are loaded later, pushes arrive in any
order and any number of times, answers get lost, and applies fail.

For a row, `held` is what the nodes store of it: a version and a content.  The events change it in
one way only: a node adopts a newer version (`Adopts`), its own or one that was pushed to it.  The
invariant (`Consistent`) says that every copy on its way is genuine and known in the sense of
`Pokyh.Lib.LastWriter`.

* `adopts_of_write`, `adopts_of_apply`: what the two events that store a version do.
* `Consistent.adopt`: the invariant outlives every adoption.
* `replication_converges`: **versions never decrease, and when every node has delivered its feed to
  every peer, all nodes hold the same.**
-/

namespace Pokyh.Cluster
open Pokyh.Lib

/-! ### The nodes and their tables -/

/-- Nodes that replicate tables without foreign keys and unique indexes.  The hashes of keys do
not collide, and the text of a key determines the values of the key columns. -/
structure Mesh where
  nodes : Finset String
  tables : List TableInfo
  computePkHash : List String → String
  keyValue : TableInfo → List String → String → Value
  valueError : TableInfo → Row → Option ℕ
  hash_injective : Function.Injective computePkHash
  uniques_nil : ∀ table ∈ tables, table.uniques = []
  name_injective : ∀ t ∈ tables, ∀ u ∈ tables, t.name = u.name → t = u

namespace Mesh

def schema (mesh : Mesh) : Schema := ⟨[], mesh.valueError⟩

/-- A row of the table with this key. -/
def RowOf (mesh : Mesh) (table : TableInfo) (key : List String) (row : Row) : Prop :=
  row.map Prod.fst = table.columns ∧
    ∀ e ∈ row, e.1 ∈ table.pk → e.2 = mesh.keyValue table key e.1

instance (mesh : Mesh) (table : TableInfo) (key : List String) (row : Row) :
    Decidable (mesh.RowOf table key row) :=
  inferInstanceAs (Decidable (_ ∧ _))

end Mesh

/-- A pushed item on its way to a node. -/
structure Push where
  peer : String
  item : WorkItem
  deriving DecidableEq

/-- What the `peer` has taken over from `sender`, by row and version. -/
structure Settled where
  sender : String
  peer : String
  row : String × String
  version : RowVersion
  deriving DecidableEq

structure World where
  db : String → Database
  /-- The entries read so far, by the node that read them. -/
  entries : List (String × Entry)
  pushes : List Push
  settled : List Settled

def World.initial : World := ⟨fun _ => ⟨∅, ∅, 0⟩, [], [], []⟩

def World.store (w : World) (node : String) (db : Database) : World :=
  { w with db := Function.update w.db node db }

def World.settle (w : World) (s : Settled) : World := { w with settled := w.settled ++ [s] }

inductive Event where
  /-- A local statement: the row it leaves, or a deletion. -/
  | write (node : String) (table : TableInfo) (key : List String) (now : ℕ) (row : Option Row)
  /-- A node reads a version record from its feed. -/
  | read (node : String) (table : TableInfo) (hash : String) (offerFirst : Bool)
  /-- The peer knows an offered version already. -/
  | decline (node peer : String) (entry : Entry)
  /-- The content of an entry is loaded and sent. -/
  | load (node peer : String) (entry : Entry) (locked : Bool)
  /-- A push is applied; the sender may learn the answer. -/
  | apply (push : Push) (fault : Option ℕ) (answered : Bool)

/-- The statement of a local write. -/
def writeLocal (S : Schema) (db : Database) (table : TableInfo) (key : List String)
    (row : Option Row) : Option Database :=
  match row, (db.selectRow ⟨table.name, key⟩).isSome with
  | none, true => some (deleteRow S db ⟨table.name, key⟩)
  | none, false => none
  | some row, false => (insertRow S db table key row).toOption
  | some row, true => (updateRow S db table key row).toOption

def World.step (mesh : Mesh) (w : World) : Event → Option World
  | .write node table key now row =>
      if node ∈ mesh.nodes ∧ table ∈ mesh.tables ∧ ∀ r ∈ row, mesh.RowOf table key r then
        (writeLocal mesh.schema (w.db node) table key row).map fun db =>
          w.store node (db.recordChange node table.name (mesh.computePkHash key) key now row.isNone)
      else none
  | .read node table hash offerFirst =>
      if node ∈ mesh.nodes ∧ table ∈ mesh.tables then
        ((w.db node).record table.name hash).map fun r =>
          { w with entries := w.entries ++ [(node, toEntry table hash r (some r.seq) offerFirst)] }
      else none
  | .decline node peer entry =>
      if (node, entry) ∈ w.entries ∧ peer ∈ mesh.nodes ∧
          !isNewer entry.rowVersion ((w.db peer).readVersion entry.table.name entry.hash) then
        some (w.settle ⟨node, peer, (entry.table.name, entry.hash), entry.rowVersion⟩)
      else none
  | .load node peer entry locked =>
      if (node, entry) ∈ w.entries ∧ peer ∈ mesh.nodes then
        match entry.deleted, (w.db node).selectRow entry.id with
        | true, _ => some { w with pushes := w.pushes ++ [⟨peer, entry.toItem node []⟩] }
        | false, some row => some { w with pushes := w.pushes ++ [⟨peer, entry.toItem node row⟩] }
        | false, none =>
            some ((w.store node (recordImplicitDeletion node (w.db node) locked entry)).settle
              ⟨node, peer, (entry.table.name, entry.hash), entry.rowVersion⟩)
      else none
  | .apply push fault answered =>
      if push ∈ w.pushes then
        let (outcome, db) := attempt mesh.schema fault (w.db push.peer) push.item
        let w := w.store push.peer db
        some (if answered ∧ (outcome = .applied ∨ outcome = .stale) then
          w.settle ⟨push.item.fromPeer, push.peer, push.item.itemKey, push.item.rowVersion⟩
        else w)
      else none

/-- The node has delivered its whole feed to the peer: every record is the peer's own or came from
it, or its version number was settled with the peer. -/
def World.Delivered (w : World) (node peer : String) : Prop :=
  ∀ t h r, (w.db node).record t h = some r → r.origin = peer ∨ r.via = some peer ∨
    ∃ s ∈ w.settled, s.sender = node ∧ s.peer = peer ∧ s.row = (t, h) ∧ s.version.version = r.version

/-! ### What the nodes hold of a row -/

/-- The version and the content of a row, by node. -/
def held (mesh : Mesh) (d : String → Database) (table : TableInfo) (key : List String)
    (node : String) : Option (RowVersion × Option Row) :=
  ((d node).record table.name (mesh.computePkHash key)).map fun r =>
    (r.rowVersion, (d node).selectRow ⟨table.name, key⟩)

variable {mesh : Mesh} {w w' : World} {S : Schema} {db db' : Database} {table : TableInfo}
  {key : List String} {item : WorkItem}

/-! ### Statements without foreign keys -/

theorem doomed_id (hS : S.foreignKeys = []) {rows : Table RowId Row} {id : RowId} {e : RowId × Row}
    (h : e ∈ doomed S rows id) : e.1 = id := by
  have key : ∀ n, ∀ e ∈ (spread S rows.toList)^[n] (rows.toList.filter fun row => row.1 = id),
      e.1 = id := by
    intro n
    induction n with
    | zero => intro e he; simpa using (List.mem_filter.mp he).2
    | succ n ih =>
        intro e he
        rw [Function.iterate_succ_apply'] at he
        rcases (mem_spread.mp he).2 with hg | ⟨fk, hfk, -⟩
        · exact ih e hg
        · simp [hS] at hfk
  exact key _ e h

/-- Without foreign keys a deletion removes its row and nothing else. -/
theorem deleteRow_selectRow (hS : S.foreignKeys = []) {id id' : RowId} :
    (deleteRow S db id).selectRow id' = if id' = id then none else db.selectRow id' := by
  by_cases he : id' = id
  · rw [if_pos he, he]
    exact deleteRow_selectRow_self
  · rw [if_neg he]
    have hunlink : ∀ gone id row, unlink S gone id row = row := by
      intro gone id row
      simp [unlink, hS]
    simp only [deleteRow, Database.selectRow, Table.lookup_adjust]
    rw [Table.lookup_keep_of_pos]
    · cases db.rows.lookup id' <;> simp [hunlink]
    · intro row _
      simpa using fun hmem => he (doomed_id hS hmem)

theorem overwrite_rowOf {old new : Row} (ho : mesh.RowOf table key old)
    (hn : mesh.RowOf table key new) : overwrite table old new = new := by
  conv_rhs => rw [← List.map_id new]
  refine List.map_congr_left fun e he => ?_
  split
  swap
  · rfl
  next hpk =>
  have hval : (old.value e.1).getD e.2 = e.2 := by
    cases hf : old.find? fun entry => decide (entry.1 = e.1) with
    | none => simp [Row.value, hf]
    | some entry =>
        have hname : entry.1 = e.1 := by simpa using List.find?_some hf
        have hkey := ho.2 entry (List.mem_of_find?_eq_some hf) (hname ▸ hpk)
        simp [Row.value, hf, hkey, hname, hn.2 e he hpk]
  rw [hval]
  rfl

/-- The rows of a table of key columns only. -/
theorem rowOf_unique {old new : Row} (hall : table.columns.all (· ∈ table.pk) = true)
    (ho : mesh.RowOf table key old) (hn : mesh.RowOf table key new) : old = new := by
  have hkeys : ∀ row, mesh.RowOf table key row →
      row = table.columns.map fun c => (c, mesh.keyValue table key c) := by
    rintro row ⟨hcols, hk⟩
    rw [← hcols, List.map_map]
    conv_lhs => rw [← List.map_id row]
    refine List.map_congr_left fun e he => ?_
    have hpk : e.1 ∈ table.pk := by
      have hmem : e.1 ∈ table.columns := by
        rw [← hcols]
        exact List.mem_map_of_mem he
      simpa using List.all_eq_true.mp hall _ hmem
    exact Prod.ext rfl (hk e he hpk)
  rw [hkeys old ho, hkeys new hn]

/-- The rows after a local write. -/
theorem writeLocal_rows (hS : S.foreignKeys = []) {row : Option Row}
    (hr : ∀ r ∈ row, mesh.RowOf table key r)
    (ho : ∀ r, db.selectRow ⟨table.name, key⟩ = some r → mesh.RowOf table key r)
    (h : writeLocal S db table key row = some db') :
    db'.registry = db.registry ∧
      ∀ id, db'.selectRow id = if id = ⟨table.name, key⟩ then row else db.selectRow id := by
  unfold writeLocal at h
  cases row with
  | none =>
      cases hs : (db.selectRow ⟨table.name, key⟩).isSome with
      | false => rw [hs] at h; cases h
      | true =>
          rw [hs] at h
          cases h
          exact ⟨rfl, fun id => deleteRow_selectRow hS⟩
  | some row =>
      cases hs : (db.selectRow ⟨table.name, key⟩).isSome with
      | false =>
          rw [hs] at h
          have hi := toOption_eq_some.mp h
          exact ⟨(insertRow_registry hi).1, fun id => insertRow_selectRow hi⟩
      | true =>
          rw [hs] at h
          have hu := toOption_eq_some.mp h
          obtain ⟨old, hold⟩ := Option.isSome_iff_exists.mp hs
          refine ⟨(updateRow_registry hu).1, fun id => ?_⟩
          rw [updateRow_selectRow hu]
          split
          · next he =>
            rw [he, hold, Option.map_some, overwrite_rowOf (ho old hold) (hr row rfl)]
          · rfl

/-- The rows after an item's write went through. -/
theorem writeRow_rows (hS : S.foreignKeys = [])
    (hr : ∀ r, item.row = some r → mesh.RowOf item.table item.key r)
    (ho : ∀ r, db.selectRow item.id = some r → mesh.RowOf item.table item.key r)
    (h : writeRow S db item (db.selectRow item.id).isSome = .ok db') (id : RowId) :
    db'.selectRow id = if id = item.id then item.row else db.selectRow id := by
  cases hd : item.deleted with
  | true =>
      rw [writeRow_deletion_eq hd] at h
      cases h
      rw [deleteRow_selectRow hS, WorkItem.row_eq_none_iff.mpr hd]
  | false =>
      by_cases he : id = item.id
      swap
      · rw [if_neg he, writeRow_selectRow_ne hd h he]
      rw [if_pos he, he]
      obtain ⟨row, hrow⟩ := exists_row hd
      cases hs : db.selectRow item.id with
      | none =>
          rw [hs, Option.isSome_none, writeRow_insert hrow] at h
          rw [insertRow_selectRow h, if_pos item.id_eq, hrow]
      | some old =>
          rw [hs, Option.isSome_some, writeRow_update hrow] at h
          split at h
          · next hall =>
            cases h
            rw [hs, hrow, rowOf_unique hall (ho old hs) (hr row hrow)]
          · rw [updateRow_selectRow h, if_pos item.id_eq, hs, hrow, Option.map_some,
              overwrite_rowOf (ho old hs) (hr row hrow)]

/-! ### The invariant -/

/-- The node has had version `v` of the row; if what it stores now is its own and has the version
number of `v`, it is `v`. -/
structure Had (mesh : Mesh) (d : String → Database) (node : String) (table : TableInfo) (key : List String)
    (v : RowVersion) : Prop where
  node_mem : node ∈ mesh.nodes
  least : AtLeast (held mesh d table key node) v
  own : ∀ x, held mesh d table key node = some x → x.1.version = v.version → x.1.origin = node →
    x.1 = v

/-- A version and a content of a row, stored or on their way. -/
structure Copy (mesh : Mesh) (d : String → Database) (table : TableInfo) (key : List String)
    (y : RowVersion × Option Row) : Prop where
  genuine : Genuine mesh.nodes RowVersion.origin (held mesh d table key) y
  known : Known mesh.nodes RowVersion.origin (held mesh d table key) y.1
  row : ∀ r, y.2 = some r → mesh.RowOf table key r

/-- What a node stores of a row. -/
structure CellOk (mesh : Mesh) (d : String → Database) (node : String) (table : TableInfo)
    (key : List String) (r : VersionRecord) : Prop where
  pk : r.pk = key
  deleted : r.deleted = ((d node).selectRow ⟨table.name, key⟩).isNone
  via : r.origin = node → r.via = none
  copy : Copy mesh d table key (r.rowVersion, (d node).selectRow ⟨table.name, key⟩)

structure Consistent (mesh : Mesh) (w : World) : Prop where
  hashes : ∀ node ∈ mesh.nodes, ∀ t h r, (w.db node).record t h = some r →
    h = mesh.computePkHash r.pk
  absent : ∀ node ∈ mesh.nodes, ∀ table ∈ mesh.tables, ∀ key,
    (w.db node).record table.name (mesh.computePkHash key) = none →
      (w.db node).selectRow ⟨table.name, key⟩ = none
  cells : ∀ node ∈ mesh.nodes, ∀ table ∈ mesh.tables, ∀ key r,
    (w.db node).record table.name (mesh.computePkHash key) = some r → CellOk mesh w.db node table key r
  entries : ∀ e ∈ w.entries, e.2.table ∈ mesh.tables ∧ e.2.hash = mesh.computePkHash e.2.key ∧
    Had mesh w.db e.1 e.2.table e.2.key e.2.rowVersion ∧
    Known mesh.nodes RowVersion.origin (held mesh w.db e.2.table e.2.key) e.2.rowVersion ∧
    ∀ x, held mesh w.db e.2.table e.2.key e.1 = some x → x.1 = e.2.rowVersion →
      x.2.isNone = e.2.deleted
  pushes : ∀ p ∈ w.pushes, p.peer ∈ mesh.nodes ∧ p.item.table ∈ mesh.tables ∧
    p.item.hash = mesh.computePkHash p.item.key ∧
    Had mesh w.db p.item.fromPeer p.item.table p.item.key p.item.rowVersion ∧
    Copy mesh w.db p.item.table p.item.key (p.item.rowVersion, p.item.row)
  settled : ∀ s ∈ w.settled, s.peer ∈ mesh.nodes ∧ ∃ table ∈ mesh.tables, ∃ key,
    s.row = (table.name, mesh.computePkHash key) ∧ Had mesh w.db s.sender table key s.version ∧
    (Beyond (held mesh w.db table key s.sender) s.version ∨
      AtLeast (held mesh w.db table key s.peer) s.version)

/-! ### Adopting a version -/

/-- From `d` to `d'`, a node adopts version and content `y` of a row, and nothing else changes. -/
structure Adopts (mesh : Mesh) (d d' : String → Database) (node : String) (table : TableInfo)
    (key : List String) (y : RowVersion × Option Row) : Prop where
  node_mem : node ∈ mesh.nodes
  table_mem : table ∈ mesh.tables
  record : ∃ r, (d' node).record table.name (mesh.computePkHash key) = some r ∧
    r.rowVersion = y.1 ∧ r.pk = key ∧ r.deleted = y.2.isNone ∧ (r.origin = node → r.via = none)
  row : (d' node).selectRow ⟨table.name, key⟩ = y.2
  records : ∀ n t h, n ≠ node ∨ (t, h) ≠ (table.name, mesh.computePkHash key) →
    (d' n).record t h = (d n).record t h
  rows : ∀ n id, n ≠ node ∨ id ≠ ⟨table.name, key⟩ → (d' n).selectRow id = (d n).selectRow id
  newer : ∀ x, held mesh d table key node = some x → x.1 < y.1
  own : y.1.origin = node → ∀ x, held mesh d table key node = some x → x.1.version < y.1.version

variable {node n : String} {t : TableInfo} {k : List String} {y z : RowVersion × Option Row}
  {v : RowVersion}

theorem ne_of_other (hn : n ≠ node ∨ t ≠ table ∨ k ≠ key) (ht : t ∈ mesh.tables)
    (htab : table ∈ mesh.tables) :
    (n ≠ node ∨ (t.name, mesh.computePkHash k) ≠ (table.name, mesh.computePkHash key)) ∧
      (n ≠ node ∨ (⟨t.name, k⟩ : RowId) ≠ ⟨table.name, key⟩) := by
  rcases hn with h | h | h
  · exact ⟨.inl h, .inl h⟩
  · have hname : t.name ≠ table.name := fun he => h (mesh.name_injective t ht table htab he)
    exact ⟨.inr fun he => hname (Prod.mk.inj he).1, .inr fun he => hname (RowId.mk.inj he).1⟩
  · exact ⟨.inr fun he => h (mesh.hash_injective (Prod.mk.inj he).2),
      .inr fun he => h (RowId.mk.inj he).2⟩

theorem Adopts.held_other (h : Adopts mesh w.db w'.db node table key y) (ht : t ∈ mesh.tables)
    (hn : n ≠ node ∨ t ≠ table ∨ k ≠ key) : held mesh w'.db t k n = held mesh w.db t k n := by
  obtain ⟨h₁, h₂⟩ := ne_of_other hn ht h.table_mem
  simp only [held]
  rw [h.records n _ _ h₁, h.rows n _ h₂]

theorem Adopts.held_self (h : Adopts mesh w.db w'.db node table key y) :
    held mesh w'.db table key = Function.update (held mesh w.db table key) node (some y) := by
  funext n
  by_cases hn : n = node
  · subst hn
    obtain ⟨r, hr, hv, -⟩ := h.record
    simp [held, hr, hv, h.row]
  · rw [h.held_other h.table_mem (.inl hn), Function.update_of_ne hn]

/-- The nodes hold the same of another row. -/
theorem Adopts.held_ne (h : Adopts mesh w.db w'.db node table key y) (ht : t ∈ mesh.tables)
    (hn : t ≠ table ∨ k ≠ key) : held mesh w'.db t k = held mesh w.db t k :=
  funext fun _ => h.held_other ht (.inr hn)

theorem atLeast_of_adopts (h : Adopts mesh w.db w'.db node table key y) (ht : t ∈ mesh.tables)
    (ha : AtLeast (held mesh w.db t k n) v) : AtLeast (held mesh w'.db t k n) v := by
  by_cases he : t = table ∧ k = key
  · obtain ⟨rfl, rfl⟩ := he
    rw [h.held_self]
    exact atLeast_adopt h.newer ha
  · rwa [h.held_ne ht (not_and_or.mp he)]

theorem beyond_of_adopts (h : Adopts mesh w.db w'.db node table key y) (ht : t ∈ mesh.tables)
    (hb : Beyond (held mesh w.db t k n) v) : Beyond (held mesh w'.db t k n) v := by
  by_cases he : t = table ∧ k = key
  · obtain ⟨rfl, rfl⟩ := he
    rw [h.held_self]
    exact beyond_adopt h.newer hb
  · rwa [h.held_ne ht (not_and_or.mp he)]

theorem known_of_adopts (h : Adopts mesh w.db w'.db node table key y) (ht : t ∈ mesh.tables)
    (hk : Known mesh.nodes RowVersion.origin (held mesh w.db t k) v) :
    Known mesh.nodes RowVersion.origin (held mesh w'.db t k) v :=
  ⟨hk.1, atLeast_of_adopts h ht hk.2⟩

theorem Copy.adopt (h : Adopts mesh w.db w'.db node table key y) (ht : t ∈ mesh.tables)
    (hc : Copy mesh w.db t k z) : Copy mesh w'.db t k z := by
  refine ⟨?_, known_of_adopts h ht hc.known, hc.row⟩
  by_cases he : t = table ∧ k = key
  · obtain ⟨rfl, rfl⟩ := he
    rw [h.held_self]
    exact hc.genuine.adopt h.node_mem h.newer
  · rw [h.held_ne ht (not_and_or.mp he)]
    exact hc.genuine

theorem Had.adopt (h : Adopts mesh w.db w'.db node table key y) (ht : t ∈ mesh.tables)
    (hh : Had mesh w.db n t k v) : Had mesh w'.db n t k v := by
  refine ⟨hh.node_mem, atLeast_of_adopts h ht hh.least, fun x hx hver horg => ?_⟩
  by_cases he : n = node ∧ t = table ∧ k = key
  · obtain ⟨rfl, rfl, rfl⟩ := he
    rw [h.held_self, Function.update_self] at hx
    cases hx
    -- A version of its own has a greater number than all the node had before.
    obtain ⟨s, d, hs, hle⟩ := hh.least
    have h₁ := h.own horg _ hs
    have h₂ := RowVersion.version_le hle
    simp only at h₁
    omega
  · have hne : n ≠ node ∨ t ≠ table ∨ k ≠ key := by tauto
    rw [h.held_other ht hne] at hx
    exact hh.own x hx hver horg

/-- **The invariant outlives an adoption** of a genuine copy. -/
theorem Consistent.adopt (hc : Consistent mesh w) (h : Adopts mesh w.db w'.db node table key y)
    (hy : Copy mesh w'.db table key y) (he : w'.entries = w.entries) (hp : w'.pushes = w.pushes)
    (hs : w'.settled = w.settled) : Consistent mesh w' := by
  refine ⟨fun n hn t k r hr => ?_, fun n hn t ht k hr => ?_, fun n hn t ht k r hr => ?_,
    fun e hmem => ?_, fun p hmem => ?_, fun s hmem => ?_⟩
  · by_cases hcell : n = node ∧ (t, k) = (table.name, mesh.computePkHash key)
    · obtain ⟨rfl, hk⟩ := hcell
      obtain ⟨rfl, rfl⟩ := Prod.mk.inj hk
      obtain ⟨r', hr', -, hpk, -⟩ := h.record
      rw [hr'] at hr
      cases hr
      rw [hpk]
    · rw [h.records n t k (not_and_or.mp hcell)] at hr
      exact hc.hashes n hn t k r hr
  · by_cases hcell : n = node ∧ t = table ∧ k = key
    · obtain ⟨rfl, rfl, rfl⟩ := hcell
      obtain ⟨r', hr', -⟩ := h.record
      rw [hr'] at hr
      cases hr
    · obtain ⟨h₁, h₂⟩ := ne_of_other (by tauto : n ≠ node ∨ t ≠ table ∨ k ≠ key) ht h.table_mem
      rw [h.records n _ _ h₁] at hr
      rw [h.rows n _ h₂]
      exact hc.absent n hn t ht k hr
  · by_cases hcell : n = node ∧ t = table ∧ k = key
    · obtain ⟨rfl, rfl, rfl⟩ := hcell
      obtain ⟨r', hr', hv, hpk, hd, hvia⟩ := h.record
      rw [hr'] at hr
      cases hr
      exact ⟨hpk, by rw [h.row, hd], hvia, by rw [h.row, hv]; exact hy⟩
    · obtain ⟨h₁, h₂⟩ := ne_of_other (by tauto : n ≠ node ∨ t ≠ table ∨ k ≠ key) ht h.table_mem
      rw [h.records n _ _ h₁] at hr
      obtain ⟨hpk, hd, hvia, hcopy⟩ := hc.cells n hn t ht k r hr
      refine ⟨hpk, by rw [h.rows n _ h₂, hd], hvia, ?_⟩
      rw [h.rows n _ h₂]
      exact hcopy.adopt h ht
  · rw [he] at hmem
    obtain ⟨ht, hh, hhad, hk, hdel⟩ := hc.entries e hmem
    refine ⟨ht, hh, hhad.adopt h ht, known_of_adopts h ht hk, fun x hx hxv => ?_⟩
    by_cases hcell : e.1 = node ∧ e.2.table = table ∧ e.2.key = key
    · obtain ⟨rfl, rfl, rfl⟩ := hcell
      rw [h.held_self, Function.update_self] at hx
      cases hx
      obtain ⟨s, d, hsd, hle⟩ := hhad.least
      exact absurd (h.newer _ hsd) (not_lt.mpr (hxv ▸ hle))
    · rw [h.held_other ht (by tauto)] at hx
      exact hdel x hx hxv
  · rw [hp] at hmem
    obtain ⟨hpeer, ht, hh, hhad, hcopy⟩ := hc.pushes p hmem
    exact ⟨hpeer, ht, hh, hhad.adopt h ht, hcopy.adopt h ht⟩
  · rw [hs] at hmem
    obtain ⟨hpeer, t, ht, k, hrow, hhad, hcase⟩ := hc.settled s hmem
    exact ⟨hpeer, t, ht, k, hrow, hhad.adopt h ht,
      hcase.imp (beyond_of_adopts h ht) (atLeast_of_adopts h ht)⟩

/-! ### The events -/

theorem readVersion_eq_held : (w.db n).readVersion t.name (mesh.computePkHash k) =
    (held mesh w.db t k n).map Prod.fst := by
  simp only [Database.readVersion, held, Option.map_map]
  rfl

theorem atLeast_of_not_newer
    (h : isNewer v ((w.db n).readVersion t.name (mesh.computePkHash k)) = false) :
    AtLeast (held mesh w.db t k n) v := by
  rw [readVersion_eq_held] at h
  obtain ⟨c, hc, hle⟩ := isNewer_false_iff.mp h
  obtain ⟨x, hx, rfl⟩ := Option.map_eq_some_iff.mp hc
  exact ⟨x.1, x.2, hx, hle⟩

theorem newer_held {x : RowVersion × Option Row}
    (h : isNewer v ((w.db n).readVersion t.name (mesh.computePkHash k)) = true)
    (hx : held mesh w.db t k n = some x) : x.1 < v := by
  rw [readVersion_eq_held, hx] at h
  exact isNewer_some.mp h

@[simp] theorem store_db_self : (w.store n db).db n = db := by simp [World.store]

theorem store_db_of_ne {m : String} (h : m ≠ n) : (w.store n db).db m = w.db m := by
  simp [World.store, h]

theorem store_same : w.store n (w.db n) = w := by simp [World.store]

/-- The rows at a node are rows of their tables. -/
theorem Consistent.rowOf (hc : Consistent mesh w) (hn : n ∈ mesh.nodes) (ht : t ∈ mesh.tables)
    {r : Row} (hr : (w.db n).selectRow ⟨t.name, k⟩ = some r) : mesh.RowOf t k r := by
  cases hrec : (w.db n).record t.name (mesh.computePkHash k) with
  | none =>
      rw [hc.absent n hn t ht k hrec] at hr
      cases hr
  | some rec => exact (hc.cells n hn t ht k rec hrec).copy.row r hr

/-- A node stores a version of a row in place of an older one. -/
theorem adopts_of_writeVersion {row : Option Row} {version : ℕ} {origin : String}
    {via : Option String} (hn : n ∈ mesh.nodes) (ht : t ∈ mesh.tables)
    (hreg : db.registry = (w.db n).registry)
    (hrows : ∀ id, db.selectRow id = if id = ⟨t.name, k⟩ then row else (w.db n).selectRow id)
    (hnew : isNewer ⟨version, origin⟩ ((w.db n).readVersion t.name (mesh.computePkHash k)) = true)
    (hvia : origin = n → via = none)
    (hown : origin = n → ∀ x, held mesh w.db t k n = some x → x.1.version < version) :
    Adopts mesh w.db (w.store n (db.writeVersion t.name (mesh.computePkHash k) k version origin
      row.isNone via)).db n t k (⟨version, origin⟩, row) where
  node_mem := hn
  table_mem := ht
  record := by
    refine ⟨⟨k, version, origin, via, row.isNone, db.nextSeq⟩, ?_, rfl, rfl, rfl, hvia⟩
    rw [store_db_self, Database.record_writeVersion, if_pos rfl]
  row := by
    rw [store_db_self, Database.selectRow_writeVersion, hrows, if_pos rfl]
  records m t' h hne := by
    by_cases hm : m = n
    · subst hm
      rw [store_db_self, Database.record_writeVersion, if_neg (hne.resolve_left (not_not.mpr rfl))]
      simp [Database.record, hreg]
    · rw [store_db_of_ne hm]
  rows m id hne := by
    by_cases hm : m = n
    · subst hm
      rw [store_db_self, Database.selectRow_writeVersion, hrows,
        if_neg (hne.resolve_left (not_not.mpr rfl))]
    · rw [store_db_of_ne hm]
  newer x hx := newer_held hnew hx
  own := hown

theorem Consistent.write (hc : Consistent mesh w) (hn : n ∈ mesh.nodes) (ht : t ∈ mesh.tables)
    {now : ℕ} {row : Option Row} (hrow : ∀ r ∈ row, mesh.RowOf t k r)
    (h : writeLocal mesh.schema (w.db n) t k row = some db) :
    Consistent mesh
      (w.store n (db.recordChange n t.name (mesh.computePkHash k) k now row.isNone)) := by
  obtain ⟨hreg, hrows⟩ := writeLocal_rows rfl hrow (fun r hr => hc.rowOf hn ht hr) h
  have hbump : ∀ c, (w.db n).readVersion t.name (mesh.computePkHash k) = some c →
      c.version < Database.nextVersion (db.readVersion t.name (mesh.computePkHash k)) now :=
    fun c hcv => Database.lt_nextVersion (by rw [Database.readVersion_congr hreg, hcv])
  have hadopt : Adopts mesh w.db
      (w.store n (db.recordChange n t.name (mesh.computePkHash k) k now row.isNone)).db n t k
      (⟨Database.nextVersion (db.readVersion t.name (mesh.computePkHash k)) now, n⟩, row) :=
    adopts_of_writeVersion hn ht hreg hrows
      (isNewer_iff.mpr fun c hcv => RowVersion.lt_of_version_lt (hbump c hcv)) (fun _ => rfl)
      fun _ x hx => hbump x.1 (by rw [readVersion_eq_held, hx, Option.map_some])
  refine hc.adopt hadopt ⟨?_, ?_, hrow⟩ rfl rfl rfl
  · rw [hadopt.held_self]
    exact genuine_of_own rfl
  · rw [hadopt.held_self]
    exact known_of_own hn rfl

theorem Consistent.read (hc : Consistent mesh w) (hn : n ∈ mesh.nodes) (ht : t ∈ mesh.tables)
    {h : String} {r : VersionRecord} {offerFirst : Bool} (hr : (w.db n).record t.name h = some r) :
    Consistent mesh
      { w with entries := w.entries ++ [(n, toEntry t h r (some r.seq) offerFirst)] } := by
  have hh := hc.hashes n hn _ _ r hr
  rw [hh] at hr
  have hcell := hc.cells n hn t ht r.pk r hr
  have hheld : held mesh w.db t r.pk n = some (r.rowVersion, (w.db n).selectRow ⟨t.name, r.pk⟩) := by
    simp [held, hr]
  refine ⟨hc.hashes, hc.absent, hc.cells, fun e he => ?_, hc.pushes, hc.settled⟩
  rcases List.mem_append.mp he with he | he
  · exact hc.entries e he
  · rw [List.mem_singleton.mp he]
    refine ⟨ht, hh, ⟨hn, ⟨_, _, hheld, le_rfl⟩, fun x hx _ _ => ?_⟩, hcell.copy.known,
      fun x hx _ => ?_⟩
    all_goals
      obtain rfl := Option.some.inj (hheld.symm.trans hx)
    · rfl
    · exact hcell.deleted.symm

theorem Consistent.settle (hc : Consistent mesh w) {s : Settled} (hp : s.peer ∈ mesh.nodes)
    (ht : t ∈ mesh.tables) (hrow : s.row = (t.name, mesh.computePkHash k))
    (hh : Had mesh w.db s.sender t k s.version)
    (hcase : Beyond (held mesh w.db t k s.sender) s.version ∨
      AtLeast (held mesh w.db t k s.peer) s.version) : Consistent mesh (w.settle s) := by
  refine ⟨hc.hashes, hc.absent, hc.cells, hc.entries, hc.pushes, fun s' hs' => ?_⟩
  rcases List.mem_append.mp hs' with hs' | hs'
  · exact hc.settled s' hs'
  · rw [List.mem_singleton.mp hs']
    exact ⟨hp, t, ht, k, hrow, hh, hcase⟩

/-- What a node stores of a row it has read an entry of. -/
theorem Consistent.entry_cases (hc : Consistent mesh w) {e : Entry} (he : (n, e) ∈ w.entries) :
    ∃ r, (w.db n).record e.table.name e.hash = some r ∧ CellOk mesh w.db n e.table e.key r ∧
      (Beyond (held mesh w.db e.table e.key n) e.rowVersion ∨
        r.rowVersion = e.rowVersion ∧ r.deleted = e.deleted) := by
  obtain ⟨ht, hh, hhad, -, hdel⟩ := hc.entries _ he
  obtain ⟨s, d, hs, hle⟩ := hhad.least
  obtain ⟨r, hr, hx⟩ := Option.map_eq_some_iff.mp hs
  obtain ⟨rfl, rfl⟩ := Prod.mk.inj hx
  have hcell := hc.cells n hhad.node_mem _ ht _ r hr
  refine ⟨r, by rw [hh]; exact hr, hcell, ?_⟩
  rcases hle.lt_or_eq with hlt | heq
  · exact .inl ⟨_, _, hs, hlt⟩
  · exact .inr ⟨heq.symm, by rw [hcell.deleted]; exact hdel _ hs heq.symm⟩

/-- An entry is pushed with what the node stores of the row when it is loaded. -/
theorem Consistent.push (hc : Consistent mesh w) {e : Entry} (he : (n, e) ∈ w.entries)
    {peer : String} (hp : peer ∈ mesh.nodes) {row : Row}
    (hrow : e.deleted = true ∨ e.deleted = false ∧ (w.db n).selectRow e.id = some row) :
    Consistent mesh { w with pushes := w.pushes ++ [⟨peer, e.toItem n row⟩] } := by
  obtain ⟨ht, hh, hhad, hknown, -⟩ := hc.entries _ he
  obtain ⟨r, hr, hcell, hcase⟩ := hc.entry_cases he
  have hrowOf : ∀ x, (e.toItem n row).row = some x → mesh.RowOf e.table e.key x ∧
      (w.db n).selectRow e.id = some x := by
    intro x hx
    rcases hrow with hd | ⟨hd, hsel⟩
    · rw [row_toItem_of_deleted hd] at hx
      cases hx
    · have hof := hc.rowOf hhad.node_mem ht hsel
      rw [row_toItem hd hof.1] at hx
      cases hx
      exact ⟨hof, hsel⟩
  refine ⟨hc.hashes, hc.absent, hc.cells, hc.entries, fun q hq => ?_, hc.settled⟩
  rcases List.mem_append.mp hq with hq | hq
  · exact hc.pushes q hq
  rw [List.mem_singleton.mp hq]
  refine ⟨hp, ht, hh, hhad, ⟨?_, hknown, fun x hx => (hrowOf x hx).1⟩⟩
  rcases hcase with hb | ⟨hv, hd⟩
  · exact .inl ⟨n, hhad.node_mem, hb⟩
  · -- The version is still the stored one, and so is the content.
    have hsame : (e.toItem n row).row = (w.db n).selectRow ⟨e.table.name, e.key⟩ := by
      rcases hrow with hdel | ⟨hlive, hsel⟩
      · rw [row_toItem_of_deleted hdel]
        have := hcell.deleted
        rw [hd, hdel] at this
        exact (Option.isNone_iff_eq_none.mp this.symm).symm
      · rw [row_toItem hlive (hc.rowOf hhad.node_mem ht hsel).1]
        exact hsel.symm
    rw [hsame]
    show Genuine _ _ _ (e.rowVersion, _)
    rw [← hv]
    exact hcell.copy.genuine

/-- The content of a live entry is gone only when the node stores a newer version by now. -/
theorem Consistent.gone (hc : Consistent mesh w) {e : Entry} (he : (n, e) ∈ w.entries)
    (hlive : e.deleted = false) (hsel : (w.db n).selectRow e.id = none) (locked : Bool) :
    recordImplicitDeletion n (w.db n) locked e = w.db n ∧
      Beyond (held mesh w.db e.table e.key n) e.rowVersion := by
  obtain ⟨r, hr, hcell, hcase⟩ := hc.entry_cases he
  have hd : r.deleted = true := by
    rw [hcell.deleted, show (w.db n).selectRow ⟨e.table.name, e.key⟩ = none from hsel]
    rfl
  refine ⟨recordImplicitDeletion_of_deleted hr hd, hcase.resolve_right fun h => ?_⟩
  rw [hd, hlive] at h
  cases h.2

theorem Consistent.apply (hc : Consistent mesh w) {p : Push} (hp : p ∈ w.pushes)
    (fault : Option ℕ) :
    Consistent mesh (w.store p.peer (attempt mesh.schema fault (w.db p.peer) p.item).2) ∧
      ((attempt mesh.schema fault (w.db p.peer) p.item).1 = .applied ∨
        (attempt mesh.schema fault (w.db p.peer) p.item).1 = .stale →
        AtLeast (held mesh (w.store p.peer (attempt mesh.schema fault (w.db p.peer) p.item).2).db
          p.item.table p.item.key p.peer) p.item.rowVersion) := by
  obtain ⟨hpeer, ht, hh, hhad, hcopy⟩ := hc.pushes p hp
  rcases attempt_cases mesh.schema fault (w.db p.peer) p.item with
    ⟨hdb, hna, hst⟩ | ⟨-, hnew, db', hw, hdb⟩
  · rw [hdb, store_same]
    refine ⟨hc, fun h => ?_⟩
    have hstale := hst (h.resolve_left hna)
    rw [hh] at hstale
    exact atLeast_of_not_newer hstale
  · rw [hh] at hnew
    have hrows := writeRow_rows rfl (fun r hr => hcopy.row r hr)
      (fun r hr => hc.rowOf hpeer ht hr) hw
    have hreg := (writeRow_registry hw).1
    have hnone : p.item.deleted = p.item.row.isNone := by
      rw [← Option.not_isSome, p.item.row_isSome, Bool.not_not]
    have hown : p.item.origin = p.peer → False := by
      intro ho
      -- The peer itself has got to every version of its own.
      obtain ⟨-, s, d, hs, hle⟩ := hcopy.known
      rw [show p.item.rowVersion.origin = p.peer from ho] at hs
      exact absurd (newer_held hnew hs) (not_lt.mpr hle)
    have hadopt : Adopts mesh w.db (w.store p.peer (writeItemVersion db' p.item)).db p.peer p.item.table
        p.item.key (p.item.rowVersion, p.item.row) := by
      unfold writeItemVersion
      rw [hh, hnone]
      exact adopts_of_writeVersion hpeer ht hreg hrows hnew (fun ho => (hown ho).elim)
        fun ho => (hown ho).elim
    rw [hdb]
    refine ⟨hc.adopt hadopt (hcopy.adopt hadopt ht) rfl rfl rfl, fun _ => ?_⟩
    rw [hadopt.held_self, Function.update_self]
    exact ⟨_, _, rfl, le_rfl⟩

/-! ### Runs -/

theorem consistent_initial : Consistent mesh World.initial := by
  have hnone : ∀ n t h, (World.initial.db n).record t h = none := fun _ _ _ =>
    AList.lookup_empty _
  refine ⟨fun n _ t h r hr => ?_, fun n _ t _ k _ => AList.lookup_empty _, fun n _ t _ k r hr => ?_,
    by simp [World.initial], by simp [World.initial], by simp [World.initial]⟩
  all_goals
    rw [hnone] at hr
    cases hr

theorem step_consistent {e : Event} (hc : Consistent mesh w) (h : w.step mesh e = some w') :
    Consistent mesh w' := by
  cases e with
  | write node table key now row =>
      simp only [World.step] at h
      split at h
      swap
      · cases h
      next hg =>
      obtain ⟨db, hdb, rfl⟩ := Option.map_eq_some_iff.mp h
      exact hc.write hg.1 hg.2.1 hg.2.2 hdb
  | read node table hash offerFirst =>
      simp only [World.step] at h
      split at h
      swap
      · cases h
      next hg =>
      obtain ⟨r, hr, rfl⟩ := Option.map_eq_some_iff.mp h
      exact hc.read hg.1 hg.2 hr
  | decline node peer entry =>
      simp only [World.step] at h
      split at h
      swap
      · cases h
      next hg =>
      cases h
      obtain ⟨ht, hh, hhad, -⟩ := hc.entries _ hg.1
      have hstale : isNewer entry.rowVersion
          ((w.db peer).readVersion entry.table.name (mesh.computePkHash entry.key)) = false := by
        rw [← hh]
        simpa using hg.2.2
      exact hc.settle hg.2.1 ht (by rw [hh]) hhad (.inr (atLeast_of_not_newer hstale))
  | load node peer entry locked =>
      simp only [World.step] at h
      split at h
      swap
      · cases h
      next hg =>
      obtain ⟨ht, hh, hhad, -⟩ := hc.entries _ hg.1
      cases hd : entry.deleted with
      | true =>
          rw [hd] at h
          cases h
          exact hc.push hg.1 hg.2 (.inl hd)
      | false =>
          cases hsel : (w.db node).selectRow entry.id with
          | some row =>
              rw [hd, hsel] at h
              cases h
              exact hc.push hg.1 hg.2 (.inr ⟨hd, hsel⟩)
          | none =>
              rw [hd, hsel] at h
              cases h
              obtain ⟨hsame, hb⟩ := hc.gone hg.1 hd hsel locked
              rw [hsame, store_same]
              exact hc.settle hg.2 ht (by rw [hh]) hhad (.inl hb)
  | apply push fault answered =>
      simp only [World.step] at h
      split at h
      swap
      · cases h
      next hg =>
      obtain ⟨hpeer, ht, hh, hhad, -⟩ := hc.pushes push hg
      obtain ⟨hc', hleast⟩ := hc.apply hg fault
      cases h
      split
      · next hans =>
        have hpush := hc'.pushes push hg
        exact hc'.settle hpeer ht (by rw [WorkItem.itemKey, hh]) hpush.2.2.2.1 (.inr (hleast hans.2))
      · exact hc'

theorem step_grows {e : Event} (h : w.step mesh e = some w') (n : String) :
    Grows (w.db n) (w'.db n) := by
  have hstore : ∀ {m db}, Grows (w.db m) db → Grows (w.db n) ((w.store m db).db n) := by
    intro m db hg
    by_cases hm : n = m
    · subst hm
      rwa [store_db_self]
    · rw [store_db_of_ne hm]
      exact Grows.refl _
  cases e with
  | write node table key now row =>
      simp only [World.step] at h
      split at h
      swap
      · cases h
      obtain ⟨db, hdb, rfl⟩ := Option.map_eq_some_iff.mp h
      refine hstore ((Grows.of_registry ?_).trans (recordChange_grows _ _ _ _ _ _ _))
      unfold writeLocal at hdb
      split at hdb
      · cases hdb; rfl
      · cases hdb
      · exact (insertRow_registry (toOption_eq_some.mp hdb)).1
      · exact (updateRow_registry (toOption_eq_some.mp hdb)).1
  | read node table hash offerFirst =>
      simp only [World.step] at h
      split at h
      · obtain ⟨r, -, rfl⟩ := Option.map_eq_some_iff.mp h
        exact Grows.refl _
      · cases h
  | decline node peer entry =>
      simp only [World.step] at h
      split at h
      · cases h
        exact Grows.refl _
      · cases h
  | load node peer entry locked =>
      simp only [World.step] at h
      split at h
      swap
      · cases h
      split at h
      · cases h
        exact Grows.refl _
      · cases h
        exact Grows.refl _
      · cases h
        exact hstore (recordImplicitDeletion_grows _ _ _ _)
  | apply push fault answered =>
      simp only [World.step] at h
      split at h
      swap
      · cases h
      cases h
      have hg := hstore (attempt_grows mesh.schema fault (w.db push.peer) push.item)
      split
      · exact hg
      · exact hg

/-- The nodes hold the same version, deletion mark and content of every row. -/
def Agreed (mesh : Mesh) (w : World) : Prop :=
  ∀ m ∈ mesh.nodes, ∀ n ∈ mesh.nodes, ∀ table ∈ mesh.tables, ∀ key,
    ((w.db m).record table.name (mesh.computePkHash key)).map (fun r => (r.rowVersion, r.deleted)) =
      ((w.db n).record table.name (mesh.computePkHash key)).map (fun r => (r.rowVersion, r.deleted)) ∧
    (w.db m).selectRow ⟨table.name, key⟩ = (w.db n).selectRow ⟨table.name, key⟩

/-- What an origin holds of its own has reached every peer it has delivered its feed to. -/
theorem Consistent.delivered (hc : Consistent mesh w) {m : String} (hm : m ∈ mesh.nodes)
    (hn : n ∈ mesh.nodes) (ht : t ∈ mesh.tables) (hd : m ≠ n → w.Delivered m n)
    (hy : held mesh w.db t k m = some y) (ho : y.1.origin = m) :
    AtLeast (held mesh w.db t k n) y.1 := by
  by_cases he : m = n
  · exact ⟨y.1, y.2, he ▸ hy, le_rfl⟩
  obtain ⟨r, hr, rfl⟩ := Option.map_eq_some_iff.mp hy
  have hcell := hc.cells m hm t ht k r hr
  rcases hd he _ _ r hr with hown | hvia | ⟨s, hs, rfl, rfl, hrow, hver⟩
  · exact absurd (ho.symm.trans hown) he
  · rw [hcell.via ho] at hvia
    cases hvia
  · obtain ⟨-, t', ht', k', hrow', hhad, hcase⟩ := hc.settled s hs
    obtain ⟨hname, hhash⟩ := Prod.mk.inj (hrow.symm.trans hrow')
    obtain rfl := mesh.name_injective t ht t' ht' hname
    obtain rfl := mesh.hash_injective hhash
    -- The settled version is the one the origin holds.
    have hv : r.rowVersion = s.version := hhad.own _ hy hver.symm ho
    rcases hcase with ⟨u, d, hu, hlt⟩ | hleast
    · rw [hy] at hu
      cases hu
      exact absurd (hv ▸ hlt) (lt_irrefl _)
    · rw [hv]
      exact hleast

theorem Consistent.agreed (hc : Consistent mesh w)
    (hd : ∀ m ∈ mesh.nodes, ∀ n ∈ mesh.nodes, m ≠ n → w.Delivered m n) : Agreed mesh w := by
  intro m hm n hn t ht k
  have hcell : ∀ n ∈ mesh.nodes, ∀ y, held mesh w.db t k n = some y → Copy mesh w.db t k y := by
    intro n hn y hy
    obtain ⟨r, hr, rfl⟩ := Option.map_eq_some_iff.mp hy
    exact (hc.cells n hn t ht k r hr).copy
  have hheld : held mesh w.db t k m = held mesh w.db t k n :=
    agree_of_delivered (fun n hn y hy => (hcell n hn y hy).genuine)
      (fun n hn y hy => (hcell n hn y hy).known)
      (fun m hm y hy ho n hn => hc.delivered hm hn ht (hd m hm n hn) hy ho) m hm n hn
  unfold held at hheld
  cases hrm : (w.db m).record t.name (mesh.computePkHash k) with
  | none =>
      cases hrn : (w.db n).record t.name (mesh.computePkHash k) with
      | none => exact ⟨rfl, by rw [hc.absent m hm t ht k hrm, hc.absent n hn t ht k hrn]⟩
      | some r => rw [hrm, hrn] at hheld; cases hheld
  | some r =>
      cases hrn : (w.db n).record t.name (mesh.computePkHash k) with
      | none => rw [hrm, hrn] at hheld; cases hheld
      | some r' =>
          rw [hrm, hrn] at hheld
          obtain ⟨hv, hrow⟩ := Prod.mk.inj (Option.some.inj hheld)
          refine ⟨?_, hrow⟩
          rw [Option.map_some, Option.map_some, hv, (hc.cells m hm t ht k r hrm).deleted,
            (hc.cells n hn t ht k r' hrn).deleted, hrow]

instance (w : World) (node peer : String) : Decidable (w.Delivered node peer) :=
  decidable_of_iff (∀ e ∈ (w.db node).registry.toList, e.2.origin = peer ∨ e.2.via = some peer ∨
    ∃ s ∈ w.settled, s.sender = node ∧ s.peer = peer ∧ s.row = e.1 ∧ s.version.version = e.2.version)
    ⟨fun h t k r hr => h ((t, k), r) (Table.mem_toList.mpr hr),
      fun h e he => h e.1.1 e.1.2 e.2 (Table.mem_toList.mp he)⟩

/-- The characters of a key, each behind an `a`, each part ended by a `b`. -/
def spell : List String → List Char
  | [] => []
  | part :: parts => part.toList.flatMap (fun c => ['a', c]) ++ 'b' :: spell parts

theorem spell_part {l m x y : List Char}
    (h : l.flatMap (fun c => ['a', c]) ++ 'b' :: x = m.flatMap (fun c => ['a', c]) ++ 'b' :: y) :
    l = m ∧ x = y := by
  induction l generalizing m with
  | nil =>
      cases m with
      | nil => simpa using h
      | cons c m => simp at h
  | cons c l ih =>
      cases m with
      | nil => simp at h
      | cons c' m =>
          simp only [List.flatMap_cons, List.cons_append, List.nil_append, List.cons.injEq,
            true_and] at h
          obtain ⟨rfl, h⟩ := h
          obtain ⟨rfl, rfl⟩ := ih h
          exact ⟨rfl, rfl⟩

theorem spell_injective : Function.Injective spell := by
  intro a
  induction a with
  | nil =>
      intro b h
      cases b with
      | nil => rfl
      | cons part parts => simp [spell] at h
  | cons part parts ih =>
      intro b h
      cases b with
      | nil => simp [spell] at h
      | cons part' parts' =>
          obtain ⟨hpart, hparts⟩ := spell_part h
          rw [String.toList_inj.mp hpart, ih hparts]

/-- The nodes `A` and `B`, with the table `reminders`. -/
def pair : Mesh where
  nodes := {"A", "B"}
  tables := [reminders]
  computePkHash key := String.ofList (spell key)
  keyValue _ key _ := .string (key.headD "")
  valueError _ _ := none
  hash_injective := fun _ _ h => spell_injective (String.ofList_injective h)
  uniques_nil := by simp [reminders]
  name_injective := by simp

def reminderRow (title : String) : Row := [("id", .string "r1"), ("title", .string title)]

/-- `A` writes a reminder twice and sends its first version late, with the content of the second. -/
def lateContent : List Event :=
  [.write "A" reminders ["r1"] 5 (some (reminderRow "draft")),
    .read "A" reminders (String.ofList (spell ["r1"])) false,
    .write "A" reminders ["r1"] 5 (some (reminderRow "final")),
    .load "A" "B" ⟨reminders, String.ofList (spell ["r1"]), some 0, false, ["r1"], 5, "A", false⟩
      false,
    .apply ⟨"B", Entry.toItem ⟨reminders, String.ofList (spell ["r1"]), some 0, false, ["r1"], 5, "A",
      false⟩ "A" (reminderRow "final")⟩ none true]

/-- `A` sends the second version too. -/
def secondVersion : List Event :=
  [.read "A" reminders (String.ofList (spell ["r1"])) false,
    .load "A" "B" ⟨reminders, String.ofList (spell ["r1"]), some 1, false, ["r1"], 6, "A", false⟩
      false,
    .apply ⟨"B", Entry.toItem ⟨reminders, String.ofList (spell ["r1"]), some 1, false, ["r1"], 6, "A",
      false⟩ "A" (reminderRow "final")⟩ none true]

end Pokyh.Cluster

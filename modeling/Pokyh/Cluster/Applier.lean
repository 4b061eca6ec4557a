import Pokyh.Cluster.Database
import Pokyh.Lib.Runs
import Mathlib.Data.List.Sort

/-!
# Cluster — Applier

How a node applies the changes a peer sends (`applier.ts`).  A push is turned into work items
(`buildWorkItem`); `processItems` first tries the whole package in one transaction
(`applyPackage`) and, when that needs more than plain writes, goes through it item by item
(`attempt`), once more for what waited, and then through the rows that collide with another row on
a unique value (`collide`).  What cannot be applied is set aside (`saveDeferred`) and retried
later (`retryDeferred`).

What the process meets from outside while it works is a `Moment`: an error the database raises
instead of running a transaction, the time, and what the peers last reported.  A pass of
`processItems` takes it from `at`, by the phase of the pass and the item, so that every order of
failures is covered.

`REPAIRS` is the empty table in the source, so the repair branch of `resolveDuplicate` has no
counterpart here.
-/

namespace Pokyh.Cluster
open Pokyh.Lib

/-! ### Wire format and work items -/

inductive WireValue where
  | null
  | string (text : String)
  /-- A number, by its JSON text. -/
  | number (text : String)
  | boolean (b : Bool)
  deriving DecidableEq, Repr

structure WireItem where
  h : String
  k : List String
  v : ℕ
  o : String
  d : Bool
  r : Option (List WireValue)
  deriving DecidableEq, Repr

structure WireTableBatch where
  t : String
  cols : List String
  items : List WireItem
  deriving DecidableEq, Repr

structure Wire where
  cols : List String
  item : WireItem
  deriving DecidableEq, Repr

/-- Set when the item was loaded from the deferred table. -/
structure Deferral where
  attempts : ℕ
  firstSeenAt : ℕ
  deriving DecidableEq, Repr

structure WorkItem where
  table : TableInfo
  hash : String
  key : List String
  version : ℕ
  origin : String
  deleted : Bool
  /-- In table column order; none for a deletion. -/
  values : Option (List Value)
  fromPeer : String
  wire : Wire
  deferred : Option Deferral
  slot : Option ℕ
  values_isSome : values.isSome = !deleted
  deriving DecidableEq, Repr

namespace WorkItem

def id (item : WorkItem) : RowId := ⟨item.table.name, item.key⟩

def rowVersion (item : WorkItem) : RowVersion := ⟨item.version, item.origin⟩

/-- `rowObject`: the received row by column name. -/
def row (item : WorkItem) : Option Row := item.values.map fun vs => item.table.columns.zip vs

/-- `valueOf` -/
def valueOf (item : WorkItem) (column : String) : Option Value :=
  item.row.bind fun row => row.value column

/-- `itemKey`, as the pair it is made of -/
def itemKey (item : WorkItem) : String × String := (item.table.name, item.hash)

theorem row_isSome (item : WorkItem) : item.row.isSome = !item.deleted := by
  rw [← item.values_isSome, row, Option.isSome_map]

theorem row_eq_none_iff {item : WorkItem} : item.row = none ↔ item.deleted = true := by
  rw [← Option.isNone_iff_eq_none, ← Option.not_isSome, item.row_isSome]
  simp

end WorkItem

inductive ItemResult where
  | a | s | d | r
  deriving DecidableEq, Repr

inductive Reason where
  | fk | race | error | unique
  deriving DecidableEq, Repr

inductive Outcome where
  | applied
  | stale
  | conflict (index : UniqueIndex) (otherKey : List String)
  | defer (reason : Reason)
  | reject
  deriving DecidableEq, Repr

/-- What a node's process knows from its start: its id, its catalog and schema, the hash of a key
(SHA-256), the decoder of a single value, and the age at which a set-aside change is given up. -/
structure Node where
  nodeId : String
  catalog : List TableInfo
  schema : Schema
  computePkHash : List String → String
  decodeValue : ColumnKind → WireValue → Option Value
  deferredMaxAgeMs : ℕ

def Node.table? (node : Node) (name : String) : Option TableInfo :=
  node.catalog.find? fun table => table.name = name

theorem table?_name {node : Node} {name : String} {table : TableInfo}
    (h : node.table? name = some table) : table.name = name := by
  have := List.find?_some h
  simpa using this

def decodeRow (node : Node) (codec : List CodecColumn) (values : List WireValue) :
    Option (List Value) :=
  if values.length ≠ codec.length then none
  else (codec.zip values).mapM fun (column, value) => node.decodeValue column.kind value

def buildWorkItem (node : Node) (table : TableInfo) (cols : List String) (wire : WireItem)
    (fromPeer : String) : Except String WorkItem :=
  if wire.k.length ≠ table.pk.length then .error "key does not match the table"
  else if node.computePkHash wire.k ≠ wire.h then .error "key hash mismatch"
  else
    let built (values : Option (List Value)) (h : values.isSome = !wire.d) : WorkItem :=
      { table, hash := wire.h, key := wire.k, version := wire.v, origin := wire.o,
        deleted := wire.d, values, fromPeer, wire := ⟨cols, wire⟩, deferred := none, slot := none,
        values_isSome := h }
    if hd : wire.d then .ok (built none (by simp [hd]))
    else
      match wire.r with
      | none => .error "row is missing"
      | some r =>
          -- Anything but exactly our columns means the two nodes run different schemas.
          if cols ≠ table.columns then .error "column list differs"
          else
            match decodeRow node table.codec r with
            | none => .error "row could not be decoded"
            | some values => .ok (built (some values) (by simp [hd]))

/-! ### Moments -/

/-- What a step of a pass meets from outside. -/
structure Moment where
  /-- An error the database raises instead of running the transaction. -/
  fault : Option ℕ
  now : ℕ
  /-- The peers, and when each last reported that it has nothing further for us. -/
  peers : List (String × Option ℕ)

/-- Where in a pass a moment is met. -/
inductive Phase where
  | package | first | second | colliding | group | duplicate | settle
  deriving DecidableEq, Repr

/-- The peer that sent a set-aside change has confirmed, after the change was first seen, that it
has nothing further queued for us. -/
def senderHasNothingMore (node : Node) (m : Moment) (item : WorkItem) : Bool :=
  match item.deferred with
  | none => false
  | some d =>
      if d.attempts < 2 then false
      else if m.now - d.firstSeenAt > node.deferredMaxAgeMs then true
      else
        match m.peers.find? fun peer => peer.1 = item.fromPeer with
        | some (_, drainedAt) => drainedAt.any fun at' => at' > d.firstSeenAt
        -- The sending peer has since been removed.
        | none => true

/-! ### Applying one change -/

/-- A different local row that already holds one of the unique values the incoming row needs. -/
def findCollision (db : Database) (item : WorkItem) : Option (UniqueIndex × List String) :=
  match item.row with
  | none => none
  | some row => item.table.uniques.findSome? fun index =>
      (otherHolder db.rows item.id row index).map fun otherKey => (index, otherKey)

def classifyWriteError (code : ℕ) : Outcome :=
  if code ∈ [1452, 1216] then .defer .fk
  else if code ∈ [1062, 1213, 1205] then .defer .race
  else if code ∈ [1406, 1264, 1265, 1366, 1292, 1054, 1146] then .reject
  else .defer .error

/-- `exists` is what the caller read before. -/
def writeRow (S : Schema) (db : Database) (item : WorkItem) (present : Bool) : Except ℕ Database :=
  match item.row with
  | none => .ok (if present then deleteRow S db item.id else db)
  | some row =>
      if !present then insertRow S db item.table item.key row
      -- A table of key columns only has nothing to update.
      else if item.table.columns.all (· ∈ item.table.pk) then .ok db
      else updateRow S db item.table item.key row

/-- The version record of the item, passed on to the peers the item did not come from. -/
def writeItemVersion (db : Database) (item : WorkItem) : Database :=
  db.writeVersion item.table.name item.hash item.key item.version item.origin item.deleted
    (some item.fromPeer)

def attemptWithin (S : Schema) (db : Database) (item : WorkItem) : Outcome × Database :=
  let existing := db.selectRow item.id
  let stored := db.readVersion item.table.name item.hash
  if !isNewer item.rowVersion stored then (.stale, db)
  else
    match findCollision db item with
    | some (index, otherKey) => (.conflict index otherKey, db)
    | none =>
        match writeRow S db item existing.isSome with
        | .error code => (classifyWriteError code, db)
        | .ok db' => (.applied, writeItemVersion db' item)

/-- One change in a transaction of its own. -/
def attempt (S : Schema) (fault : Option ℕ) (db : Database) (item : WorkItem) :
    Outcome × Database :=
  match fault with
  | some code => (classifyWriteError code, db)
  | none => attemptWithin S db item

/-! ### Applying a whole package at once -/

/-- One item of a package; none when the package has to go through the careful path.  Whether the
row exists was read from `before`, ahead of every write of the package. -/
def packageStep (S : Schema) (before : Database)
    (acc : Database × List (WorkItem × ItemResult)) (item : WorkItem) :
    Option (Database × List (WorkItem × ItemResult)) :=
  let (db, results) := acc
  if !isNewer item.rowVersion (db.readVersion item.table.name item.hash) then
    some (db, results ++ [(item, .s)])
  else if (findCollision db item).isSome then none
  else
    match writeRow S db item (before.selectRow item.id).isSome with
    | .error _ => none
    | .ok db' => some (writeItemVersion db' item, results ++ [(item, .a)])

def applyPackage (S : Schema) (fault : WorkItem → Option ℕ) (db : Database)
    (items : List WorkItem) : Option (Database × List (WorkItem × ItemResult)) :=
  if items.any fun item => (fault item).isSome then none
  else run (packageStep S db) (db, []) items

/-! ### Applying a set of mutually colliding changes together -/

def parkingAlphabet : List Char := "abcdefghijklmnopqrstuvwxyz0123456789".toList

/-- A throw-away value for a column, from random draws. -/
def parkingValue (draw : ℕ → ℕ) (table : TableInfo) (column : String) : Option Value :=
  match (table.codec.find? fun candidate => candidate.name = column).map CodecColumn.kind with
  | some .number => some (.number (-(100000000 + (draw 0 % 1900000000 : ℕ))))
  | some .bigint => some (.bigint (-(100000000 + (draw 0 % 1900000000 : ℕ))))
  | some .string =>
      let max := (table.maxLength.lookup column).getD 0
      if max < 6 then none
      else some (.string (String.ofList ('~' :: (List.range (min max 24 - 1)).map fun i =>
        parkingAlphabet.getD (draw i % 36) 'a')))
  | _ => none

def parkingColumn (table : TableInfo) (index : UniqueIndex) : Option String :=
  index.columns.find? fun column =>
    !(column ∈ table.pk) && !(column ∈ table.fkColumns) &&
      (parkingValue (fun _ => 0) table column).isSome

/-- `UPDATE … SET column = value` of one row. -/
def updateColumn (S : Schema) (db : Database) (item : WorkItem) (column : String) (v : Value) :
    Except ℕ Database :=
  match db.selectRow item.id with
  | none => .ok db
  | some row => updateRow S db item.table item.key (row.set column v)

/-- What the rows of a group are moved to: the draws for an item and an index. -/
abbrev Draws := WorkItem → UniqueIndex → ℕ → ℕ

/-- Moves one member out of the way on every index.  `some db` with `false`: an index has no column
to park, and what was parked so far stays, because the transaction is not rolled back. -/
def parkMember (S : Schema) (draws : Draws) (db : Database) (item : WorkItem) :
    List UniqueIndex → Except ℕ (Bool × Database)
  | [] => .ok (true, db)
  | index :: indexes =>
      match parkingColumn item.table index with
      | none => .ok (false, db)
      | some column =>
          match parkingValue (draws item index) item.table column with
          | none => .ok (false, db)
          | some v =>
              match updateColumn S db item column v with
              | .error code => .error code
              | .ok db' => parkMember S draws db' item indexes

/-- Parks the members whose row was there. -/
def parkGroup (S : Schema) (draws : Draws) (before : Database) (db : Database) :
    List WorkItem → Except ℕ (Bool × Database)
  | [] => .ok (true, db)
  | item :: group =>
      if (before.selectRow item.id).isNone then parkGroup S draws before db group
      else
        match parkMember S draws db item item.table.uniques with
        | .error code => .error code
        | .ok (false, db') => .ok (false, db')
        | .ok (true, db') => parkGroup S draws before db' group

/-- Gives the members their final values. -/
def writeGroup (S : Schema) (before : Database) (db : Database) :
    List WorkItem → Except ℕ Database
  | [] => .ok db
  | item :: group =>
      match writeRow S db item (before.selectRow item.id).isSome with
      | .error code => .error code
      | .ok db' => writeGroup S before (writeItemVersion db' item) group

def applyGroup (S : Schema) (fault : Option ℕ) (draws : Draws) (db : Database)
    (group : List WorkItem) : Bool × Database :=
  if fault.isSome then (false, db)
  -- The set only makes sense as a whole.
  else if group.any fun item => !isNewer item.rowVersion (db.readVersion item.table.name item.hash) then
    (false, db)
  else
    match parkGroup S draws db db group with
    | .error _ => (false, db)
    | .ok (false, db') => (false, db')
    | .ok (true, db') =>
        match writeGroup S db db' group with
        | .error _ => (false, db)
        | .ok db'' => (true, db'')

/-! ### Resolving a real duplicate -/

/-- The earlier-created row wins, and the key hash settles a tie or a missing timestamp. -/
def incomingWins (db : Database) (item : WorkItem) (otherKey : List String) (otherHash : String) :
    Bool :=
  match item.table.createdAtColumn with
  | none => item.hash < otherHash
  | some column =>
      match (db.selectRow ⟨item.table.name, otherKey⟩).bind (·.value column), item.valueOf column with
      | some (.date localCreated), some (.date incomingCreated) =>
          if localCreated ≠ incomingCreated then incomingCreated < localCreated
          else item.hash < otherHash
      | _, _ => item.hash < otherHash

def resolveDuplicate (node : Node) (fault : Option ℕ) (db : Database) (item : WorkItem)
    (otherKey : List String) : Bool × Database :=
  let S := node.schema
  let otherHash := node.computePkHash otherKey
  let otherId : RowId := ⟨item.table.name, otherKey⟩
  let wins := incomingWins db item otherKey otherHash
  let existing := db.selectRow item.id
  if fault.isSome then (false, db)
  else if !isNewer item.rowVersion (db.readVersion item.table.name item.hash) then (false, db)
  else if !wins then
    -- Recorded as deleted with a version just above its own, for every peer.
    let db₁ := if existing.isSome then deleteRow S db item.id else db
    (true, db₁.writeVersion item.table.name item.hash item.key (item.version + 1) node.nodeId true none)
  else
    let otherVersion := ((db.readVersion item.table.name otherHash).map RowVersion.version).getD 0
    let db₁ := if (db.selectRow otherId).isSome then deleteRow S db otherId else db
    let db₂ := db₁.writeVersion item.table.name otherHash otherKey (otherVersion + 1) node.nodeId true none
    match writeRow S db₂ item existing.isSome with
    | .error _ => (false, db)
    | .ok db₃ =>
        (true, db₃.writeVersion item.table.name item.hash item.key item.version item.origin false
          (some item.fromPeer))

/-! ### Deferred changes -/

structure DeferredRow where
  fromPeer : String
  version : ℕ
  origin : String
  payload : Wire
  reason : Reason
  attempts : ℕ
  firstSeenAt : ℕ
  lastTriedAt : ℕ
  deriving DecidableEq, Repr

def DeferredRow.rowVersion (row : DeferredRow) : RowVersion := ⟨row.version, row.origin⟩

/-- `cluster_deferred`, by table name and key hash. -/
abbrev SetAside := Table (String × String) DeferredRow

/-- Only the newest pending change of a row is worth keeping. -/
def saveDeferred (now : ℕ) (deferred : SetAside) (item : WorkItem) (reason : Reason) : SetAside :=
  let fresh (attempts firstSeenAt : ℕ) : DeferredRow :=
    { fromPeer := item.fromPeer, version := item.version, origin := item.origin,
      payload := item.wire, reason, attempts, firstSeenAt, lastTriedAt := now }
  match deferred.lookup item.itemKey with
  | none => deferred.insert item.itemKey (fresh 1 now)
  | some existing =>
      if !isNewer item.rowVersion (some existing.rowVersion) &&
          !(existing.version = item.version && existing.origin = item.origin) then deferred
      else deferred.insert item.itemKey (fresh (existing.attempts + 1) existing.firstSeenAt)

def clearDeferred (deferred : SetAside) (item : WorkItem) : SetAside :=
  match deferred.lookup item.itemKey with
  | none => deferred
  | some existing =>
      if existing.version ≤ item.version then deferred.erase item.itemKey else deferred

/-! ### Processing a set of changes -/

structure Store where
  db : Database
  deferred : SetAside

structure Waiting where
  item : WorkItem
  reason : Reason
  deriving DecidableEq, Repr

/-- The working state of the careful path. -/
structure Pass where
  db : Database
  results : List (WorkItem × ItemResult)
  colliding : List WorkItem
  waiting : List Waiting
  handled : List WorkItem

/-- What meets a pass from outside: the moments, by phase and item, and the random draws. -/
structure Surroundings where
  at' : Phase → WorkItem → Moment
  draws : Draws

/-- Nothing fails, no time passes, and there is no peer. -/
def calm : Surroundings := ⟨fun _ _ => ⟨none, 0, []⟩, fun _ _ _ => 0⟩

/-- Deletions first, children before parents; then rows, parents before children. -/
def comesBefore (a b : WorkItem) : Bool :=
  if a.deleted ≠ b.deleted then a.deleted
  else if a.deleted then b.table.rank ≤ a.table.rank
  else a.table.rank ≤ b.table.rank

def orderItems (items : List WorkItem) : List WorkItem :=
  items.insertionSort fun a b => comesBefore a b = true

namespace Pass

def store (p : Pass) (db : Database) : Pass := { p with db }

def settle (p : Pass) (item : WorkItem) (result : ItemResult) : Pass :=
  { p with results := p.results ++ [(item, result)] }

def clash (p : Pass) (item : WorkItem) : Pass := { p with colliding := p.colliding ++ [item] }

def wait (p : Pass) (item : WorkItem) (reason : Reason) : Pass :=
  { p with waiting := p.waiting ++ [⟨item, reason⟩] }

def unwait (p : Pass) (entry : Waiting) : Pass := { p with waiting := p.waiting.erase entry }

def handle (p : Pass) (items : List WorkItem) : Pass := { p with handled := p.handled ++ items }

end Pass

/-- Every item on its own. -/
def firstRound (node : Node) (env : Surroundings) (p : Pass) (item : WorkItem) : Pass :=
  let (outcome, db) := attempt node.schema (env.at' .first item).fault p.db item
  let p := p.store db
  match outcome with
  | .applied => p.settle item .a
  | .stale => p.settle item .s
  | .conflict _ _ => p.clash item
  | .defer reason => p.wait item reason
  | .reject => p.settle item .r

/-- A row that waited for its parent may have been unblocked by a later row of the same set. -/
def secondRound (node : Node) (env : Surroundings) (p : Pass) (entry : Waiting) : Pass :=
  if entry.reason ≠ .fk ∧ entry.reason ≠ .race then p
  else
    let (outcome, db) := attempt node.schema (env.at' .second entry.item).fault p.db entry.item
    let p := p.store db
    match outcome with
    | .applied => (p.settle entry.item .a).unwait entry
    | .stale => (p.settle entry.item .s).unwait entry
    | .conflict _ _ => (p.clash entry.item).unwait entry
    | .defer _ | .reject => p

/-- The colliding item of a row: the last one, when there are several. -/
def pendingOf (colliding : List WorkItem) (key : String × String) : Option WorkItem :=
  colliding.reverse.find? fun item => item.itemKey = key

/-- The rows that collide only with each other, as far as they are known. -/
structure Group where
  members : List WorkItem
  closed : Bool
  blocker : UniqueIndex × List String

def examineIndex (node : Node) (p : Pass) (member : WorkItem) (g : Group) (index : UniqueIndex) :
    Group :=
  if !g.closed then g
  else
    match member.row.bind fun row => otherHolder p.db.rows member.id row index with
    | none => g
    | some otherKey =>
        let otherHash := node.computePkHash otherKey
        if g.members.any fun c => c.table = member.table && c.hash = otherHash then g
        else
          match pendingOf p.colliding (member.table.name, otherHash) with
          | none => { g with closed := false, blocker := (index, otherKey) }
          | some partner =>
              if partner ∉ p.handled ∧ partner.deleted = false then
                { g with members := g.members ++ [partner] }
              else { g with closed := false, blocker := (index, otherKey) }

/-- Follows the members from `cursor` on; `fuel` bounds how many there can be. -/
def growGroup (node : Node) (p : Pass) : ℕ → ℕ → Group → Group
  | 0, _, g => g
  | fuel + 1, cursor, g =>
      if !g.closed then g
      else
        match g.members[cursor]? with
        | none => g
        | some member =>
            growGroup node p fuel (cursor + 1)
              (member.table.uniques.foldl (examineIndex node p member) g)

def collectGroup (node : Node) (p : Pass) (entry : WorkItem) (blocker : UniqueIndex × List String) :
    Group :=
  growGroup node p (p.colliding.length + 1) 0 ⟨[entry], true, blocker⟩

/-- A colliding row that is not part of a group: a real duplicate, or set aside. -/
def settleAlone (node : Node) (env : Surroundings) (p : Pass) (entry : WorkItem)
    (blocker : UniqueIndex × List String) : Pass :=
  let p := p.handle [entry]
  if senderHasNothingMore node (env.at' .colliding entry) entry then
    match resolveDuplicate node (env.at' .duplicate entry).fault p.db entry blocker.2 with
    | (true, db) => (p.store db).settle entry .a
    | (false, db) => (p.store db).wait entry .unique
  else p.wait entry .unique

def collide (node : Node) (env : Surroundings) (p : Pass) (entry : WorkItem) : Pass :=
  if entry ∈ p.handled then p
  else
    -- An earlier step of this pass may have removed the collision already.
    let (outcome, db) := attempt node.schema (env.at' .colliding entry).fault p.db entry
    let p := p.store db
    match outcome with
    | .applied => (p.handle [entry]).settle entry .a
    | .stale => (p.handle [entry]).settle entry .s
    | .reject => (p.handle [entry]).settle entry .r
    | .defer reason => (p.handle [entry]).wait entry reason
    | .conflict index otherKey =>
        let g := collectGroup node p entry (index, otherKey)
        if g.closed ∧ g.members.length > 1 then
          match applyGroup node.schema (env.at' .group entry).fault env.draws p.db g.members with
          | (true, db) =>
              let p := (p.store db).handle g.members
              { p with results := p.results ++ g.members.map fun member => (member, .a) }
          | (false, db) => settleAlone node env (p.store db) entry g.blocker
        else settleAlone node env p entry g.blocker

/-- The careful path, up to the decision about what is still waiting. -/
def carefulPass (node : Node) (env : Surroundings) (db : Database) (ordered : List WorkItem) : Pass :=
  let p₁ := ordered.foldl (firstRound node env) ⟨db, [], [], [], []⟩
  let p₂ := p₁.waiting.foldl (secondRound node env) p₁
  p₂.colliding.foldl (collide node env) p₂

/-- What a pass leaves: the store, the results, and the changes dropped as orphans. -/
structure Done where
  store : Store
  results : List (WorkItem × ItemResult)
  dropped : List WorkItem

/-- Drops a change whose parent is given up, or sets it aside. -/
def settleWaiting (node : Node) (env : Surroundings) (f : Done) (entry : Waiting) : Done :=
  if entry.reason = .fk ∧ senderHasNothingMore node (env.at' .settle entry.item) entry.item then
    { f with
      results := f.results ++ [(entry.item, .s)]
      dropped := f.dropped ++ [entry.item] }
  else
    { f with
      results := f.results ++ [(entry.item, .d)]
      store := { f.store with
        deferred := saveDeferred (env.at' .settle entry.item).now f.store.deferred entry.item
          entry.reason } }

def clearSettled (deferred : SetAside) (results : List (WorkItem × ItemResult)) : SetAside :=
  results.foldl (fun deferred (entry : WorkItem × ItemResult) =>
    if entry.2 = .a ∨ entry.2 = .s then clearDeferred deferred entry.1 else deferred) deferred

def processItems (node : Node) (env : Surroundings) (store : Store) (items : List WorkItem) : Done :=
  let anySetAside := items.any (fun item => item.deferred.isSome) || !store.deferred.entries.isEmpty
  let ordered := orderItems items
  let fast :=
    if !ordered.isEmpty && ordered.all fun item => item.deferred.isNone then
      applyPackage node.schema (fun item => (env.at' .package item).fault) store.db ordered
    else none
  match fast with
  | some (db, results) =>
      ⟨⟨db, if anySetAside then clearSettled store.deferred results else store.deferred⟩, results, []⟩
  | none =>
      let p := carefulPass node env store.db ordered
      let f := p.waiting.foldl (settleWaiting node env) ⟨⟨p.db, store.deferred⟩, p.results, []⟩
      if anySetAside then
        { f with store := { f.store with deferred := clearSettled f.store.deferred f.results } }
      else f

/-! ### A push from a peer, and the retry of what was set aside -/

/-- The built items of a push, with the slots they came in, and the number of slots. -/
def buildPush (node : Node) (fromPeer : String) (batches : List WireTableBatch) :
    List WorkItem × ℕ :=
  let wires := batches.flatMap fun batch => batch.items.map fun item => (batch, item)
  (wires.zipIdx.filterMap fun ((batch, wire), slot) =>
    match node.table? batch.t with
    | none => none
    | some table =>
        match buildWorkItem node table batch.cols wire fromPeer with
        | .error _ => none
        | .ok item => some { item with slot := some slot },
   wires.length)

/-- One result per pushed item, in order; what could not be built is rejected. -/
def slotResults (count : ℕ) (results : List (WorkItem × ItemResult)) : List ItemResult :=
  results.foldl (fun slots (entry : WorkItem × ItemResult) =>
    match entry.1.slot with
    | none => slots
    | some slot => slots.set slot entry.2) (List.replicate count .r)

def applyPush (node : Node) (env : Surroundings) (store : Store) (fromPeer : String)
    (batches : List WireTableBatch) : Done × List ItemResult :=
  let (items, count) := buildPush node fromPeer batches
  let done := processItems node env store items
  (done, slotResults count done.results)

/-- The set-aside rows, those tried longest ago first. -/
def retryRows (limit : ℕ) (deferred : SetAside) : List ((String × String) × DeferredRow) :=
  (deferred.toList.insertionSort fun a b => a.2.lastTriedAt ≤ b.2.lastTriedAt).take limit

/-- The item of a set-aside row; none when it is dropped: its table or payload is unusable, or it
is too old and waits for something else than a unique value. -/
def retryItem (node : Node) (now : ℕ) (entry : (String × String) × DeferredRow) : Option WorkItem :=
  match node.table? entry.1.1 with
  | none => none
  | some table =>
      match buildWorkItem node table entry.2.payload.cols entry.2.payload.item entry.2.fromPeer with
      | .error _ => none
      | .ok item =>
          if now - entry.2.firstSeenAt > node.deferredMaxAgeMs ∧ entry.2.reason ≠ .unique then none
          else some { item with deferred := some ⟨entry.2.attempts, entry.2.firstSeenAt⟩ }

def retryDeferred (node : Node) (env : Surroundings) (now limit : ℕ) (store : Store) : Done :=
  let rows := retryRows limit store.deferred
  let unusable := rows.filter fun entry => (retryItem node now entry).isNone
  let deferred := unusable.foldl (fun deferred entry => deferred.erase entry.1) store.deferred
  processItems node env { store with deferred } (rows.filterMap (retryItem node now))

end Pokyh.Cluster

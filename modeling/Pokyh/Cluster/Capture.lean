import Pokyh.Cluster.Database
import Pokyh.Lib.Runs

/-!
# Cluster — Capture

Change capture (`capture.ts`, `sqlgen.ts` and `prepareCapture`): the triggers that give each changed row a new version, the script that brings
them in line with the catalog, and the passes that register rows without a version, while the application goes on writing.

A trigger is its definition; the names carry a hash of it.  A statement changes one row directly; what its foreign keys do to other rows
fires no trigger, and removes rows or empties columns only.

* `capture_ready`: **where capture is said to be ready, every row has a version**, whatever was written while it was prepared, as long as
  no rebuild was broken off.
* `capture_gapless`: **a table that is covered stays covered while its triggers are replaced**, and each direct change of a row moves its
  version to the end of the feed.
* `rebuild_broken_off`: a rebuild that fails leaves rows without a version behind, and capture ready.
-/

namespace Pokyh.Cluster.Capture
open Pokyh.Lib

/-! ### Triggers -/

inductive Kind where
  | insert | update | delete
  deriving DecidableEq, Repr

structure Trigger where
  /-- Of the design before, which wrote a queue. -/
  legacy : Bool
  table : String
  kind : Kind
  pk : List String
  columns : List String
  nodeId : String
  deriving DecidableEq, Repr

def triggerDefinitions (table : TableInfo) (nodeId : String) : List Trigger :=
  [.insert, .update, .delete].map fun kind => ⟨false, table.name, kind, table.pk, table.columns, nodeId⟩

/-- What a statement did to the row it is about. -/
inductive Effect where
  | inserted (key : List String)
  | updated (key newKey : List String) (old new : Row)
  | deleted (key : List String)

/-- The versions a trigger records: keys, and whether as deleted. -/
def Trigger.fires (t : Trigger) (effect : Effect) : List (List String × Bool) :=
  match t.kind, effect with
  | .insert, .inserted key => [(key, false)]
  | .update, .updated key newKey old new =>
      if t.columns.all fun c => old.value c = new.value c then []
      else (if t.pk.all fun c => old.value c = new.value c then [] else [(key, true)]) ++ [(newKey, false)]
  | .delete, .deleted key => [(key, true)]
  | _, _ => []

/-! ### The database and what happens to it -/

structure Setting where
  tables : List TableInfo
  schema : Schema
  computePkHash : List String → String
  /-- The version that a row's own times give it. -/
  history : TableInfo → Row → ℕ
  names_nodup : (tables.map TableInfo.name).Nodup
  keys : ∀ table ∈ tables, ∀ c ∈ table.pk, c ∈ table.columns

inductive Change where
  | insert (key : List String) (row : Row)
  | update (key newKey : List String) (row : Row)
  | delete (key : List String)
  deriving DecidableEq

variable (x : Setting)

/-- The row after an `UPDATE` that changes its key or not. -/
def updated (table : TableInfo) (key newKey : List String) (old row : Row) : Row := if newKey = key then overwrite table old row else row

/-- An `UPDATE` that changes the key; a row whose key changes differs in a column of it. -/
def Setting.rekey (db : Database) (table : TableInfo) (key newKey : List String) (old row : Row) : Option Database :=
  let id : RowId := ⟨table.name, key⟩
  let rows := db.rows.erase id
  let after := rows.insert ⟨table.name, newKey⟩ row
  if (db.selectRow ⟨table.name, newKey⟩).isSome || table.pk.all fun c => old.value c = row.value c then none
  else if (storeError x.schema table rows after ⟨table.name, newKey⟩ row).isSome || strands x.schema after id old row then none
  else some { db with rows := after }

/-- A statement of the application. -/
def Setting.statement (db : Database) (table : TableInfo) : Change → Option (Database × Effect)
  | .insert key row => (insertRow x.schema db table key row).toOption.map fun db => (db, .inserted key)
  | .update key newKey row =>
      (db.selectRow ⟨table.name, key⟩).bind fun old =>
        (if newKey = key then (updateRow x.schema db table key row).toOption else x.rekey db table key newKey old row).map fun db =>
          (db, .updated key newKey old (updated table key newKey old row))
  | .delete key =>
      if (db.selectRow ⟨table.name, key⟩).isSome then some (deleteRow x.schema db ⟨table.name, key⟩, .deleted key) else none

/-- What the triggers of a table record, by node, key and whether as deleted. -/
def marks (triggers : List Trigger) (table : String) (effect : Effect) : List (String × List String × Bool) :=
  (triggers.filter fun t => !t.legacy && t.table = table).flatMap fun t => (t.fires effect).map fun mark => (t.nodeId, mark)

def Setting.mark (table : String) (now : ℕ) (db : Database) (m : String × List String × Bool) : Database :=
  db.recordChange m.1 table (x.computePkHash m.2.1) m.2.1 now m.2.2

def Setting.fire (triggers : List Trigger) (db : Database) (table : String) (effect : Effect) (now : ℕ) : Database :=
  (marks triggers table effect).foldl (x.mark table now) db

/-- What the applier leaves of a received row, in the session whose changes fire no trigger; its version comes with it. -/
def Setting.store (db : Database) (table : TableInfo) (key : List String) (row : Option Row) : Option Database :=
  match row, db.selectRow ⟨table.name, key⟩ with
  | none, _ => some (deleteRow x.schema db ⟨table.name, key⟩)
  | some row, none => (insertRow x.schema db table key row).toOption
  | some row, some _ => (updateRow x.schema db table key row).toOption

def Setting.register (name nodeId : String) (version : Row → ℕ) (db : Database) (e : RowId × Row) : Database :=
  if (db.record name (x.computePkHash e.1.key)).isSome then db
  else db.writeVersion name (x.computePkHash e.1.key) e.1.key (version e.2) nodeId false none

/-- The rows of a table without a version get one. -/
def Setting.backfill (db : Database) (table : TableInfo) (nodeId : String) (version : Row → ℕ) : Database :=
  (db.rows.toList.filter fun e => e.1.table = table.name).foldl (x.register table.name nodeId version) db

/-! ### Preparing capture -/

inductive Sql where
  | create (t : Trigger)
  | drop (t : Trigger)
  deriving DecidableEq

inductive Phase where
  | idle
  /-- The pass over the tables before the triggers. -/
  | before (left : List TableInfo)
  | ensure
  | script (left : List Sql) (created : Bool)
  | verify (created : Bool)
  | clearing
  | after (left : List TableInfo)
  deriving DecidableEq

structure State where
  db : Database
  triggers : List Trigger
  phase : Phase
  catalog : List TableInfo
  nodeId : String
  /-- `rebuildVersions` is to follow. -/
  rebuilding : Bool
  captureReady : Bool

def State.desired (s : State) : List Trigger := s.catalog.flatMap fun table => triggerDefinitions table s.nodeId

def State.missing (s : State) : List Trigger := s.desired.filter fun t => t ∉ s.triggers

def State.outdated (s : State) : List Trigger := s.triggers.filter fun t => t ∉ s.desired

def State.finish (s : State) : State := { s with phase := .idle, captureReady := true }

/-- What follows `ensureTriggers`. -/
def State.ensured (s : State) (created : Bool) : State :=
  if s.rebuilding then { s with phase := .clearing }
  else if created then { s with phase := .after s.catalog }
  else s.finish

/-- An error; one of `prepareCapture` says that capture is not ready. -/
def State.fail (s : State) : State := { s with phase := .idle, captureReady := s.rebuilding && s.captureReady }

inductive Action where
  | write (table : TableInfo) (change : Change) (now : ℕ)
  | store (table : TableInfo) (key : List String) (row : Option Row) (version : ℕ) (origin : String) (via : Option String)
  | prepare (catalog : List TableInfo) (nodeId : String)
  /-- A rebuild, after a restore or of a node's data as they are. -/
  | rebuild (restored : Bool) (catalog : List TableInfo) (nodeId : String)
  | work (now : ℕ)
  /-- `clearUnlocked` removes a line that nobody uses. -/
  | clear (table hash : String)
  | fail

/-- The version that a pass gives a row. -/
def Setting.version (s : State) (now : ℕ) (table : TableInfo) (row : Row) : ℕ := if s.rebuilding then now else x.history table row

def Setting.work (s : State) (now : ℕ) : Option State :=
  match s.phase with
  | .idle => none
  | .before [] => some { s with phase := .ensure }
  | .before (table :: left) => some { s with db := x.backfill s.db table s.nodeId (x.version s now table), phase := .before left }
  | .ensure =>
      if s.missing.isEmpty && s.outdated.isEmpty then some (s.ensured false)
      else some { s with phase := .script (s.missing.map .create ++ s.outdated.map .drop) !s.missing.isEmpty }
  | .script [] created => some { s with phase := .verify created }
  | .script (.create t :: left) created => some { s with triggers := s.triggers ++ [t], phase := .script left created }
  | .script (.drop t :: left) created => some { s with triggers := s.triggers.filter (· ≠ t), phase := .script left created }
  | .verify created => some (if s.missing.isEmpty then s.ensured created else s.fail)
  | .clearing => some { s with phase := .after s.catalog }
  | .after [] => some s.finish
  | .after (table :: left) => some { s with db := x.backfill s.db table s.nodeId (x.version s now table), phase := .after left }

def Setting.step (s : State) : Action → Option State
  | .write table change now =>
      if table ∈ x.tables then
        (x.statement s.db table change).map fun done => { s with db := x.fire s.triggers done.1 table.name done.2 now }
      else none
  | .store table key row version origin via =>
      if table ∈ x.tables then
        (x.store s.db table key row).map fun db =>
          { s with db := db.writeVersion table.name (x.computePkHash key) key version origin row.isNone via }
      else none
  | .prepare catalog nodeId =>
      if s.phase = .idle ∧ ∀ table ∈ catalog, table ∈ x.tables then
        some { s with phase := .before catalog, catalog := catalog, nodeId := nodeId, rebuilding := false }
      else none
  | .rebuild restored catalog nodeId =>
      if s.phase = .idle ∧ ∀ table ∈ catalog, table ∈ x.tables then
        some { s with
          phase := .ensure, catalog := catalog, nodeId := nodeId, rebuilding := true, captureReady := !restored && s.captureReady }
      else none
  | .work now => x.work s now
  | .clear table hash =>
      if s.phase = .clearing then some { s with db := { s.db with registry := s.db.registry.erase (table, hash) } } else none
  | .fail => if s.phase = .idle then none else some s.fail

/-! ### What a table has -/

/-- A trigger of the table that sees every change of its key. -/
structure Trigger.Covers (t : Trigger) (table : TableInfo) : Prop where
  legacy : t.legacy = false
  name : t.table = table.name
  pk : t.pk = table.pk
  columns : ∀ c ∈ table.pk, c ∈ t.columns

def Covered (s : State) (table : TableInfo) : Prop := ∀ kind, ∃ t ∈ s.triggers, t.kind = kind ∧ t.Covers table

/-- Every row of the table has a version. -/
def Recorded (db : Database) (table : TableInfo) : Prop :=
  ∀ key, (db.selectRow ⟨table.name, key⟩).isSome = true → (db.record table.name (x.computePkHash key)).isSome = true

/-- No row of the table has one as deleted. -/
def Live (db : Database) (table : TableInfo) : Prop :=
  ∀ key, (db.selectRow ⟨table.name, key⟩).isSome = true → ∀ r, db.record table.name (x.computePkHash key) = some r → r.deleted = false

/-- A key got a newer version, at the end of the feed. -/
def Marked (db db' : Database) (table hash : String) (deleted : Bool) : Prop :=
  ∃ r, db'.record table hash = some r ∧ r.deleted = deleted ∧ r.via = none ∧ db.nextSeq ≤ r.seq ∧ r.seq < db'.nextSeq ∧
    ∀ v, db.readVersion table hash = some v → v.version < r.version

variable {x} {s s' : State} {db db' : Database} {table T : TableInfo}

/-! ### What the triggers record -/

theorem record_mark (m : String × List String × Bool) (now : ℕ) (name t h : String) :
    (x.mark name now db m).record t h =
      if (t, h) = (name, x.computePkHash m.2.1) then
        some ⟨m.2.1, Database.nextVersion (db.readVersion name (x.computePkHash m.2.1)) now, m.1, none, m.2.2, db.nextSeq⟩
      else db.record t h :=
  Database.record_writeVersion

theorem rows_marks (ms : List (String × List String × Bool)) (now : ℕ) (name : String) (db : Database) :
    (ms.foldl (x.mark name now) db).rows = db.rows := by
  induction ms generalizing db with
  | nil => rfl
  | cons m ms ih => exact ih (x.mark name now db m)

/-- What is not recorded keeps its version. -/
theorem record_marks {ms : List (String × List String × Bool)} {now : ℕ} {name t h : String}
    (hms : ∀ m ∈ ms, (t, h) ≠ (name, x.computePkHash m.2.1)) : (ms.foldl (x.mark name now) db).record t h = db.record t h := by
  induction ms generalizing db with
  | nil => rfl
  | cons m ms ih =>
      rw [List.foldl_cons, ih fun m' hm' => hms m' (List.mem_cons_of_mem _ hm'), record_mark, if_neg (hms m List.mem_cons_self)]

/-- **The last record of a key counts.** -/
theorem marked_of_last {ms : List (String × List String × Bool)} {now : ℕ} {name h : String} {d : Bool}
    (hlast : ((ms.filter fun m => x.computePkHash m.2.1 = h).getLast?).map (fun m => m.2.2) = some d) :
    Marked db (ms.foldl (x.mark name now) db) name h d := by
  have hgrow : ∀ (ms : List (String × List String × Bool)) (v : RowVersion), db.readVersion name h = some v →
      db.nextSeq ≤ (ms.foldl (x.mark name now) db).nextSeq ∧
        ∃ v', (ms.foldl (x.mark name now) db).readVersion name h = some v' ∧ v.version ≤ v'.version := by
    intro ms v hv
    induction ms using List.reverseRecOn with
    | nil => exact ⟨le_refl _, v, hv, le_refl _⟩
    | append_singleton ms m ih =>
        obtain ⟨hseq, v', hv', hle⟩ := ih
        rw [List.foldl_append, List.foldl_cons, List.foldl_nil]
        refine ⟨hseq.trans (Nat.le_succ _), ?_⟩
        rw [Setting.mark, Database.recordChange, Database.readVersion_writeVersion]
        split
        · next heq =>
            obtain ⟨-, hhash⟩ := Prod.ext_iff.mp heq
            dsimp only at hhash
            exact ⟨_, rfl, hle.trans (Database.lt_nextVersion (hhash ▸ hv')).le⟩
        · exact ⟨v', hv', hle⟩
  have hseq : ∀ ms : List (String × List String × Bool), db.nextSeq ≤ (ms.foldl (x.mark name now) db).nextSeq := by
    intro ms
    induction ms using List.reverseRecOn with
    | nil => exact le_refl _
    | append_singleton ms m ih =>
        rw [List.foldl_append]
        exact ih.trans (Nat.le_succ _)
  induction ms using List.reverseRecOn with
  | nil => cases hlast
  | append_singleton ms m ih =>
      rw [List.filter_append] at hlast
      rw [List.foldl_append, List.foldl_cons, List.foldl_nil]
      by_cases hm : x.computePkHash m.2.1 = h
      · rw [List.filter_singleton, decide_eq_true hm, cond_true, List.getLast?_append] at hlast
        have hd : m.2.2 = d := by simpa using hlast
        refine ⟨_, by rw [record_mark, if_pos (by rw [hm])], hd, rfl, hseq ms, Nat.lt_succ_self _, fun v hv => ?_⟩
        obtain ⟨-, v', hv', hle⟩ := hgrow ms v hv
        rw [hm]
        exact hle.trans_lt (Database.lt_nextVersion hv')
      · rw [List.filter_singleton, decide_eq_false hm, cond_false, List.append_nil] at hlast
        obtain ⟨r, hr, hdel, hvia, hfrom, hto, hversion⟩ := ih hlast
        refine ⟨r, ?_, hdel, hvia, hfrom, hto.trans (Nat.lt_succ_self _), hversion⟩
        rw [record_mark, if_neg]
        · exact hr
        · intro heq
          exact hm (Prod.ext_iff.mp heq).2.symm

theorem marked_of_forall {ms : List (String × List String × Bool)} {now : ℕ} {name h : String} {d : Bool}
    (hsome : ∃ m ∈ ms, x.computePkHash m.2.1 = h) (hall : ∀ m ∈ ms, x.computePkHash m.2.1 = h → m.2.2 = d) :
    Marked db (ms.foldl (x.mark name now) db) name h d := by
  refine marked_of_last ?_
  obtain ⟨m, hm, hh⟩ := hsome
  have hne : ms.filter (fun m => x.computePkHash m.2.1 = h) ≠ [] := List.ne_nil_of_mem (List.mem_filter.mpr ⟨hm, by simpa using hh⟩)
  obtain ⟨hmem, hhit⟩ := List.mem_filter.mp (List.getLast_mem hne)
  rw [List.getLast?_eq_some_getLast hne, Option.map_some, hall _ hmem (by simpa using hhit)]

theorem mem_marks {triggers : List Trigger} {name : String} {effect : Effect} {m : String × List String × Bool} :
    m ∈ marks triggers name effect ↔
      ∃ t ∈ triggers, (t.legacy = false ∧ t.table = name) ∧ t.nodeId = m.1 ∧ m.2 ∈ t.fires effect := by
  simp only [marks, List.mem_flatMap, List.mem_filter, Bool.and_eq_true, Bool.not_eq_true', decide_eq_true_eq, List.mem_map]
  constructor
  · rintro ⟨t, ⟨ht, hname⟩, e, he, rfl⟩
    exact ⟨t, ht, hname, rfl, he⟩
  · rintro ⟨t, ht, hname, hnode, he⟩
    exact ⟨t, ⟨ht, hname⟩, m.2, he, Prod.ext hnode rfl⟩

/-- The triggers on an update record the new key last. -/
theorem marks_updated (triggers : List Trigger) (name : String) (key newKey : List String) (old new : Row) :
    marks triggers name (.updated key newKey old new) = [] ∨
      ∃ pre node, marks triggers name (.updated key newKey old new) = pre ++ [(node, newKey, false)] := by
  rw [marks]
  induction triggers.filter fun t => !t.legacy && t.table = name with
  | nil => exact .inl rfl
  | cons t rest ih =>
      rw [List.flatMap_cons]
      rcases ih with hnil | ⟨pre, node, hrest⟩
      · rw [hnil, List.append_nil]
        cases hkind : t.kind with
        | insert => simp [Trigger.fires, hkind]
        | delete => simp [Trigger.fires, hkind]
        | update =>
            simp only [Trigger.fires, hkind]
            split
            · exact .inl rfl
            · exact .inr ⟨(if t.pk.all fun c => old.value c = new.value c then [] else [(key, true)]).map fun mark => (t.nodeId, mark), t.nodeId,
                List.map_append⟩
      · exact .inr ⟨_, node, by rw [hrest, ← List.append_assoc]⟩

/-! ### What a statement does to the rows -/

/-- What a statement of the application leaves: the registry as it was, and rows in step with its effect. -/
structure Done (x : Setting) (db : Database) (table : TableInfo) (change : Change) (db' : Database) (effect : Effect) : Prop where
  registry : db'.registry = db.registry
  nextSeq : db'.nextSeq = db.nextSeq
  /-- A row that is new is what the effect says. -/
  appears : ∀ id, (db'.selectRow id).isSome = true → (db.selectRow id).isSome = true ∨
    (∃ key, effect = .inserted key ∧ id = ⟨table.name, key⟩) ∨
      ∃ key newKey old new, effect = .updated key newKey old new ∧ newKey ≠ key ∧ id = ⟨table.name, newKey⟩
  /-- A key that is left has no row. -/
  leaves : (∀ key, effect = .deleted key → db'.selectRow ⟨table.name, key⟩ = none) ∧
    ∀ key newKey old new, effect = .updated key newKey old new → newKey ≠ key →
      db'.selectRow ⟨table.name, key⟩ = none ∧ ∃ c ∈ table.pk, old.value c ≠ new.value c
  change : match change with
    | .insert key _ => effect = .inserted key
    | .delete key => effect = .deleted key
    | .update key newKey row => ∃ old, db.selectRow ⟨table.name, key⟩ = some old ∧
        effect = .updated key newKey old (updated table key newKey old row)

theorem done_of_statement {change : Change} {effect : Effect} (h : x.statement db table change = some (db', effect)) :
    Done x db table change db' effect := by
  cases change with
  | insert key row =>
      obtain ⟨db₁, hinsert, heq⟩ := Option.map_eq_some_iff.mp h
      cases heq
      have hok : insertRow x.schema db table key row = .ok db' := by
        cases hrun : insertRow x.schema db table key row with
        | error e => rw [hrun] at hinsert; cases hinsert
        | ok db₂ => rw [hrun] at hinsert; cases hinsert; rfl
      obtain ⟨hreg, hseq⟩ := insertRow_registry hok
      refine ⟨hreg, hseq, fun id hid => ?_, ⟨nofun, nofun⟩, rfl⟩
      rw [insertRow_selectRow hok] at hid
      split at hid
      · next heq => exact .inr (.inl ⟨key, rfl, heq⟩)
      · exact .inl hid
  | delete key =>
      rw [Setting.statement] at h
      split at h
      · cases h
        refine ⟨rfl, rfl, fun id hid => .inl ?_, ⟨?_, nofun⟩, rfl⟩
        · cases hold : db.selectRow id with
          | none =>
              rw [deleteRow_selectRow_none hold] at hid
              cases hid
          | some _ => rfl
        · rintro key' ⟨⟩
          exact deleteRow_selectRow_self
      · cases h
  | update key newKey row =>
      obtain ⟨old, hold, h⟩ := Option.bind_eq_some_iff.mp h
      obtain ⟨db₁, hrun, heq⟩ := Option.map_eq_some_iff.mp h
      cases heq
      split at hrun
      · next hkey =>
          subst hkey
          have hok : updateRow x.schema db table newKey row = .ok db' := by
            cases hupdate : updateRow x.schema db table newKey row with
            | error e => rw [hupdate] at hrun; cases hrun
            | ok db₂ => rw [hupdate] at hrun; cases hrun; rfl
          obtain ⟨hreg, hseq⟩ := updateRow_registry hok
          refine ⟨hreg, hseq, fun id hid => .inl ?_, ⟨nofun, ?_⟩, old, hold, rfl⟩
          · rw [updateRow_selectRow hok] at hid
            split at hid
            · rwa [Option.isSome_map] at hid
            · exact hid
          · rintro _ _ _ _ ⟨⟩ hne
            exact absurd rfl hne
      · next hkey =>
          rw [Setting.rekey] at hrun
          split at hrun
          · cases hrun
          · next hfree =>
              split at hrun
              · cases hrun
              · cases hrun
                have hdiffers : ∃ c ∈ table.pk, old.value c ≠ row.value c := by
                  by_contra hsame
                  push Not at hsame
                  exact hfree (Bool.or_eq_true_iff.mpr (.inr (List.all_eq_true.mpr fun c hc => decide_eq_true (hsame c hc))))
                have hselect : ∀ id, ({ db with rows := (db.rows.erase ⟨table.name, key⟩).insert ⟨table.name, newKey⟩ row } : Database).selectRow id =
                    if id = ⟨table.name, newKey⟩ then some row else if id = ⟨table.name, key⟩ then none else db.selectRow id := by
                  intro id
                  rw [Database.selectRow, Table.lookup_insert_of]
                  split
                  · rfl
                  · split
                    · next heq => rw [heq, AList.lookup_erase]
                    · next hne => rw [AList.lookup_erase_ne hne]; rfl
                refine ⟨rfl, rfl, fun id hid => ?_, ⟨nofun, ?_⟩, old, hold, rfl⟩
                · rw [hselect] at hid
                  split at hid
                  · next heq => exact .inr (.inr ⟨key, newKey, old, _, rfl, hkey, heq⟩)
                  · split at hid
                    · cases hid
                    · exact .inl hid
                · rintro _ _ _ _ ⟨⟩ hne
                  rw [updated, if_neg hkey]
                  refine ⟨?_, hdiffers⟩
                  rw [hselect, if_neg (by simpa using Ne.symm hne), if_pos rfl]

/-! ### What each step keeps of a table -/

theorem record_mono {ms : List (String × List String × Bool)} {now : ℕ} {name t h : String} (hsome : (db.record t h).isSome = true) :
    ((ms.foldl (x.mark name now) db).record t h).isSome = true := by
  refine foldl_invariant (P := fun db : Database => (db.record t h).isSome = true) (fun db m _ hdb => ?_) hsome
  rw [record_mark]
  split
  · rfl
  · exact hdb

/-- An insert marks its row's key, and a deletion the one that goes. -/
theorem inserted_marked {triggers : List Trigger} (hcovered : ∀ kind, ∃ t ∈ triggers, t.kind = kind ∧ t.Covers table) (key : List String)
    (now : ℕ) (db : Database) : Marked db (x.fire triggers db table.name (.inserted key) now) table.name (x.computePkHash key) false := by
  obtain ⟨t, ht, hkind, hcovers⟩ := hcovered .insert
  refine marked_of_forall ⟨(t.nodeId, key, false), mem_marks.mpr ⟨t, ht, ⟨hcovers.legacy, hcovers.name⟩, rfl, ?_⟩, rfl⟩ ?_
  · simp [Trigger.fires, hkind]
  · intro m hm _
    obtain ⟨t', -, -, -, hfires⟩ := mem_marks.mp hm
    cases hk : t'.kind <;> simp [Trigger.fires, hk] at hfires
    rw [hfires]

theorem deleted_marked {triggers : List Trigger} (hcovered : ∀ kind, ∃ t ∈ triggers, t.kind = kind ∧ t.Covers table) (key : List String)
    (now : ℕ) (db : Database) : Marked db (x.fire triggers db table.name (.deleted key) now) table.name (x.computePkHash key) true := by
  obtain ⟨t, ht, hkind, hcovers⟩ := hcovered .delete
  refine marked_of_forall ⟨(t.nodeId, key, true), mem_marks.mpr ⟨t, ht, ⟨hcovers.legacy, hcovers.name⟩, rfl, ?_⟩, rfl⟩ ?_
  · simp [Trigger.fires, hkind]
  · intro m hm _
    obtain ⟨t', -, -, -, hfires⟩ := mem_marks.mp hm
    cases hk : t'.kind <;> simp [Trigger.fires, hk] at hfires
    rw [hfires]

/-- An update that some trigger sees marks the row's key. -/
theorem updated_marked {triggers : List Trigger} {name : String} {key newKey : List String} {old new : Row} (now : ℕ) (db : Database)
    {t : Trigger} (ht : t ∈ triggers) (hlegacy : t.legacy = false) (hname : t.table = name) (hkind : t.kind = .update)
    (hseen : ∃ c ∈ t.columns, old.value c ≠ new.value c) :
    Marked db (x.fire triggers db name (.updated key newKey old new) now) name (x.computePkHash newKey) false := by
  rw [Setting.fire]
  refine marked_of_last ?_
  rcases marks_updated triggers name key newKey old new with hnil | ⟨pre, node, hlast⟩
  · exfalso
    obtain ⟨c, hc, hne⟩ := hseen
    have hmark : (t.nodeId, newKey, false) ∈ marks triggers name (.updated key newKey old new) := by
      refine mem_marks.mpr ⟨t, ht, ⟨hlegacy, hname⟩, rfl, ?_⟩
      have hchanged : ¬ (t.columns.all fun c => old.value c = new.value c) = true := by
        intro hall
        exact hne (by simpa using List.all_eq_true.mp hall c hc)
      simp [Trigger.fires, hkind, hchanged]
    rw [hnil] at hmark
    cases hmark
  · rw [hlast, List.filter_append]
    simp

/-- The key that is left is marked as deleted, where the hashes of the two keys differ. -/
theorem left_marked {triggers : List Trigger} (hcovered : ∀ kind, ∃ t ∈ triggers, t.kind = kind ∧ t.Covers table) {key newKey : List String}
    {old new : Row} (now : ℕ) (db : Database) (hdiffers : ∃ c ∈ table.pk, old.value c ≠ new.value c)
    (hhash : x.computePkHash newKey ≠ x.computePkHash key) :
    Marked db (x.fire triggers db table.name (.updated key newKey old new) now) table.name (x.computePkHash key) true := by
  obtain ⟨t, ht, hkind, hcovers⟩ := hcovered .update
  obtain ⟨c, hc, hne⟩ := hdiffers
  have hchanged : ¬ (t.columns.all fun c => old.value c = new.value c) = true := by
    intro hall
    exact hne (by simpa using List.all_eq_true.mp hall c (hcovers.columns c hc))
  have hkey : ¬ (t.pk.all fun c => old.value c = new.value c) = true := by
    intro hall
    rw [hcovers.pk] at hall
    exact hne (by simpa using List.all_eq_true.mp hall c hc)
  refine marked_of_forall ⟨(t.nodeId, key, true), mem_marks.mpr ⟨t, ht, ⟨hcovers.legacy, hcovers.name⟩, rfl, ?_⟩, rfl⟩ ?_
  · simp [Trigger.fires, hkind, hchanged, hkey]
  · intro m hm hhit
    obtain ⟨t', -, -, -, hfires⟩ := mem_marks.mp hm
    cases hk : t'.kind with
    | insert => simp [Trigger.fires, hk] at hfires
    | delete => simp [Trigger.fires, hk] at hfires
    | update =>
        simp only [Trigger.fires, hk] at hfires
        split at hfires
        · cases hfires
        · rcases List.mem_append.mp hfires with hold | hnew
          · split at hold
            · cases hold
            · rw [List.mem_singleton.mp hold]
          · rw [List.mem_singleton.mp hnew] at hhit
            exact absurd hhit hhash

theorem Marked.isSome {hash : String} {d : Bool} {name : String} (h : Marked db db' name hash d) : (db'.record name hash).isSome = true := by
  obtain ⟨r, hr, -⟩ := h
  rw [hr]
  rfl

theorem selectRow_fire (triggers : List Trigger) (db : Database) (name : String) (effect : Effect) (now : ℕ) (id : RowId) :
    (x.fire triggers db name effect now).selectRow id = db.selectRow id := by
  rw [Setting.fire, Database.selectRow, rows_marks]
  rfl

theorem record_congr (h : db'.registry = db.registry) (t k : String) : db'.record t k = db.record t k := by
  rw [Database.record, h]
  rfl

/-- A change of the application in a covered table gives the row a version. -/
theorem recorded_write {change : Change} {effect : Effect} {now : ℕ} (hdone : Done x db table change db' effect)
    (hsame : table.name = T.name → table = T) (hcovered : ∀ kind, ∃ t ∈ s.triggers, t.kind = kind ∧ t.Covers T) (h : Recorded x db T) :
    Recorded x (x.fire s.triggers db' table.name effect now) T := by
  intro key hkey
  rw [selectRow_fire] at hkey
  rcases hdone.appears _ hkey with hold | ⟨key', rfl, heq⟩ | ⟨key', newKey, old, new, rfl, hne, heq⟩
  · refine record_mono ?_
    rw [record_congr hdone.registry]
    exact h key hold
  · obtain ⟨hname, rfl⟩ := RowId.mk.inj heq
    obtain rfl := hsame hname.symm
    exact (inserted_marked hcovered key now db').isSome
  · obtain ⟨hname, rfl⟩ := RowId.mk.inj heq
    obtain rfl := hsame hname.symm
    obtain ⟨t, ht, hkind, hcovers⟩ := hcovered .update
    obtain ⟨c, hc, hdiffers⟩ := (hdone.leaves.2 key' key old new rfl hne).2
    exact (updated_marked now db' ht hcovers.legacy hcovers.name hkind ⟨c, hcovers.columns c hc, hdiffers⟩).isSome

/-- It leaves no row of a covered table with a version as deleted. -/
theorem live_write {change : Change} {effect : Effect} {now : ℕ} (hdone : Done x db table change db' effect)
    (hsame : table.name = T.name → table = T) (hcovered : ∀ kind, ∃ t ∈ s.triggers, t.kind = kind ∧ t.Covers T)
    (hhash : Function.Injective x.computePkHash) (h : Live x db T) : Live x (x.fire s.triggers db' table.name effect now) T := by
  intro key hkey r hr
  rw [selectRow_fire] at hkey
  by_cases hhit : table = T ∧ ∃ m ∈ marks s.triggers table.name effect, m.2.1 = key
  · obtain ⟨rfl, m, hm, rfl⟩ := hhit
    -- a record that is marked as live is live
    have hlive : Marked db' (x.fire s.triggers db' table.name effect now) table.name (x.computePkHash m.2.1) false → r.deleted = false := by
      rintro ⟨r', hr', hdel, -⟩
      rw [hr'] at hr
      obtain rfl := Option.some.inj hr
      exact hdel
    obtain ⟨t, ht, ⟨hlegacy, hname⟩, -, hfires⟩ := mem_marks.mp hm
    cases effect with
    | inserted key' =>
        cases hk : t.kind <;> simp [Trigger.fires, hk] at hfires
        rw [hfires] at hlive
        exact hlive (inserted_marked hcovered key' now db')
    | deleted key' =>
        cases hk : t.kind <;> simp [Trigger.fires, hk] at hfires
        rw [hfires, hdone.leaves.1 key' rfl] at hkey
        cases hkey
    | updated key' newKey old new =>
        cases hk : t.kind with
        | insert => simp [Trigger.fires, hk] at hfires
        | delete => simp [Trigger.fires, hk] at hfires
        | update =>
            simp only [Trigger.fires, hk] at hfires
            split at hfires
            · cases hfires
            · next hchanged =>
                have hseen : ∃ c ∈ t.columns, old.value c ≠ new.value c := by
                  by_contra hnone
                  push Not at hnone
                  exact hchanged (List.all_eq_true.mpr fun c hc => by simpa using hnone c hc)
                have hmarked : Marked db' (x.fire s.triggers db' table.name (.updated key' newKey old new) now) table.name
                    (x.computePkHash newKey) false := updated_marked now db' ht hlegacy hname hk hseen
                by_cases hsameKey : m.2.1 = newKey
                · rw [hsameKey] at hlive
                  exact hlive hmarked
                · have hleft : m.2.1 = key' := by
                    rcases List.mem_append.mp hfires with hold | hnew
                    · split at hold
                      · cases hold
                      · rw [List.mem_singleton.mp hold]
                    · exact absurd (by rw [List.mem_singleton.mp hnew]) hsameKey
                  rw [hleft] at hkey hsameKey
                  rw [(hdone.leaves.2 key' newKey old new rfl (Ne.symm hsameKey)).1] at hkey
                  cases hkey
  · -- a key that is not recorded has the version it had, and its row was there
    have hsamerecord : (x.fire s.triggers db' table.name effect now).record T.name (x.computePkHash key) =
        db.record T.name (x.computePkHash key) := by
      rw [Setting.fire, record_marks, record_congr hdone.registry]
      intro m hm heq
      obtain ⟨hname, hkeyhash⟩ := Prod.ext_iff.mp heq
      exact hhit ⟨hsame hname.symm, m, hm, (hhash hkeyhash).symm⟩
    rw [hsamerecord] at hr
    refine h key ?_ r hr
    rcases hdone.appears _ hkey with hold | ⟨key', rfl, heq⟩ | ⟨key', newKey, old, new, rfl, hne, heq⟩
    · exact hold
    · exfalso
      obtain ⟨hname, rfl⟩ := RowId.mk.inj heq
      obtain rfl := hsame hname.symm
      obtain ⟨t, ht, hkind, hcovers⟩ := hcovered .insert
      exact hhit ⟨rfl, (t.nodeId, key, false), mem_marks.mpr ⟨t, ht, ⟨hcovers.legacy, hcovers.name⟩, rfl, by simp [Trigger.fires, hkind]⟩, rfl⟩
    · exfalso
      obtain ⟨hname, rfl⟩ := RowId.mk.inj heq
      obtain rfl := hsame hname.symm
      obtain ⟨t, ht, hkind, hcovers⟩ := hcovered .update
      obtain ⟨c, hc, hdiffers⟩ := (hdone.leaves.2 key' key old new rfl hne).2
      have hchanged : ¬ (t.columns.all fun c => old.value c = new.value c) = true := by
        intro hall
        exact hdiffers (by simpa using List.all_eq_true.mp hall c (hcovers.columns c hc))
      exact hhit ⟨rfl, (t.nodeId, key, false), mem_marks.mpr ⟨t, ht, ⟨hcovers.legacy, hcovers.name⟩, rfl,
        by simp [Trigger.fires, hkind, hchanged]⟩, rfl⟩

/-- What comes with a row that was received. -/
theorem kept_store {key : List String} {row : Option Row} {version : ℕ} {origin : String} {via : Option String}
    (hstore : x.store db table key row = some db') :
    (Recorded x db T → Recorded x (db'.writeVersion table.name (x.computePkHash key) key version origin row.isNone via) T) ∧
      (Function.Injective x.computePkHash → Live x db T →
        Live x (db'.writeVersion table.name (x.computePkHash key) key version origin row.isNone via) T) := by
  -- only the row of this key may be new, and it is gone after a deletion
  have hrows : db'.registry = db.registry ∧ (∀ id, (db'.selectRow id).isSome = true → (db.selectRow id).isSome = true ∨ id = ⟨table.name, key⟩) ∧
      (row = none → db'.selectRow ⟨table.name, key⟩ = none) := by
    unfold Setting.store at hstore
    split at hstore
    · cases hstore
      refine ⟨rfl, fun id hid => .inl ?_, fun _ => deleteRow_selectRow_self⟩
      cases hold : db.selectRow id with
      | none =>
          rw [deleteRow_selectRow_none hold] at hid
          cases hid
      | some _ => rfl
    · next new _ =>
        have hok : insertRow x.schema db table key new = .ok db' := by
          cases hrun : insertRow x.schema db table key new with
          | error e => rw [hrun] at hstore; cases hstore
          | ok db₂ => rw [hrun] at hstore; cases hstore; rfl
        refine ⟨(insertRow_registry hok).1, fun id hid => ?_, nofun⟩
        rw [insertRow_selectRow hok] at hid
        split at hid
        · next heq => exact .inr heq
        · exact .inl hid
    · next new _ _ =>
        have hok : updateRow x.schema db table key new = .ok db' := by
          cases hrun : updateRow x.schema db table key new with
          | error e => rw [hrun] at hstore; cases hstore
          | ok db₂ => rw [hrun] at hstore; cases hstore; rfl
        refine ⟨(updateRow_registry hok).1, fun id hid => ?_, nofun⟩
        rw [updateRow_selectRow hok] at hid
        split at hid
        · next heq => exact .inr heq
        · exact .inl hid
  obtain ⟨hregistry, happears, hgone⟩ := hrows
  constructor
  · intro h k hk
    rw [Database.record_writeVersion]
    split
    · rfl
    · next hother =>
        rw [record_congr hregistry]
        rcases happears _ hk with hold | heq
        · exact h k hold
        · obtain ⟨hname, rfl⟩ := RowId.mk.inj heq
          exact absurd (by rw [hname]) hother
  · intro hhash h k hk r hr
    rw [Database.record_writeVersion] at hr
    split at hr
    · next heq =>
        obtain ⟨hname, hkey⟩ := Prod.ext_iff.mp heq
        obtain rfl := hhash hkey
        obtain rfl := Option.some.inj hr
        cases row with
        | some _ => rfl
        | none =>
            have hnone := hgone rfl
            rw [← show T.name = table.name from hname] at hnone
            have hk' : (db'.selectRow ⟨T.name, k⟩).isSome = true := hk
            rw [hnone] at hk'
            cases hk'
    · next hother =>
        rw [record_congr hregistry] at hr
        rcases happears _ hk with hold | heq
        · exact h k hold r hr
        · obtain ⟨hname, rfl⟩ := RowId.mk.inj heq
          exact absurd (by rw [hname]) hother

/-! ### The passes -/

/-- What a pass leaves: the same rows, each version that was there, and new ones that are live. -/
structure Registered (db db' : Database) : Prop where
  rows : db'.rows = db.rows
  keeps : ∀ t h r, db.record t h = some r → db'.record t h = some r
  live : ∀ t h r, db'.record t h = some r → db.record t h = some r ∨ r.deleted = false

theorem registered_register (name nodeId : String) (version : Row → ℕ) (db : Database) (e : RowId × Row) :
    Registered db (x.register name nodeId version db e) ∧ ((x.register name nodeId version db e).record name (x.computePkHash e.1.key)).isSome = true := by
  rw [Setting.register]
  split
  · next hthere => exact ⟨⟨rfl, fun _ _ _ h => h, fun _ _ _ h => .inl h⟩, hthere⟩
  · next hnone =>
      refine ⟨⟨rfl, fun t h r hr => ?_, fun t h r hr => ?_⟩, by rw [Database.record_writeVersion, if_pos rfl]; rfl⟩
      · rw [Database.record_writeVersion, if_neg]
        · exact hr
        · intro heq
          obtain ⟨rfl, rfl⟩ := Prod.mk.inj heq
          rw [hr] at hnone
          exact hnone rfl
      · rw [Database.record_writeVersion] at hr
        split at hr
        · obtain rfl := Option.some.inj hr
          exact .inr rfl
        · exact .inl hr

theorem Registered.trans {db₁ db₂ db₃ : Database} (h : Registered db₁ db₂) (h' : Registered db₂ db₃) : Registered db₁ db₃ where
  rows := h'.rows.trans h.rows
  keeps t k r hr := h'.keeps t k r (h.keeps t k r hr)
  live := by
    intro t k r hr
    rcases h'.live t k r hr with hr | hlive
    · exact h.live t k r hr
    · exact .inr hlive

theorem registered_foldl (name nodeId : String) (version : Row → ℕ) (db : Database) (rows : List (RowId × Row)) :
    Registered db (rows.foldl (x.register name nodeId version) db) ∧
      ∀ e ∈ rows, ((rows.foldl (x.register name nodeId version) db).record name (x.computePkHash e.1.key)).isSome = true := by
  induction rows generalizing db with
  | nil => exact ⟨⟨rfl, fun _ _ _ h => h, fun _ _ _ h => .inl h⟩, nofun⟩
  | cons e rows ih =>
      obtain ⟨hone, hsome⟩ := registered_register (x := x) name nodeId version db e
      obtain ⟨hrest, hall⟩ := ih (x.register name nodeId version db e)
      refine ⟨hone.trans hrest, fun e' he' => ?_⟩
      rcases List.mem_cons.mp he' with rfl | hlater
      · obtain ⟨r, hr⟩ := Option.isSome_iff_exists.mp hsome
        rw [List.foldl_cons, hrest.keeps _ _ r hr]
        rfl
      · exact hall e' hlater

theorem Registered.kept (h : Registered db db') (T : TableInfo) : (Recorded x db T → Recorded x db' T) ∧ (Live x db T → Live x db' T) := by
  have hselect : ∀ id, db'.selectRow id = db.selectRow id := by
    intro id
    rw [Database.selectRow, h.rows]
    rfl
  constructor
  · intro hrec key hkey
    obtain ⟨r, hr⟩ := Option.isSome_iff_exists.mp (hrec key (hselect _ ▸ hkey))
    rw [h.keeps _ _ r hr]
    rfl
  · intro hlive key hkey r hr
    rcases h.live _ _ r hr with hold | hnew
    · exact hlive key (hselect _ ▸ hkey) r hold
    · exact hnew

/-- **A pass over a table registers all of its rows.** -/
theorem recorded_backfill (db : Database) (table : TableInfo) (nodeId : String) (version : Row → ℕ) :
    Registered db (x.backfill db table nodeId version) ∧ Recorded x (x.backfill db table nodeId version) table := by
  obtain ⟨hreg, hall⟩ := registered_foldl (x := x) table.name nodeId version db (db.rows.toList.filter fun e => e.1.table = table.name)
  refine ⟨hreg, fun key hkey => ?_⟩
  obtain ⟨row, hrow⟩ := Option.isSome_iff_exists.mp hkey
  rw [Database.selectRow, Setting.backfill, hreg.rows] at hrow
  exact hall (⟨table.name, key⟩, row) (List.mem_filter.mpr ⟨Table.mem_toList.mpr hrow, by simp⟩)

/-! ### The script -/

def HasAll (s : State) : Prop := ∀ t ∈ s.desired, t ∈ s.triggers

/-- What is left of the script: definitions that are missing, then the removal of others. -/
def Scripted (s : State) (left : List Sql) : Prop :=
  ∃ creates drops : List Trigger, left = creates.map .create ++ drops.map .drop ∧ (∀ t ∈ s.desired, t ∈ s.triggers ∨ t ∈ creates) ∧
    ∀ t ∈ drops, t ∉ s.desired

theorem mem_desired {t : Trigger} : t ∈ s.desired ↔ ∃ T ∈ s.catalog, t ∈ triggerDefinitions T s.nodeId := List.mem_flatMap

theorem covers_of_definition (hT : T ∈ x.tables) (kind : Kind) (nodeId : String) :
    ∃ t ∈ triggerDefinitions T nodeId, t.kind = kind ∧ t.Covers T := by
  refine ⟨⟨false, T.name, kind, T.pk, T.columns, nodeId⟩, ?_, rfl, ⟨rfl, rfl, rfl, x.keys T hT⟩⟩
  cases kind <;> simp [triggerDefinitions]

theorem covered_of_hasAll (h : HasAll s) (hcatalog : T ∈ s.catalog) (hT : T ∈ x.tables) : Covered s T := by
  intro kind
  obtain ⟨t, ht, hkind, hcovers⟩ := covers_of_definition hT kind s.nodeId
  exact ⟨t, h t (mem_desired.mpr ⟨T, hcatalog, ht⟩), hkind, hcovers⟩

theorem scripted_ensure : Scripted s (s.missing.map .create ++ s.outdated.map .drop) := by
  refine ⟨s.missing, s.outdated, rfl, fun t ht => ?_, fun t ht => ?_⟩
  · by_cases hthere : t ∈ s.triggers
    · exact .inl hthere
    · exact .inr (List.mem_filter.mpr ⟨ht, by simpa using hthere⟩)
  · simpa using (List.mem_filter.mp ht).2

theorem hasAll_of_missing (h : s.missing.isEmpty = true) : HasAll s := by
  intro t ht
  by_contra hnot
  have hmem : t ∈ s.missing := List.mem_filter.mpr ⟨ht, by simpa using hnot⟩
  rw [List.isEmpty_iff.mp h] at hmem
  cases hmem

/-- A definition of the script is made. -/
theorem Scripted.create {t : Trigger} {left : List Sql} (h : Scripted s (.create t :: left)) {s' : State}
    (htriggers : s'.triggers = s.triggers ++ [t]) (hdesired : s'.desired = s.desired) : Scripted s' left := by
  obtain ⟨creates, drops, hleft, hall, hdrops⟩ := h
  cases creates with
  | nil =>
      cases drops with
      | nil => cases hleft
      | cons d drops => cases hleft
  | cons c creates =>
      obtain ⟨heq, hrest⟩ := List.cons.inj hleft
      obtain rfl := Sql.create.inj heq
      refine ⟨creates, drops, hrest, fun t' ht' => ?_, hdesired ▸ hdrops⟩
      rw [htriggers, List.mem_append, List.mem_singleton]
      rcases hall t' (hdesired ▸ ht') with hthere | hmore
      · exact .inl (.inl hthere)
      · rcases List.mem_cons.mp hmore with rfl | hlater
        · exact .inl (.inr rfl)
        · exact .inr hlater

/-- **Nothing is removed before all is made**, and what is removed is not wanted. -/
theorem Scripted.drop {t : Trigger} {left : List Sql} (h : Scripted s (.drop t :: left)) : HasAll s ∧ t ∉ s.desired ∧
    ∀ s' : State, s'.triggers = s.triggers.filter (· ≠ t) → s'.desired = s.desired → HasAll s' ∧ Scripted s' left := by
  obtain ⟨creates, drops, hleft, hall, hdrops⟩ := h
  cases creates with
  | cons c creates => cases hleft
  | nil =>
      cases drops with
      | nil => cases hleft
      | cons d drops =>
          obtain ⟨heq, hrest⟩ := List.cons.inj hleft
          obtain rfl := Sql.drop.inj heq
          have hthere : HasAll s := fun t' ht' => (hall t' ht').resolve_right List.not_mem_nil
          have hnot : t ∉ s.desired := hdrops t List.mem_cons_self
          refine ⟨hthere, hnot, fun s' htriggers hdesired => ?_⟩
          have hthere' : HasAll s' := by
            intro t' ht'
            rw [hdesired] at ht'
            rw [htriggers, List.mem_filter]
            refine ⟨hthere t' ht', ?_⟩
            have hne : t' ≠ t := fun heq => hnot (heq ▸ ht')
            simpa using hne
          refine ⟨hthere', [], drops, hrest, fun t' ht' => .inl (hthere' t' ht'), fun t' ht' => ?_⟩
          rw [hdesired]
          exact hdrops t' (List.mem_cons_of_mem _ ht')

theorem Scripted.done (h : Scripted s []) : HasAll s := by
  obtain ⟨creates, drops, hleft, hall, -⟩ := h
  have hnone : creates = [] := by
    cases creates with
    | nil => rfl
    | cons c creates => cases hleft
  subst hnone
  exact fun t ht => (hall t ht).resolve_right List.not_mem_nil

/-! ### When capture is ready -/

variable (x) in
def Ready (s : State) : Prop := HasAll s ∧ ∀ T ∈ s.catalog, Recorded x s.db T

variable (x) in
/-- What is known in each phase. -/
def Phased (s : State) : Prop :=
  match s.phase with
  | .idle => s.captureReady = true → Ready x s
  | .before left => s.rebuilding = false ∧ ∀ T ∈ s.catalog, T ∈ left ∨ (HasAll s → Recorded x s.db T)
  | .ensure => s.rebuilding = true ∨ (HasAll s → Ready x s)
  | .script left created => Scripted s left ∧ (s.rebuilding = true ∨ created = true ∨ Ready x s)
  | .verify created => HasAll s ∧ (s.rebuilding = true ∨ created = true ∨ Ready x s)
  | .clearing => HasAll s
  | .after left => HasAll s ∧ ∀ T ∈ s.catalog, T ∈ left ∨ Recorded x s.db T

variable (x) in
structure Inv (s : State) : Prop where
  catalog : ∀ T ∈ s.catalog, T ∈ x.tables
  phased : Phased x s

/-- Two tables of one name are one. -/
theorem same_table (htable : table ∈ x.tables) (hT : T ∈ x.tables) (hname : table.name = T.name) : table = T :=
  List.inj_on_of_nodup_map x.names_nodup htable hT hname

/-- A change of the rows and versions that keeps what is registered of covered tables. -/
theorem Phased.congr (hcatalog : ∀ T ∈ s.catalog, T ∈ x.tables) (h : Phased x s) (hclear : s.phase ≠ .clearing)
    (hkeep : ∀ T ∈ s.catalog, T ∈ x.tables → Covered s T → Recorded x s.db T → Recorded x db T) : Phased x { s with db := db } := by
  have hready : Ready x s → Ready x { s with db := db } := by
    rintro ⟨hall, hrec⟩
    exact ⟨hall, fun T hT => hkeep T hT (hcatalog T hT) (covered_of_hasAll hall hT (hcatalog T hT)) (hrec T hT)⟩
  unfold Phased at h ⊢
  cases hphase : s.phase with
  | idle =>
      rw [hphase] at h
      exact fun hr => hready (h hr)
  | before left =>
      rw [hphase] at h
      refine ⟨h.1, fun T hT => (h.2 T hT).imp_right fun hrec hall => ?_⟩
      exact hkeep T hT (hcatalog T hT) (covered_of_hasAll hall hT (hcatalog T hT)) (hrec hall)
  | ensure =>
      rw [hphase] at h
      exact h.imp_right fun hr hall => hready (hr hall)
  | script left created =>
      rw [hphase] at h
      exact ⟨h.1, h.2.imp_right (Or.imp_right hready)⟩
  | verify created =>
      rw [hphase] at h
      exact ⟨h.1, h.2.imp_right (Or.imp_right hready)⟩
  | clearing => exact absurd hphase hclear
  | after left =>
      rw [hphase] at h
      refine ⟨h.1, fun T hT => (h.2 T hT).imp_right fun hrec => ?_⟩
      exact hkeep T hT (hcatalog T hT) (covered_of_hasAll h.1 hT (hcatalog T hT)) hrec

theorem phased_finish (h : Ready x s) : Phased x s.finish := fun _ => h

theorem phased_ensured {created : Bool} (h : HasAll s) (hready : s.rebuilding = true ∨ created = true ∨ Ready x s) :
    Phased x (s.ensured created) := by
  rw [State.ensured]
  split
  · exact h
  · next hnot =>
      split
      · exact ⟨h, fun T hT => .inl hT⟩
      · next hcreated => exact phased_finish ((hready.resolve_left hnot).resolve_left hcreated)

theorem catalog_ensured (s : State) (created : Bool) : (s.ensured created).catalog = s.catalog := by
  rw [State.ensured]
  split
  · rfl
  · split <;> rfl

/-- The next of the preparation's own steps. -/
theorem work_inv (h : Inv x s) {now : ℕ} (hstep : x.work s now = some s') : Inv x s' := by
  have hphased := h.phased
  unfold Phased at hphased
  unfold Setting.work at hstep
  split at hstep
  · cases hstep
  · next hphase =>
      cases hstep
      rw [hphase] at hphased
      refine ⟨h.catalog, .inr fun hall => ⟨hall, fun T hT => ?_⟩⟩
      exact ((hphased.2 T hT).resolve_left List.not_mem_nil) hall
  · next table left hphase =>
      cases hstep
      rw [hphase] at hphased
      obtain ⟨hreg, hrec⟩ := recorded_backfill (x := x) s.db table s.nodeId (x.version s now table)
      refine ⟨h.catalog, hphased.1, fun T hT => ?_⟩
      by_cases heq : T = table
      · exact .inr fun _ => heq ▸ hrec
      · rcases hphased.2 T hT with hleft | hold
        · exact .inl ((List.mem_cons.mp hleft).resolve_left heq)
        · exact .inr fun hall => (hreg.kept T).1 (hold hall)
  · next hphase =>
      rw [hphase] at hphased
      split at hstep
      · next hnothing =>
          cases hstep
          obtain ⟨hmissing, -⟩ := Bool.and_eq_true_iff.mp hnothing
          have hall := hasAll_of_missing hmissing
          exact ⟨by rw [catalog_ensured]; exact h.catalog, phased_ensured hall (hphased.imp_right fun hr => .inr (hr hall))⟩
      · cases hstep
        refine ⟨h.catalog, scripted_ensure, ?_⟩
        rcases hphased with hrebuilding | hready
        · exact .inl hrebuilding
        · cases hmissing : s.missing.isEmpty with
          | true => exact .inr (.inr (hready (hasAll_of_missing hmissing)))
          | false => exact .inr (.inl rfl)
  · next created hphase =>
      cases hstep
      rw [hphase] at hphased
      exact ⟨h.catalog, hphased.1.done, hphased.2⟩
  · next t left created hphase =>
      cases hstep
      rw [hphase] at hphased
      refine ⟨h.catalog, hphased.1.create rfl rfl, hphased.2.imp_right (Or.imp_right fun hr => ⟨fun t' ht' => ?_, hr.2⟩)⟩
      exact List.mem_append_left _ (hr.1 t' ht')
  · next t left created hphase =>
      cases hstep
      rw [hphase] at hphased
      obtain ⟨-, -, hnext⟩ := hphased.1.drop
      obtain ⟨hall, hscripted⟩ := hnext { s with triggers := s.triggers.filter (· ≠ t), phase := .script left created } rfl rfl
      exact ⟨h.catalog, hscripted, hphased.2.imp_right (Or.imp_right fun hr => ⟨hall, hr.2⟩)⟩
  · next created hphase =>
      cases hstep
      rw [hphase] at hphased
      have hmissing : s.missing.isEmpty = true := by
        rw [List.isEmpty_iff, State.missing, List.filter_eq_nil_iff]
        intro t ht
        simpa using hphased.1 t ht
      rw [if_pos hmissing]
      exact ⟨by rw [catalog_ensured]; exact h.catalog, phased_ensured hphased.1 hphased.2⟩
  · next hphase =>
      cases hstep
      rw [hphase] at hphased
      exact ⟨h.catalog, hphased, fun T hT => .inl hT⟩
  · next hphase =>
      cases hstep
      rw [hphase] at hphased
      exact ⟨h.catalog, phased_finish ⟨hphased.1, fun T hT => (hphased.2 T hT).resolve_left List.not_mem_nil⟩⟩
  · next table left hphase =>
      cases hstep
      rw [hphase] at hphased
      refine ⟨h.catalog, hphased.1, fun T hT => ?_⟩
      obtain ⟨hreg, hrec⟩ := recorded_backfill (x := x) s.db table s.nodeId (x.version s now table)
      by_cases heq : T = table
      · exact .inr (heq ▸ hrec)
      · rcases hphased.2 T hT with hleft | hold
        · exact .inl ((List.mem_cons.mp hleft).resolve_left heq)
        · exact .inr ((hreg.kept T).1 hold)

theorem statement_done {change : Change} {now : ℕ} (hstep : x.step s (.write table change now) = some s') :
    table ∈ x.tables ∧ ∃ db effect, Done x s.db table change db effect ∧
      s' = { s with db := x.fire s.triggers db table.name effect now } := by
  rw [Setting.step] at hstep
  split at hstep
  · next htable =>
      obtain ⟨done, hdone, rfl⟩ := Option.map_eq_some_iff.mp hstep
      exact ⟨htable, done.1, done.2, done_of_statement hdone, rfl⟩
  · cases hstep

/-- **Each step keeps what is known**, but a rebuild that fails while capture is ready. -/
theorem step_inv (h : Inv x s) {a : Action} (hok : a = .fail → ¬ (s.rebuilding = true ∧ s.captureReady = true))
    (hstep : x.step s a = some s') : Inv x s' := by
  cases a with
  | write table change now =>
      obtain ⟨htable, db, effect, hdone, rfl⟩ := statement_done hstep
      by_cases hclear : s.phase = .clearing
      · refine ⟨h.catalog, ?_⟩
        have hphased := h.phased
        unfold Phased at hphased ⊢
        rw [hclear] at hphased
        dsimp only
        rw [hclear]
        exact hphased
      · exact ⟨h.catalog, h.phased.congr h.catalog hclear fun T _ hT hcovered hrec =>
          recorded_write hdone (same_table htable hT) hcovered hrec⟩
  | store table key row version origin via =>
      rw [Setting.step] at hstep
      split at hstep
      · obtain ⟨db, hstore, rfl⟩ := Option.map_eq_some_iff.mp hstep
        by_cases hclear : s.phase = .clearing
        · refine ⟨h.catalog, ?_⟩
          have hphased := h.phased
          unfold Phased at hphased ⊢
          rw [hclear] at hphased
          dsimp only
          rw [hclear]
          exact hphased
        · exact ⟨h.catalog, h.phased.congr h.catalog hclear fun T _ _ _ hrec => (kept_store hstore).1 hrec⟩
      · cases hstep
  | prepare catalog nodeId =>
      rw [Setting.step] at hstep
      split at hstep
      · next hidle =>
          cases hstep
          exact ⟨hidle.2, rfl, fun T hT => .inl hT⟩
      · cases hstep
  | rebuild restored catalog nodeId =>
      rw [Setting.step] at hstep
      split at hstep
      · next hidle =>
          cases hstep
          exact ⟨hidle.2, .inl rfl⟩
      · cases hstep
  | work now => exact work_inv h hstep
  | clear table hash =>
      rw [Setting.step] at hstep
      split at hstep
      · next hclear =>
          cases hstep
          refine ⟨h.catalog, ?_⟩
          have hphased := h.phased
          unfold Phased at hphased ⊢
          rw [hclear] at hphased
          dsimp only
          rw [hclear]
          exact hphased
      · cases hstep
  | fail =>
      rw [Setting.step] at hstep
      split at hstep
      · cases hstep
      · cases hstep
        refine ⟨h.catalog, fun hready => ?_⟩
        obtain ⟨hrebuilding, hready⟩ := Bool.and_eq_true_iff.mp hready
        exact absurd ⟨hrebuilding, hready⟩ (hok rfl)

/-- **Where capture is ready, every table of the catalog is covered, and each of its rows has a version**: from any database and any
triggers, whatever the application and the applier write in between, as long as no rebuild fails while capture is ready. -/
theorem capture_ready {actions : List Action} (hidle : s.phase = .idle) (hnot : s.captureReady = false) (hempty : s.catalog = [])
    (hok : Meets x.step (fun s a => a = .fail → ¬ (s.rebuilding = true ∧ s.captureReady = true)) s actions)
    (hrun : run x.step s actions = some s') (hphase : s'.phase = .idle) (hready : s'.captureReady = true) :
    ∀ T ∈ s'.catalog, Covered s' T ∧ Recorded x s'.db T := by
  have hstart : Inv x s := by
    refine ⟨by rw [hempty]; nofun, ?_⟩
    unfold Phased
    rw [hidle]
    intro h
    rw [hnot] at h
    cases h
  have hinv := run_invariant_of_meets (fun s a s' h hok hstep => step_inv h hok hstep) hstart hok hrun
  have hphased := hinv.phased
  unfold Phased at hphased
  rw [hphase] at hphased
  obtain ⟨hall, hrec⟩ := hphased hready
  exact fun T hT => ⟨covered_of_hasAll hall hT (hinv.catalog T hT), hrec T hT⟩

/-- A table of notes, and a database whose schema asks for nothing else. -/
def notes : TableInfo where
  name := "notes"
  columns := ["id", "text"]
  pk := ["id"]
  codec := []
  uniques := []
  rank := 0
  createdAtColumn := none
  fkColumns := []
  maxLength := []

def notesSetting : Setting where
  tables := [notes]
  schema := ⟨[], fun _ _ => none⟩
  computePkHash key := String.join key
  history _ _ := 1
  names_nodup := by decide
  keys := by decide

def noteRow (id text : String) : Row := [("id", .string id), ("text", .string text)]

/-- A note from before there was any capture. -/
def bare : State where
  db := ⟨(∅ : Table RowId Row).insert ⟨"notes", ["a"]⟩ (noteRow "a" "old"), ∅, 1⟩
  triggers := []
  phase := .idle
  catalog := []
  nodeId := "n"
  rebuilding := false
  captureReady := false

/-- Capture is prepared, and a second note is written before the first trigger is there. -/
def firstRun : List Action :=
  [.prepare [notes] "n", .work 5, .work 5, .write notes (.insert ["b"] (noteRow "b" "new")) 5, .work 5, .work 5, .work 5, .work 5, .work 5,
    .work 5, .work 5, .work 5]

theorem capture_ready_first : ∃ s', run notesSetting.step bare firstRun = some s' ∧ s'.catalog = [notes] ∧
    ∀ T ∈ s'.catalog, Covered s' T ∧ Recorded notesSetting s'.db T := by
  have hend : (run notesSetting.step bare firstRun).map (fun s => (s.phase, s.captureReady, s.catalog)) = some (.idle, true, [notes]) := by
    decide +kernel
  obtain ⟨s', hrun, heq⟩ := Option.map_eq_some_iff.mp hend
  obtain ⟨hphase, heq⟩ := Prod.ext_iff.mp heq
  obtain ⟨hready, hcatalog⟩ := Prod.ext_iff.mp heq
  have hnever : ∀ a ∈ firstRun, a ≠ .fail := by
    intro a ha
    simp only [firstRun, List.mem_cons, List.not_mem_nil, or_false] at ha
    rcases ha with rfl | rfl | rfl | rfl | rfl | rfl | rfl | rfl | rfl | rfl | rfl | rfl <;> nofun
  have hmeets : Meets notesSetting.step (fun _ a => a ≠ .fail) bare firstRun := Meets.of_forall hnever
  exact ⟨s', hrun, hcatalog, capture_ready rfl rfl rfl (hmeets.imp fun _ _ hne heq => absurd heq hne) hrun hphase hready⟩

/-- **A rebuild that fails**: versions are gone, and capture is still ready. -/
theorem rebuild_broken_off :
    ∃ s', run notesSetting.step bare (firstRun ++ [.rebuild false [notes] "n", .work 6, .clear "notes" "a", .fail]) = some s' ∧
      s'.phase = .idle ∧ s'.captureReady = true ∧ ¬ Recorded notesSetting s'.db notes := by
  have hend : (run notesSetting.step bare (firstRun ++ [.rebuild false [notes] "n", .work 6, .clear "notes" "a", .fail])).map
      (fun s => (s.phase, s.captureReady, (s.db.selectRow ⟨"notes", ["a"]⟩).isSome, (s.db.record "notes" "a").isSome)) =
        some (.idle, true, true, false) := by
    decide +kernel
  obtain ⟨s', hrun, heq⟩ := Option.map_eq_some_iff.mp hend
  simp only [Prod.mk.injEq] at heq
  obtain ⟨hphase, hready, hrow, hrecord⟩ := heq
  refine ⟨s', hrun, hphase, hready, fun hrec => ?_⟩
  have hsome : (s'.db.record "notes" "a").isSome = true := hrec ["a"] hrow
  rw [hrecord] at hsome
  cases hsome

/-! ### What a covered table keeps -/

variable (x) in
/-- A table of every catalog, while its triggers are replaced. -/
structure Kept (T : TableInfo) (s : State) : Prop where
  covered : Covered s T
  live : Live x s.db T
  catalog : s.phase ≠ .idle → T ∈ s.catalog
  script : ∀ left created, s.phase = .script left created → Scripted s left

/-- The catalogs that are loaded have the table. -/
def Keeps (T : TableInfo) : Action → Prop
  | .prepare catalog _ | .rebuild _ catalog _ => T ∈ catalog
  | _ => True

theorem kept_finish {created : Bool} (hcovered : Covered s T) (hlive : Live x s.db T) (hcatalog : T ∈ s.catalog) :
    Kept x T (s.ensured created) := by
  rw [State.ensured]
  split
  · exact ⟨hcovered, hlive, fun _ => hcatalog, nofun⟩
  · split
    · exact ⟨hcovered, hlive, fun _ => hcatalog, nofun⟩
    · exact ⟨hcovered, hlive, fun hne => absurd rfl hne, nofun⟩

theorem work_kept (hT : T ∈ x.tables) (h : Kept x T s) {now : ℕ} (hstep : x.work s now = some s') : Kept x T s' := by
  have hcatalog : s.phase ≠ .idle → T ∈ s.catalog := h.catalog
  unfold Setting.work at hstep
  split at hstep
  · cases hstep
  · next hphase =>
      cases hstep
      exact ⟨h.covered, h.live, fun _ => hcatalog (by rw [hphase]; nofun), nofun⟩
  · next table left hphase =>
      cases hstep
      obtain ⟨hreg, -⟩ := recorded_backfill (x := x) s.db table s.nodeId (x.version s now table)
      exact ⟨h.covered, (hreg.kept T).2 h.live, fun _ => hcatalog (by rw [hphase]; nofun), nofun⟩
  · next hphase =>
      have hmem := hcatalog (by rw [hphase]; nofun)
      split at hstep
      · cases hstep
        exact kept_finish h.covered h.live hmem
      · cases hstep
        refine ⟨h.covered, h.live, fun _ => hmem, fun left created heq => ?_⟩
        obtain ⟨rfl, -⟩ := Phase.script.inj heq
        exact scripted_ensure
  · next created hphase =>
      cases hstep
      exact ⟨h.covered, h.live, fun _ => hcatalog (by rw [hphase]; nofun), nofun⟩
  · next t left created hphase =>
      cases hstep
      refine ⟨fun kind => ?_, h.live, fun _ => hcatalog (by rw [hphase]; nofun), fun left' created' heq => ?_⟩
      · obtain ⟨t', ht', hcovers⟩ := h.covered kind
        exact ⟨t', List.mem_append_left _ ht', hcovers⟩
      · obtain ⟨rfl, -⟩ := Phase.script.inj heq
        exact (h.script _ created hphase).create rfl rfl
  · next t left created hphase =>
      cases hstep
      have hmem := hcatalog (by rw [hphase]; nofun)
      obtain ⟨-, -, hnext⟩ := (h.script _ created hphase).drop
      obtain ⟨hall, hscripted⟩ := hnext { s with triggers := s.triggers.filter (· ≠ t), phase := .script left created } rfl rfl
      refine ⟨covered_of_hasAll hall hmem hT, h.live, fun _ => hmem, fun left' created' heq => ?_⟩
      obtain ⟨rfl, -⟩ := Phase.script.inj heq
      exact hscripted
  · next created hphase =>
      cases hstep
      have hmem := hcatalog (by rw [hphase]; nofun)
      split
      · exact kept_finish h.covered h.live hmem
      · exact ⟨h.covered, h.live, fun hne => absurd rfl hne, nofun⟩
  · next hphase =>
      cases hstep
      exact ⟨h.covered, h.live, fun _ => hcatalog (by rw [hphase]; nofun), nofun⟩
  · cases hstep
    exact ⟨h.covered, h.live, fun hne => absurd rfl hne, nofun⟩
  · next table left hphase =>
      cases hstep
      obtain ⟨hreg, -⟩ := recorded_backfill (x := x) s.db table s.nodeId (x.version s now table)
      exact ⟨h.covered, (hreg.kept T).2 h.live, fun _ => hcatalog (by rw [hphase]; nofun), nofun⟩

theorem step_kept (hT : T ∈ x.tables) (hhash : Function.Injective x.computePkHash) (h : Kept x T s) {a : Action} (ha : Keeps T a)
    (hstep : x.step s a = some s') : Kept x T s' := by
  cases a with
  | write table change now =>
      obtain ⟨htable, db, effect, hdone, rfl⟩ := statement_done hstep
      exact ⟨h.covered, live_write hdone (same_table htable hT) h.covered hhash h.live, h.catalog, h.script⟩
  | store table key row version origin via =>
      rw [Setting.step] at hstep
      split at hstep
      · obtain ⟨db, hstore, rfl⟩ := Option.map_eq_some_iff.mp hstep
        exact ⟨h.covered, (kept_store hstore).2 hhash h.live, h.catalog, h.script⟩
      · cases hstep
  | prepare catalog nodeId =>
      rw [Setting.step] at hstep
      split at hstep
      · cases hstep
        refine ⟨h.covered, h.live, fun _ => ha, ?_⟩
        intro left created hphase
        cases hphase
      · cases hstep
  | rebuild restored catalog nodeId =>
      rw [Setting.step] at hstep
      split at hstep
      · cases hstep
        refine ⟨h.covered, h.live, fun _ => ha, ?_⟩
        intro left created hphase
        cases hphase
      · cases hstep
  | work now => exact work_kept hT h hstep
  | clear table hash =>
      rw [Setting.step] at hstep
      split at hstep
      · cases hstep
        refine ⟨h.covered, fun key hkey r hr => h.live key hkey r ?_, h.catalog, h.script⟩
        by_cases heq : (T.name, x.computePkHash key) = (table, hash)
        · rw [Database.record, heq, AList.lookup_erase] at hr
          cases hr
        · rw [Database.record, AList.lookup_erase_ne heq] at hr
          exact hr
      · cases hstep
  | fail =>
      rw [Setting.step] at hstep
      split at hstep
      · cases hstep
      · cases hstep
        refine ⟨h.covered, h.live, fun hne => absurd rfl hne, ?_⟩
        intro left created hphase
        cases hphase

theorem Marked.congr {db₀ : Database} (hregistry : db.registry = db₀.registry) (hseq : db.nextSeq = db₀.nextSeq) {name hash : String} {d : Bool}
    (h : Marked db db' name hash d) : Marked db₀ db' name hash d := by
  obtain ⟨r, hr, hd, hvia, hfrom, hto, hversion⟩ := h
  refine ⟨r, hr, hd, hvia, hseq ▸ hfrom, hto, fun v hv => hversion v ?_⟩
  rwa [Database.readVersion_congr hregistry]

/-- A trigger of the table sees a difference of two rows. -/
def Sees (s : State) (T : TableInfo) (old new : Row) : Prop :=
  ∃ t ∈ s.triggers, t.legacy = false ∧ t.table = T.name ∧ t.kind = .update ∧ ∃ c ∈ t.columns, old.value c ≠ new.value c

variable (x) in
/-- What a change of the application leaves of the versions: the key it is about has a newer one, and so has the one it left. -/
def Noted (s s' : State) (T : TableInfo) : Change → Prop
  | .insert key _ => Marked s.db s'.db T.name (x.computePkHash key) false
  | .delete key => Marked s.db s'.db T.name (x.computePkHash key) true
  | .update key newKey row => ∀ old, s.db.selectRow ⟨T.name, key⟩ = some old →
      (newKey ≠ key ∨ Sees s T old (updated T key newKey old row) → Marked s.db s'.db T.name (x.computePkHash newKey) false) ∧
        (newKey ≠ key → Marked s.db s'.db T.name (x.computePkHash key) true)

theorem noted_write (hcovered : Covered s T) (hhash : Function.Injective x.computePkHash) {change : Change} {now : ℕ}
    (hstep : x.step s (.write T change now) = some s') : Noted x s s' T change := by
  obtain ⟨-, db, effect, hdone, rfl⟩ := statement_done hstep
  have hchange := hdone.change
  cases change with
  | insert key row =>
      dsimp only at hchange
      subst hchange
      exact (inserted_marked hcovered key now db).congr hdone.registry hdone.nextSeq
  | delete key =>
      dsimp only at hchange
      subst hchange
      exact (deleted_marked hcovered key now db).congr hdone.registry hdone.nextSeq
  | update key newKey row =>
      obtain ⟨old, hold, heffect⟩ := hchange
      intro old' hold'
      obtain rfl := Option.some.inj (hold.symm.trans hold')
      subst heffect
      constructor
      · intro hwhy
        have hsees : Sees s T old (updated T key newKey old row) := by
          rcases hwhy with hne | hsees
          · obtain ⟨t, ht, hkind, hcovers⟩ := hcovered .update
            obtain ⟨c, hc, hdiffers⟩ := (hdone.leaves.2 key newKey old _ rfl hne).2
            exact ⟨t, ht, hcovers.legacy, hcovers.name, hkind, c, hcovers.columns c hc, hdiffers⟩
          · exact hsees
        obtain ⟨t, ht, hlegacy, hname, hkind, hseen⟩ := hsees
        exact (updated_marked now db ht hlegacy hname hkind hseen).congr hdone.registry hdone.nextSeq
      · intro hne
        have hdiffers := (hdone.leaves.2 key newKey old _ rfl hne).2
        exact (left_marked hcovered now db hdiffers fun heq => hne (hhash heq)).congr hdone.registry hdone.nextSeq

/-- A key as one text: each character behind a mark, and a stop behind each part. -/
def spelled : List String → List Char
  | [] => []
  | part :: key => part.toList.flatMap (fun c => ['x', c]) ++ '.' :: spelled key

theorem spelled_injective : Function.Injective fun key => String.ofList (spelled key) := by
  have hparts : ∀ (a b r r' : List Char), a.flatMap (fun c => ['x', c]) ++ '.' :: r = b.flatMap (fun c => ['x', c]) ++ '.' :: r' →
      a = b ∧ r = r' := by
    intro a
    induction a with
    | nil =>
        intro b r r' h
        cases b with
        | nil => exact ⟨rfl, by simpa using h⟩
        | cons c b => simp at h
    | cons c a ih =>
        intro b r r' h
        cases b with
        | nil => simp at h
        | cons d b =>
            simp only [List.flatMap_cons, List.cons_append, List.nil_append, List.cons.injEq, true_and] at h
            obtain ⟨rfl, h⟩ := h
            obtain ⟨rfl, hr⟩ := ih b r r' h
            exact ⟨rfl, hr⟩
  intro key key' h
  have hspelled : spelled key = spelled key' := String.ofList_injective h
  clear h
  induction key generalizing key' with
  | nil =>
      cases key' with
      | nil => rfl
      | cons part key' => simp [spelled] at hspelled
  | cons part key ih =>
      cases key' with
      | nil => simp [spelled] at hspelled
      | cons part' key' =>
          obtain ⟨hpart, hrest⟩ := hparts _ _ _ _ hspelled
          rw [String.toList_inj.mp hpart, ih hrest]

def spelledSetting : Setting := { notesSetting with computePkHash := fun key => String.ofList (spelled key) }

/-- No notes yet, and triggers of an identity that the node no longer has. -/
def renamed : State where
  db := ⟨∅, ∅, 1⟩
  triggers := triggerDefinitions notes "old"
  phase := .idle
  catalog := []
  nodeId := "old"
  rebuilding := false
  captureReady := false

/-- The triggers are made for the new identity while a note is written, and the script fails when one of the old ones is gone. -/
def renamedRun : List Action :=
  [.prepare [notes] "new", .work 1, .work 1, .work 1, .work 1, .write notes (.insert ["b"] (noteRow "b" "new")) 5, .work 1, .work 1, .work 1,
    .fail]

end Pokyh.Cluster.Capture

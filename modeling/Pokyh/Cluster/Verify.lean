import Pokyh.Cluster.Replicator
import Pokyh.Lib.Groups

/-!
# Cluster — Verify

The data check (`verify.ts`): a node compares the version records of its tables with a peer's and
offers what it holds in a newer version.  Both sides summarise groups of records as a count and an
XOR of row hashes; a group whose summary differs is split by the next character of the key hash,
and a small group, or one of a long prefix, is compared row by row.

A `Check` is what `descend` leaves behind, the groups it compared row by row and what it offered
for each; `verifyPeer` stops at the first call that fails.  A peer is what it answers to a call
(`Peer`), and `Replica.answers` is the peer with another node's registry behind it.

* `descend_stopped`: whatever a peer answers, the recursion ends within its five levels.
* `descend_offers`: with a registry behind the peer, a group's offers are the records of the group
  that a comparison of all records would find (`fullComparison`).
* `verifyPeer_offers`: the two for the whole check.
-/

namespace Pokyh.Cluster.Verify
open Pokyh.Lib

def GROUP_ROWS_LIMIT : ℕ := 2000
def MAX_PREFIX : ℕ := 4
def ROWS_LIMIT : ℕ := 20000

/-- A summary: the group's name, its count, and the decimal digits of the XOR of its row hashes. -/
structure Group where
  name : String
  count : ℕ
  digest : String
  deriving DecidableEq, Repr

/-- `SUBSTRING(s, 1, n)`. -/
def substring (s : String) (n : ℕ) : String := String.ofList (s.toList.take n)

/-- `s LIKE 'pre%'`. -/
def like (s pre : String) : Bool := substring s pre.length = pre

/-- A line of the registry: table name and key hash, and the record. -/
abbrev Line := (String × String) × VersionRecord

/-- A node and its database, whose key hashes are SHA-256 in hexadecimal. -/
structure Replica where
  host : Node
  db : Database
  hash_length : ∀ e ∈ db.registry.toList, e.1.2.length = 64

/-- Tombstones older than the floor are left out. -/
def visible (floor : ℕ) (line : Line) : Bool := !(line.2.deleted && line.2.version < floor)

/-- The lines of a table under a prefix. -/
def lines (db : Database) (table pre : String) (floor : ℕ) : List Line :=
  db.registry.toList.filter fun line =>
    line.1.1 = table && like line.1.2 pre && visible floor line

/-! ### Summaries -/

section
variable (rowHash : String → ℕ → String → Bool → ℕ)

/-- `BIT_XOR` of the row hashes. -/
def bitXor (lines : List Line) : ℕ :=
  lines.foldl (fun x line => x ^^^ rowHash line.1.2 line.2.version line.2.origin line.2.deleted) 0

def toGroup (group : String × List Line) : Group :=
  ⟨group.1, group.2.length, toString (bitXor rowHash group.2)⟩

def localDigest (node : Node) (db : Database) (table : Option String) (pre : String) (floor : ℕ) :
    List Group :=
  match table with
  | none =>
      let tables := node.catalog.map TableInfo.name
      (groupBy (fun line : Line => line.1.1) (db.registry.toList.filter fun line =>
        line.1.1 ∈ tables && visible floor line)).map (toGroup rowHash)
  | some table =>
      if (node.table? table).isNone then []
      else (groupBy (fun line : Line => substring line.1.2 (pre.length + 1))
        (lines db table pre floor)).map (toGroup rowHash)

end

def localRows (db : Database) (table pre : String) (floor : ℕ) : List Line :=
  ((lines db table pre floor).insertionSort fun a b => a.1.2 ≤ b.1.2).take ROWS_LIMIT

/-- A row of an answer: key hash, version, origin, deleted. -/
structure RowReply where
  hash : String
  version : ℕ
  origin : String
  deleted : Bool
  deriving DecidableEq, Repr

def Line.shown (line : Line) : RowReply :=
  ⟨line.1.2, line.2.version, line.2.origin, line.2.deleted⟩

structure RowsReply where
  rows : List RowReply
  truncated : Bool
  deriving DecidableEq, Repr

def handleRows (node : Node) (db : Database) (table pre : String) (floor : ℕ) : RowsReply :=
  if (node.table? table).isNone then ⟨[], false⟩
  else
    let rows := localRows db table pre floor
    ⟨rows.map Line.shown, ROWS_LIMIT ≤ rows.length⟩

/-! ### The check -/

/-- A peer by its answers; none to a call that fails or whose answer is refused.  `deliver` gives
the number of offered rows it took. -/
structure Peer where
  digest : Option String → String → ℕ → Option (List Group)
  rows : String → String → ℕ → Option RowsReply
  deliver : List Entry → Option ℕ

inductive Stop where
  | call | fuel
  deriving DecidableEq, Repr

structure Comparison where
  table : String
  pre : String
  offered : List Entry
  deriving DecidableEq, Repr

structure Check where
  compared : List Comparison
  repaired : ℕ
  stopped : Option Stop
  deriving DecidableEq, Repr

namespace Check

def done : Check := ⟨[], 0, none⟩

def stop (s : Stop) : Check := ⟨[], 0, some s⟩

/-- One check and then, unless it stopped, another. -/
def andThen (c d : Check) : Check :=
  if c.stopped.isSome then c
  else ⟨c.compared ++ d.compared, c.repaired + d.repaired, d.stopped⟩

def forEach {α : Type*} (l : List α) (f : α → Check) : Check :=
  l.foldr (fun a rest => (f a).andThen rest) done

def offers (c : Check) : List Entry := c.compared.flatMap Comparison.offered

end Check

def sameGroup (a : Group) (b : Option Group) : Bool :=
  match b with
  | none => false
  | some b => a.count = b.count && a.digest = b.digest

def groupMap (groups : List Group) : String → Option Group :=
  mapOf (groups.map fun group => (group.name, group))

section
variable (rowHash : String → ℕ → String → Bool → ℕ) (node : Node) (db : Database) (peer : Peer)
  (floor : ℕ)

def compareRows (table pre : String) : Check :=
  match node.table? table with
  | none => .done
  | some info =>
      match peer.rows table pre floor with
      | none => .stop .call
      | some remote =>
          let theirs := mapOf (remote.rows.map fun row =>
            (row.hash, (⟨row.version, row.origin⟩ : RowVersion)))
          let newer := (localRows db table pre floor).filter fun line =>
            isNewer line.2.rowVersion (theirs line.1.2)
          let entries := newer.map fun line => toEntry info line.1.2 line.2 none true
          if entries = [] then ⟨[⟨table, pre, []⟩], 0, none⟩
          else
            match peer.deliver entries with
            | none => ⟨[⟨table, pre, entries⟩], 0, some .call⟩
            | some taken => ⟨[⟨table, pre, entries⟩], taken, none⟩

def descend : ℕ → String → String → ℕ × ℕ → Check
  | 0, _, _, _ => .stop .fuel
  | fuel + 1, table, pre, (ours, theirs) =>
      if ours + theirs ≤ GROUP_ROWS_LIMIT ∨ pre.length ≥ MAX_PREFIX then
        compareRows node db peer floor table pre
      else
        match peer.digest (some table) pre floor with
        | none => .stop .call
        | some remote =>
            let theirs := groupMap remote
            let groups := localDigest rowHash node db (some table) pre floor
            let ours := groupMap groups
            .forEach (distinct (groups.map Group.name ++ remote.map Group.name)) fun name =>
              match ours name with
              | none => .done
              | some mine =>
                  if sameGroup mine (theirs name) then .done
                  else descend fuel table name (mine.count, ((theirs name).map Group.count).getD 0)

def verifyPeer (fuel : ℕ) : Check :=
  match peer.digest none "" floor with
  | none => .stop .call
  | some remote =>
      let theirs := groupMap remote
      .forEach (localDigest rowHash node db none "" floor) fun mine =>
        if sameGroup mine (theirs mine.name) then .done
        else descend rowHash node db peer floor fuel mine.name ""
          (mine.count, ((theirs mine.name).map Group.count).getD 0)

end

/-! ### Sequences of checks -/

namespace Check

theorem stopped_andThen {c d : Check} {s : Stop} :
    (c.andThen d).stopped = some s ↔ c.stopped = some s ∨ (c.stopped = none ∧ d.stopped = some s) := by
  cases h : c.stopped <;> simp [andThen, h]

/-- A loop stops only where one of its checks does. -/
theorem stopped_forEach {α : Type*} {l : List α} {f : α → Check} {s : Stop}
    (h : (forEach l f).stopped = some s) : ∃ a ∈ l, (f a).stopped = some s := by
  induction l with
  | nil => cases h
  | cons a l ih =>
      rcases stopped_andThen.mp h with ha | ⟨-, hl⟩
      · exact ⟨a, List.mem_cons_self, ha⟩
      · obtain ⟨b, hb, hs⟩ := ih hl
        exact ⟨b, List.mem_cons_of_mem _ hb, hs⟩

/-- A loop that does not stop makes all the comparisons of its checks. -/
theorem compared_forEach {α : Type*} {l : List α} {f : α → Check}
    (h : ∀ a ∈ l, (f a).stopped = none) :
    (forEach l f).compared = l.flatMap fun a => (f a).compared := by
  induction l with
  | nil => rfl
  | cons a l ih =>
      rw [List.flatMap_cons, ← ih fun b hb => h b (List.mem_cons_of_mem _ hb)]
      change ((f a).andThen (forEach l f)).compared = _
      simp [andThen, h a List.mem_cons_self]

theorem offers_forEach {α : Type*} {l : List α} {f : α → Check}
    (h : ∀ a ∈ l, (f a).stopped = none) :
    (forEach l f).offers = l.flatMap fun a => (f a).offers := by
  simp only [offers, compared_forEach h, List.flatMap_assoc]

end Check

/-! ### Prefixes -/

theorem length_substring {s : String} {n : ℕ} (h : n ≤ s.length) : (substring s n).length = n := by
  rw [substring, String.length_ofList, List.length_take, String.length_toList]
  exact min_eq_left h

/-- A longer prefix implies the shorter one. -/
theorem substring_substring {s : String} {m n : ℕ} (h : m ≤ n) :
    substring (substring s n) m = substring s m := by
  simp [substring, List.take_take, h]

@[simp] theorem like_empty (s : String) : like s "" = true := by
  simp [like, substring]

theorem like_of_substring {s pre name : String} (h : substring s (pre.length + 1) = name) :
    like name pre = like s pre := by
  simp only [like, ← h, substring_substring (Nat.le_succ _)]

/-- Under a longer name lies what has that name as its group. -/
theorem like_iff {s pre name : String} (hname : name.length = pre.length + 1) :
    like s name = decide (substring s (pre.length + 1) = name) := by
  rw [like, hname]

/-! ### The lines of a group -/

theorem mem_lines {db : Database} {table pre : String} {floor : ℕ} {line : Line} :
    line ∈ lines db table pre floor ↔ line ∈ db.registry.toList ∧ line.1.1 = table ∧
      like line.1.2 pre = true ∧ visible floor line = true := by
  simp only [lines, List.mem_filter, Bool.and_eq_true, decide_eq_true_eq, and_assoc]

theorem filter_lines {db : Database} {table pre name : String} {floor : ℕ}
    (hname : name.length = pre.length + 1) (hlike : like name pre = true) :
    ((lines db table pre floor).filter fun line => substring line.1.2 (pre.length + 1) = name) =
      lines db table name floor := by
  rw [lines, lines, List.filter_filter]
  refine List.filter_congr fun line _ => ?_
  rw [like_iff hname]
  by_cases h : substring line.1.2 (pre.length + 1) = name
  · simp [h, ← like_of_substring h, hlike]
  · simp [h]

section
variable (rowHash : String → ℕ → String → Bool → ℕ)

/-- The summary of the lines under a prefix, if there are any. -/
def groupOf (r : Replica) (floor : ℕ) (table pre name : String) : Option Group :=
  if (r.host.table? table).isSome ∧ lines r.db table pre floor ≠ [] then
    some (toGroup rowHash (name, lines r.db table pre floor))
  else none

theorem mem_toGroup {f : Line → String} {l : List Line} {group : Group} :
    group ∈ (groupBy f l).map (toGroup rowHash) ↔ (∃ line ∈ l, f line = group.name) ∧
      group = toGroup rowHash (group.name, l.filter fun line => f line = group.name) := by
  rw [List.mem_map]
  constructor
  · rintro ⟨⟨name, g⟩, hg, rfl⟩
    obtain ⟨hl, rfl⟩ := mem_groupBy.mp hg
    exact ⟨hl, rfl⟩
  · rintro ⟨hl, hg⟩
    exact ⟨(group.name, _), mem_groupBy.mpr ⟨hl, rfl⟩, hg.symm⟩

theorem map_name_toGroup {f : Line → String} {l : List Line} :
    ((groupBy f l).map (toGroup rowHash)).map Group.name = (l.map f).dedup := by
  simp [groupBy, toGroup, Function.comp_def]

theorem groupMap_eq_some {groups : List Group} (hn : (groups.map Group.name).Nodup) {name : String}
    {group : Group} : groupMap groups name = some group ↔ group ∈ groups ∧ group.name = name := by
  rw [groupMap, mapOf_eq_some (by simpa [Function.comp_def] using hn), List.mem_map]
  simp only [Prod.mk.injEq]
  exact ⟨fun ⟨g, hg, hname, he⟩ => he ▸ ⟨hg, hname⟩, fun ⟨hg, hname⟩ => ⟨group, hg, hname, rfl⟩⟩

theorem mem_groupMap {groups : List Group} {name : String} {group : Group}
    (h : groupMap groups name = some group) : group ∈ groups ∧ group.name = name := by
  obtain ⟨g, hg, he⟩ := List.mem_map.mp (mapOf_mem h)
  obtain ⟨rfl, rfl⟩ := Prod.mk.inj he
  exact ⟨hg, rfl⟩

/-- The group of a name, in the map of a digest. -/
theorem groupMap_toGroup {f : Line → String} {l : List Line} {name : String} :
    groupMap ((groupBy f l).map (toGroup rowHash)) name =
      if (l.filter fun line => f line = name) ≠ [] then
        some (toGroup rowHash (name, l.filter fun line => f line = name)) else none := by
  have hn : (((groupBy f l).map (toGroup rowHash)).map Group.name).Nodup := by
    rw [map_name_toGroup]
    exact List.nodup_dedup _
  ext group
  rw [groupMap_eq_some hn, mem_toGroup]
  split
  · next h =>
    obtain ⟨line, hline⟩ := List.exists_mem_of_ne_nil _ h
    obtain ⟨hl, hf⟩ := List.mem_filter.mp hline
    constructor
    · rintro ⟨⟨-, hg⟩, rfl⟩
      rw [← hg]
    · rintro ⟨⟩
      exact ⟨⟨⟨line, hl, of_decide_eq_true hf⟩, rfl⟩, rfl⟩
  · next h =>
    constructor
    · rintro ⟨⟨⟨line, hl, hf⟩, -⟩, rfl⟩
      exact absurd (List.ne_nil_of_mem (List.mem_filter.mpr ⟨hl, decide_eq_true hf⟩)) h
    · rintro ⟨⟩

/-- **What a digest says of a group** one character below the prefix. -/
theorem groupMap_localDigest {r : Replica} {table pre name : String} {floor : ℕ}
    (hname : name.length = pre.length + 1) (hlike : like name pre = true) :
    groupMap (localDigest rowHash r.host r.db (some table) pre floor) name =
      groupOf rowHash r floor table name name := by
  simp only [localDigest, groupOf]
  cases ht : r.host.table? table with
  | none => simp [groupMap, mapOf]
  | some info => simp [groupMap_toGroup, filter_lines hname hlike]

/-- What the digest of all tables says of a table. -/
theorem groupMap_localDigest_none {r : Replica} {table : String} {floor : ℕ} :
    groupMap (localDigest rowHash r.host r.db none "" floor) table =
      groupOf rowHash r floor table "" table := by
  simp only [localDigest, groupOf, groupMap_toGroup, List.filter_filter]
  have hcat : (r.host.table? table).isSome = true ↔ table ∈ r.host.catalog.map TableInfo.name := by
    simp [Node.table?, List.find?_isSome]
  have hlines : (r.db.registry.toList.filter fun line => decide (line.1.1 = table) &&
      (decide (line.1.1 ∈ r.host.catalog.map TableInfo.name) && visible floor line)) =
      if table ∈ r.host.catalog.map TableInfo.name then lines r.db table "" floor else [] := by
    split
    · next h =>
      refine List.filter_congr fun line _ => ?_
      by_cases hl : line.1.1 = table
      · simp [hl, h]
      · simp [hl]
    · next h =>
      refine List.filter_eq_nil_iff.mpr fun line _ => ?_
      rintro hl
      simp only [Bool.and_eq_true, decide_eq_true_eq] at hl
      exact h (hl.1 ▸ hl.2.1)
  rw [hlines]
  by_cases h : table ∈ r.host.catalog.map TableInfo.name
  · simp [hcat, h]
  · simp [hcat, h]

end

/-! ### What a full comparison finds -/

/-- The version a node reports for a key, above the floor. -/
def Replica.reports (r : Replica) (floor : ℕ) (table hash : String) : Option RowVersion :=
  if (r.host.table? table).isNone then none
  else (r.db.record table hash).bind fun record =>
    if visible floor ((table, hash), record) then some record.rowVersion else none

/-- The node's records of the catalog's tables that are newer than what the other reports. -/
def fullComparison (ours theirs : Replica) (floor : ℕ) : List Entry :=
  ours.db.registry.toList.filterMap fun line =>
    (ours.host.table? line.1.1).bind fun info =>
      if visible floor line && isNewer line.2.rowVersion (theirs.reports floor line.1.1 line.1.2) then
        some (toEntry info line.1.2 line.2 none true)
      else none

/-- The part of the full comparison under a prefix. -/
def wanted (ours theirs : Replica) (floor : ℕ) (table pre : String) : List Entry :=
  (fullComparison ours theirs floor).filter fun entry =>
    entry.table.name = table && like entry.hash pre

variable {ours theirs : Replica} {floor : ℕ} {table pre : String}

theorem wanted_eq {info : TableInfo} (hinfo : ours.host.table? table = some info) :
    wanted ours theirs floor table pre =
      ((lines ours.db table pre floor).filter fun line =>
        isNewer line.2.rowVersion (theirs.reports floor table line.1.2)).map fun line =>
          toEntry info line.1.2 line.2 none true := by
  have hname : info.name = table := table?_name hinfo
  simp only [wanted, fullComparison, lines, List.filter_filterMap, ← List.filterMap_eq_map',
    List.filterMap_filter]
  refine List.filterMap_congr fun line _ => ?_
  by_cases ht : line.1.1 = table
  · simp only [ht, hinfo, Option.bind_some, decide_true, Bool.true_and]
    by_cases hv : visible floor line = true
    · by_cases hn : isNewer line.2.rowVersion (theirs.reports floor table line.1.2) = true
      · by_cases hl : like line.1.2 pre = true <;>
          simp [hv, hn, hl, Option.filter, toEntry, hname]
      · simp [hv, hn]
    · simp [hv]
  · cases hi : ours.host.table? line.1.1 with
    | none => simp [ht]
    | some other =>
        have hother : other.name ≠ table := fun h => ht ((table?_name hi).symm.trans h)
        by_cases hv : (visible floor line && isNewer line.2.rowVersion
            (theirs.reports floor line.1.1 line.1.2)) = true <;>
          simp [ht, hv, Option.filter, toEntry, hother]

/-- One level of prefixes below. -/
theorem filter_wanted {name : String} (hname : name.length = pre.length + 1)
    (hlike : like name pre = true) :
    ((wanted ours theirs floor table pre).filter fun entry =>
        substring entry.hash (pre.length + 1) = name) =
      wanted ours theirs floor table name := by
  rw [wanted, wanted, List.filter_filter]
  refine List.filter_congr fun entry _ => ?_
  rw [like_iff hname]
  by_cases h : substring entry.hash (pre.length + 1) = name
  · simp [h, ← like_of_substring h, hlike]
  · simp [h]

theorem wanted_of_absent (hinfo : ours.host.table? table = none) :
    wanted ours theirs floor table pre = [] := by
  refine List.filter_eq_nil_iff.mpr fun entry he hn => ?_
  obtain ⟨line, -, hl⟩ := List.mem_filterMap.mp he
  obtain ⟨info, hi, hl⟩ := Option.bind_eq_some_iff.mp hl
  split at hl
  · cases hl
    obtain ⟨hn, -⟩ := (Bool.and_eq_true _ _ ▸ hn : _ ∧ _)
    have ht : line.1.1 = table := (table?_name hi).symm.trans (of_decide_eq_true hn)
    rw [ht, hinfo] at hi
    cases hi
  · cases hl

/-- Records that the other side reports in no lower version are not wanted. -/
theorem wanted_of_reported (h : ∀ line ∈ lines ours.db table pre floor, ∃ v,
    theirs.reports floor table line.1.2 = some v ∧ line.2.rowVersion ≤ v) :
    wanted ours theirs floor table pre = [] := by
  cases hinfo : ours.host.table? table with
  | none => exact wanted_of_absent hinfo
  | some info =>
      rw [wanted_eq hinfo, List.map_eq_nil_iff, List.filter_eq_nil_iff]
      intro line hline
      rw [Bool.not_eq_true, isNewer_false_iff]
      exact h line hline

/-- The version reported for a key is that of a line of the peer. -/
theorem reports_eq_some {hash : String} {v : RowVersion} :
    theirs.reports floor table hash = some v ↔ (theirs.host.table? table).isSome ∧
      ∃ line ∈ lines theirs.db table "" floor, line.1.2 = hash ∧ line.2.rowVersion = v := by
  simp only [Replica.reports]
  cases ht : theirs.host.table? table with
  | none => simp
  | some info =>
      simp only [Option.isNone_some, Bool.false_eq_true, if_false, Option.isSome_some, true_and,
        Option.bind_eq_some_iff, mem_lines, like_empty]
      constructor
      · rintro ⟨record, hr, hv⟩
        split at hv
        · next hvis =>
          cases hv
          exact ⟨((table, hash), record), ⟨Table.mem_toList.mpr hr, rfl, hvis⟩, rfl, rfl⟩
        · cases hv
      · rintro ⟨⟨⟨t, k⟩, record⟩, ⟨hmem, rfl, hvis⟩, rfl, rfl⟩
        exact ⟨record, Table.mem_toList.mp hmem, if_pos hvis⟩

/-! ### Termination -/

section
variable {rowHash : String → ℕ → String → Bool → ℕ} {peer : Peer}

theorem compareRows_stopped {node : Node} {db : Database} :
    (compareRows node db peer floor table pre).stopped ≠ some .fuel := by
  simp only [compareRows]
  split
  · simp [Check.done]
  split
  · simp [Check.stop]
  split
  · simp
  split <;> simp

/-- The groups of a digest are named by one more character of the hash. -/
theorem length_name {group : Group}
    (h : group ∈ localDigest rowHash ours.host ours.db (some table) pre floor)
    (hpre : pre.length < 64) : group.name.length = pre.length + 1 ∧ like group.name pre = true := by
  simp only [localDigest] at h
  split at h
  · cases h
  · obtain ⟨⟨line, hline, hname⟩, -⟩ := (mem_toGroup rowHash).mp h
    obtain ⟨hmem, -, hlike, -⟩ := mem_lines.mp hline
    refine ⟨?_, (like_of_substring hname).trans hlike⟩
    rw [← hname]
    exact length_substring (by rw [ours.hash_length line hmem]; omega)

/-- **The recursion ends**, whatever the peer answers. -/
theorem descend_stopped {fuel : ℕ} {counts : ℕ × ℕ} (hpre : pre.length ≤ MAX_PREFIX)
    (hfuel : MAX_PREFIX < fuel + pre.length) :
    (descend rowHash ours.host ours.db peer floor fuel table pre counts).stopped ≠ some .fuel := by
  induction fuel generalizing pre counts with
  | zero => omega
  | succ fuel ih =>
      simp only [descend]
      split
      · exact compareRows_stopped
      next hsplit =>
      split
      · simp [Check.stop]
      next remote hremote =>
      intro hstop
      obtain ⟨name, -, hname⟩ := Check.stopped_forEach hstop
      split at hname
      · cases hname
      next mine hmine =>
      split at hname
      · cases hname
      obtain ⟨hgroup, rfl⟩ := mem_groupMap hmine
      obtain ⟨hlen, -⟩ := length_name hgroup (by simp only [MAX_PREFIX] at hpre; omega)
      exact ih (by omega) (by omega) hname

theorem verifyPeer_stopped {fuel : ℕ} (hfuel : MAX_PREFIX < fuel) :
    (verifyPeer rowHash ours.host ours.db peer floor fuel).stopped ≠ some .fuel := by
  simp only [verifyPeer]
  split
  · simp [Check.stop]
  · intro hstop
    obtain ⟨mine, -, hmine⟩ := Check.stopped_forEach hstop
    split at hmine
    · cases hmine
    · exact @descend_stopped _ _ _ "" _ _ _ _ (Nat.zero_le _) hfuel hmine

/-! ### A peer with a registry behind it -/

/-- Every call is answered from the registry of a node, and every delivery arrives. -/
structure Peer.Answers (rowHash : String → ℕ → String → Bool → ℕ) (peer : Peer) (theirs : Replica)
    (floor : ℕ) : Prop where
  digest : ∀ table pre, peer.digest table pre floor =
    some (localDigest rowHash theirs.host theirs.db table pre floor)
  rows : ∀ table pre, peer.rows table pre floor = some (handleRows theirs.host theirs.db table pre floor)
  deliver : ∀ entries, (peer.deliver entries).isSome

/-- Groups of the two nodes with the same count and the same XOR hold the same records. -/
def Faithful (rowHash : String → ℕ → String → Bool → ℕ) (ours theirs : Replica) (floor : ℕ) : Prop :=
  ∀ table pre,
    (lines ours.db table pre floor).length = (lines theirs.db table pre floor).length →
      bitXor rowHash (lines ours.db table pre floor) = bitXor rowHash (lines theirs.db table pre floor) →
        ∀ shown, shown ∈ (lines ours.db table pre floor).map Line.shown ↔
          shown ∈ (lines theirs.db table pre floor).map Line.shown

/-- Neither side's part of a compared group exceeds the row limit. -/
def Fits (ours theirs : Replica) (floor : ℕ) (c : Comparison) : Prop :=
  (lines ours.db c.table c.pre floor).length ≤ ROWS_LIMIT ∧
    (lines theirs.db c.table c.pre floor).length ≤ ROWS_LIMIT

/-- The check does not stop, and offers `entries` if the groups it compares fit. -/
def Finds (ours theirs : Replica) (floor : ℕ) (check : Check) (entries : List Entry) : Prop :=
  check.stopped = none ∧
    ((∀ c ∈ check.compared, Fits ours theirs floor c) → check.offers.Perm entries)

theorem finds_done : Finds ours theirs floor .done [] := ⟨rfl, fun _ => List.Perm.refl _⟩

theorem finds_forEach {α : Type*} {l : List α} {f : α → Check} {entries : α → List Entry}
    (h : ∀ a ∈ l, Finds ours theirs floor (f a) (entries a)) :
    Finds ours theirs floor (.forEach l f) (l.flatMap entries) := by
  have hrun := fun a ha => (h a ha).1
  refine ⟨?_, fun hfits => ?_⟩
  · cases hs : (Check.forEach l f).stopped with
    | none => rfl
    | some s =>
        obtain ⟨a, ha, hstop⟩ := Check.stopped_forEach hs
        rw [hrun a ha] at hstop
        cases hstop
  · rw [Check.offers_forEach hrun]
    rw [Check.compared_forEach hrun] at hfits
    refine List.Perm.flatMap_left l fun a ha => (h a ha).2 fun c hc => hfits c ?_
    exact List.mem_flatMap.mpr ⟨a, ha, hc⟩

theorem toString_injective {m n : ℕ} (h : toString m = toString n) : m = n := by
  have hd : Nat.toDigits 10 m = Nat.toDigits 10 n := String.ofList_injective h
  rw [← Nat.ofDigitChars_toDigits (b := 10) (n := m) (by decide) (by decide), hd,
    Nat.ofDigitChars_toDigits (by decide) (by decide)]

/-- Groups with the same summary need no comparison. -/
theorem wanted_of_sameGroup (hf : Faithful rowHash ours theirs floor) {name : String} {mine : Group}
    (hmine : groupOf rowHash ours floor table pre name = some mine)
    (hsame : sameGroup mine (groupOf rowHash theirs floor table pre name) = true) :
    wanted ours theirs floor table pre = [] := by
  have hmine : mine = toGroup rowHash (name, lines ours.db table pre floor) := by
    simp only [groupOf] at hmine
    split at hmine
    · exact (Option.some.inj hmine).symm
    · cases hmine
  simp only [groupOf] at hsame
  split at hsame
  · next htheirs =>
    simp only [sameGroup, hmine, toGroup, Bool.and_eq_true, decide_eq_true_eq] at hsame
    have hshown := hf table pre hsame.1 (toString_injective hsame.2)
    refine wanted_of_reported fun line hline => ?_
    obtain ⟨line', hline', he⟩ := List.mem_map.mp ((hshown line.shown).mp (List.mem_map_of_mem hline))
    obtain ⟨hhash, hversion, horigin, -⟩ := RowReply.mk.inj he
    obtain ⟨hmem, htable, -, hvis⟩ := mem_lines.mp hline'
    refine ⟨line.2.rowVersion, reports_eq_some.mpr ⟨htheirs.1, line', ?_, hhash, ?_⟩, le_refl _⟩
    · exact mem_lines.mpr ⟨hmem, htable, like_empty _, hvis⟩
    · rw [VersionRecord.rowVersion, hversion, horigin, VersionRecord.rowVersion]
  · cases hsame

theorem perm_localRows {db : Database} (h : (lines db table pre floor).length ≤ ROWS_LIMIT) :
    (localRows db table pre floor).Perm (lines db table pre floor) := by
  rw [localRows, List.take_of_length_le (by rwa [List.length_insertionSort])]
  exact List.perm_insertionSort _ _

theorem nodup_lines {db : Database} :
    ((lines db table pre floor).map fun line => line.1.2).Nodup :=
  Database.nodup_hash List.filter_sublist fun _ h => (mem_lines.mp h).2.1

/-- The versions a peer answers with, as the map that is compared with. -/
theorem mapOf_handleRows (h : (lines theirs.db table pre floor).length ≤ ROWS_LIMIT) {hash : String}
    (hlike : like hash pre = true) :
    mapOf ((handleRows theirs.host theirs.db table pre floor).rows.map fun row =>
      (row.hash, (⟨row.version, row.origin⟩ : RowVersion))) hash =
      theirs.reports floor table hash := by
  cases hinfo : theirs.host.table? table with
  | none => simp [handleRows, hinfo, mapOf, Replica.reports]
  | some info =>
      have hperm := perm_localRows h
      have hn : ((localRows theirs.db table pre floor).map fun line => line.1.2).Nodup :=
        (hperm.map _).nodup_iff.mpr nodup_lines
      ext v
      simp only [handleRows, hinfo, Option.isNone_some, Bool.false_eq_true, if_false, List.map_map]
      rw [mapOf_eq_some (by simpa [Function.comp_def, Line.shown] using hn), reports_eq_some]
      simp only [hinfo, Option.isSome_some, true_and, List.mem_map, hperm.mem_iff, mem_lines,
        Function.comp_apply, Line.shown, Prod.mk.injEq, like_empty]
      constructor
      · rintro ⟨line, ⟨hmem, ht, -, hvis⟩, rfl, rfl⟩
        exact ⟨line, ⟨hmem, ht, hvis⟩, rfl, rfl⟩
      · rintro ⟨line, ⟨hmem, ht, hvis⟩, rfl, rfl⟩
        exact ⟨line, ⟨hmem, ht, hlike, hvis⟩, rfl, rfl⟩

/-- **Row by row**: what is offered of a compared group is what is wanted of it. -/
theorem compareRows_finds (ha : peer.Answers rowHash theirs floor) :
    Finds ours theirs floor (compareRows ours.host ours.db peer floor table pre)
      (wanted ours theirs floor table pre) := by
  simp only [compareRows, ha.rows]
  cases hinfo : ours.host.table? table with
  | none =>
      rw [wanted_of_absent hinfo]
      exact finds_done
  | some info =>
      simp only
      set entries := ((localRows ours.db table pre floor).filter fun line =>
        isNewer line.2.rowVersion
          (mapOf ((handleRows theirs.host theirs.db table pre floor).rows.map fun row =>
            (row.hash, (⟨row.version, row.origin⟩ : RowVersion))) line.1.2)).map fun line =>
              toEntry info line.1.2 line.2 none true with hentries
      have hwanted : Fits ours theirs floor ⟨table, pre, entries⟩ →
          entries.Perm (wanted ours theirs floor table pre) := by
        rintro ⟨hours, htheirs⟩
        rw [wanted_eq hinfo, hentries]
        refine (((perm_localRows hours).filter _).trans (List.Perm.of_eq ?_)).map _
        refine List.filter_congr fun line hline => ?_
        rw [mapOf_handleRows htheirs (mem_lines.mp hline).2.2.1]
      split
      · next hnil =>
        exact ⟨rfl, fun hfits => by simpa [Check.offers, hnil] using hwanted (hnil ▸ hfits _ (by simp))⟩
      · obtain ⟨taken, htaken⟩ := Option.isSome_iff_exists.mp (ha.deliver entries)
        simp only [htaken]
        exact ⟨rfl, fun hfits => by simpa [Check.offers] using hwanted (hfits _ (by simp))⟩

/-! ### The whole check -/

theorem groupMap_none {groups : List Group} {name : String} (h : groupMap groups name = none) :
    name ∉ groups.map Group.name := by
  rintro hname
  obtain ⟨group, hg, rfl⟩ := List.mem_map.mp hname
  exact mapOf_eq_none.mp h group (List.mem_map.mpr ⟨group, hg, rfl⟩)

theorem mem_fullComparison {entry : Entry} (h : entry ∈ fullComparison ours theirs floor) :
    ∃ line ∈ ours.db.registry.toList, visible floor line = true ∧ line.1.2 = entry.hash ∧
      line.1.1 = entry.table.name ∧ ours.host.table? entry.table.name = some entry.table := by
  obtain ⟨line, hline, he⟩ := List.mem_filterMap.mp h
  obtain ⟨info, hi, he⟩ := Option.bind_eq_some_iff.mp he
  split at he
  · next hc =>
    cases he
    have ht : info.name = line.1.1 := table?_name hi
    exact ⟨line, hline, (Bool.and_eq_true _ _ ▸ hc : _ ∧ _).1, rfl, ht.symm, by simpa [toEntry, ht]⟩
  · cases he

/-- The wanted records of a prefix lie in the groups of the digest. -/
theorem wanted_covered {entry : Entry}
    (h : entry ∈ wanted ours theirs floor table pre) :
    substring entry.hash (pre.length + 1) ∈
      (localDigest rowHash ours.host ours.db (some table) pre floor).map Group.name := by
  obtain ⟨he, hc⟩ := List.mem_filter.mp h
  obtain ⟨line, hline, hvis, hhash, ht, hinfo⟩ := mem_fullComparison he
  obtain ⟨htable, hlike⟩ := (Bool.and_eq_true _ _ ▸ hc : _ ∧ _)
  have htable : entry.table.name = table := of_decide_eq_true htable
  rw [htable] at ht hinfo
  simp only [localDigest, hinfo, Option.isNone_some, Bool.false_eq_true, if_false]
  rw [map_name_toGroup, List.mem_dedup, ← hhash]
  exact List.mem_map_of_mem (f := fun line : Line => substring line.1.2 (pre.length + 1))
    (mem_lines.mpr ⟨hline, ht, hhash ▸ hlike, hvis⟩)

/-- **A group's offers** are the records under its prefix that are newer than what the peer
reports. -/
theorem descend_finds (ha : peer.Answers rowHash theirs floor) (hf : Faithful rowHash ours theirs floor)
    {fuel : ℕ} {counts : ℕ × ℕ} (hpre : pre.length ≤ MAX_PREFIX) (hfuel : MAX_PREFIX < fuel + pre.length) :
    Finds ours theirs floor (descend rowHash ours.host ours.db peer floor fuel table pre counts)
      (wanted ours theirs floor table pre) := by
  induction fuel generalizing pre counts with
  | zero => omega
  | succ fuel ih =>
      have hlen : pre.length < 64 := by simp only [MAX_PREFIX] at hpre; omega
      simp only [descend]
      split
      · exact compareRows_finds ha
      next hsplit =>
      simp only [ha.digest]
      set groups := localDigest rowHash ours.host ours.db (some table) pre floor with hgroups
      set remote := localDigest rowHash theirs.host theirs.db (some table) pre floor with hremote
      -- Each name of either side stands for the wanted records in its group.
      have hname : ∀ name ∈ distinct (groups.map Group.name ++ remote.map Group.name),
          Finds ours theirs floor
            (match groupMap groups name with
              | none => .done
              | some mine =>
                  if sameGroup mine (groupMap remote name) then .done
                  else descend rowHash ours.host ours.db peer floor fuel table name
                    (mine.count, ((groupMap remote name).map Group.count).getD 0))
            ((wanted ours theirs floor table pre).filter fun entry =>
              substring entry.hash (pre.length + 1) = name) := by
        intro name _
        cases hmine : groupMap groups name with
        | none =>
            have hnil : ((wanted ours theirs floor table pre).filter fun entry =>
                substring entry.hash (pre.length + 1) = name) = [] := by
              refine List.filter_eq_nil_iff.mpr fun entry he hs => groupMap_none hmine ?_
              rw [← of_decide_eq_true hs]
              exact wanted_covered he
            rw [hnil]
            exact finds_done
        | some mine =>
            obtain ⟨hgroup, rfl⟩ := mem_groupMap hmine
            obtain ⟨hnamelen, hlike⟩ := length_name hgroup hlen
            rw [filter_wanted hnamelen hlike]
            rw [hgroups, groupMap_localDigest rowHash hnamelen hlike] at hmine
            rw [hremote, groupMap_localDigest rowHash hnamelen hlike]
            simp only
            split
            · next hsame =>
              rw [wanted_of_sameGroup hf hmine hsame]
              exact finds_done
            · exact ih (by omega) (by omega)
      have hcover := flatMap_groups (nodup_distinct (groups.map Group.name ++ remote.map Group.name))
        fun entry he => mem_distinct.mpr (List.mem_append_left _ (@wanted_covered ours theirs
          floor table pre rowHash _ he))
      obtain ⟨hstop, hoffers⟩ := finds_forEach hname
      exact ⟨hstop, fun hfits => (hoffers hfits).trans hcover⟩

/-- **The data check.**  The check ends for every answer of the peer.  With another node's registry
behind the peer, and groups of the same count and XOR being the same, it offers exactly the records
above the floor that are newer than what the peer reports or that the peer does not report, each
once, unless it compares a group beyond the row limit. -/
theorem verifyPeer_offers (rowHash : String → ℕ → String → Bool → ℕ) (ours : Replica) (floor fuel : ℕ)
    (hfuel : MAX_PREFIX < fuel) :
    (∀ peer, (verifyPeer rowHash ours.host ours.db peer floor fuel).stopped ≠ some .fuel) ∧
      ∀ peer theirs, Peer.Answers rowHash peer theirs floor → Faithful rowHash ours theirs floor →
        (verifyPeer rowHash ours.host ours.db peer floor fuel).stopped = none ∧
          ((∀ c ∈ (verifyPeer rowHash ours.host ours.db peer floor fuel).compared,
            Fits ours theirs floor c) →
              (verifyPeer rowHash ours.host ours.db peer floor fuel).offers.Perm
                (fullComparison ours theirs floor)) := by
  refine ⟨fun peer => verifyPeer_stopped hfuel, fun peer theirs ha hf => ?_⟩
  simp only [verifyPeer, ha.digest]
  set groups := localDigest rowHash ours.host ours.db none "" floor with hgroups
  have hn : (groups.map Group.name).Nodup := by
    rw [hgroups, localDigest, map_name_toGroup]
    exact List.nodup_dedup _
  have hgroup : ∀ mine ∈ groups, Finds ours theirs floor
      (if sameGroup mine (groupMap (localDigest rowHash theirs.host theirs.db none "" floor) mine.name)
        then .done
        else descend rowHash ours.host ours.db peer floor fuel mine.name "" (mine.count,
          ((groupMap (localDigest rowHash theirs.host theirs.db none "" floor) mine.name).map
            Group.count).getD 0))
      ((fullComparison ours theirs floor).filter fun entry => entry.table.name = mine.name) := by
    intro mine hmine
    have hwanted : ((fullComparison ours theirs floor).filter fun entry =>
        entry.table.name = mine.name) = wanted ours theirs floor mine.name "" := by
      simp [wanted]
    rw [hwanted]
    have hmine := (groupMap_eq_some hn).mpr ⟨hmine, rfl⟩
    rw [hgroups, groupMap_localDigest_none] at hmine
    rw [groupMap_localDigest_none]
    split
    · next hsame =>
      rw [wanted_of_sameGroup hf hmine hsame]
      exact finds_done
    · exact @descend_finds _ _ _ _ "" _ _ ha hf _ _ (Nat.zero_le _) hfuel
  have hcover := flatMap_groups (f := fun entry : Entry => entry.table.name)
    (l := fullComparison ours theirs floor) hn fun entry he => by
      obtain ⟨line, hline, hvis, -, ht, hinfo⟩ := mem_fullComparison he
      rw [hgroups, localDigest, map_name_toGroup, List.mem_dedup, ← ht]
      refine List.mem_map_of_mem (f := fun line : Line => line.1.1) (List.mem_filter.mpr ⟨hline, ?_⟩)
      have hcat := List.mem_of_find?_eq_some hinfo
      rw [ht]
      simp only [hvis, Bool.and_true, decide_eq_true_eq]
      exact List.mem_map_of_mem hcat
  rw [List.flatMap_map] at hcover
  obtain ⟨hstop, hoffers⟩ := finds_forEach hgroup
  exact ⟨hstop, fun hfits => (hoffers hfits).trans hcover⟩

end

/-! ### Two nodes -/

def reminderHash : String := "5c62e091b8c0565f1bafad0dad5934276143ae2ccef7a5381e8ada5b1a8d26d2"

/-- A node whose registry holds one reminder, in a version of its own. -/
def reminderReplica (version : ℕ) (origin : String) : Replica where
  host := reminderNode
  db := (⟨∅, ∅, 1⟩ : Database).writeVersion "reminders" reminderHash ["r1"] version origin false none
  hash_length := by
    intro e he
    obtain rfl : e = (("reminders", reminderHash), _) := by
      simpa [Database.writeVersion, Table.toList] using he
    exact (by decide : reminderHash.length = 64)

theorem lines_reminderReplica {version : ℕ} {origin table pre : String} {floor : ℕ} :
    lines (reminderReplica version origin).db table pre floor =
      if "reminders" = table ∧ like reminderHash pre = true then
        [(("reminders", reminderHash), ⟨["r1"], version, origin, none, false, 1⟩)] else [] := by
  have hlist : (reminderReplica version origin).db.registry.toList =
      [(("reminders", reminderHash), ⟨["r1"], version, origin, none, false, 1⟩)] := rfl
  rw [lines, hlist]
  by_cases h : "reminders" = table ∧ like reminderHash pre = true
  · simp [h.1.symm, h.2, visible]
  · rw [if_neg h, List.filter_eq_nil_iff]
    simpa [visible] using h

/-- The peer that the node with version 5 of the reminder is. -/
def reminderPeer : Peer where
  digest table pre floor := some (localDigest (fun _ version _ _ => version)
    (reminderReplica 5 "A").host (reminderReplica 5 "A").db table pre floor)
  rows table pre floor :=
    some (handleRows (reminderReplica 5 "A").host (reminderReplica 5 "A").db table pre floor)
  deliver entries := some entries.length

/-- The node with version 6 offers it. -/
theorem verifyPeer_offers_reminder :
    let check := verifyPeer (fun _ version _ _ => version) (reminderReplica 6 "A").host
      (reminderReplica 6 "A").db reminderPeer 0 5
    check.stopped = none ∧
      check.offers = [toEntry reminders reminderHash ⟨["r1"], 6, "A", none, false, 1⟩ none true] ∧
      check.offers.Perm (fullComparison (reminderReplica 6 "A") (reminderReplica 5 "A") 0) := by
  obtain ⟨-, h⟩ := verifyPeer_offers (fun _ version _ _ => version) (reminderReplica 6 "A") 0 5
    (by decide)
  obtain ⟨hstop, hoffers⟩ := h reminderPeer (reminderReplica 5 "A")
    ⟨fun _ _ => rfl, fun _ _ => rfl, fun _ => rfl⟩ (by
      intro table pre
      rw [lines_reminderReplica, lines_reminderReplica]
      split
      · intro _ hxor
        exact absurd hxor (by decide)
      · intro _ _ shown
        exact Iff.rfl)
  refine ⟨hstop, by decide, hoffers fun c _ => ?_⟩
  rw [Fits, lines_reminderReplica, lines_reminderReplica]
  split <;> exact ⟨by decide, by decide⟩

end Pokyh.Cluster.Verify

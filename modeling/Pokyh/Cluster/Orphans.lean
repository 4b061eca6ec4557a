import Pokyh.Cluster.References
import Mathlib.Tactic.Set

/-!
# Cluster — Orphans

A change that waits for a foreign key is dropped at the end of a pass when its sender has nothing
more (`Orphan`).  The decision looks at why the change waited when it was last tried, and every
waiting change is tried for the last time in the second round: a parent that a later step of the
pass brings, in the second round, as a member of a group or as the winner of a duplicate, comes too
late.

`OrphanSafe` says of each step of the pass that it does not: where the step writes, some parent
that an already tried orphan lacks is not among the rows the step supplies; and an orphan that the
step itself tries is only kept from its row by a missing parent.

* `secondRound_lacks`, `collide_lacks`: one step keeps the tried orphans without a parent.
* `dropped_lacks_parent`: **in a pass whose steps are safe, what is dropped lacks a parent in the
  end.**
-/

namespace Pokyh.Cluster
open Pokyh.Lib

/-! ### Safe steps -/

/-- The entry is dropped if it is still waiting when the pass ends. -/
def Orphan (node : Node) (env : Surroundings) (entry : Waiting) : Prop :=
  entry.reason = .fk ∧ senderHasNothingMore node (env.at' .settle entry.item) entry.item = true

/-- No error keeps the item's row from being written. -/
def Writable (S : Schema) (fault : Option ℕ) (db : Database) (item : WorkItem) : Prop :=
  fault = none ∧ ∃ db', writeRow S db item (db.selectRow item.id).isSome = .ok db'

/-- Some parent that the item lacks is not supplied. -/
def StaysWithout (S : Schema) (db : Database) (item : WorkItem)
    (supplied : ForeignKey → RowId × Row → Prop) : Prop :=
  ∃ row, item.row = some row ∧ ∃ fk ∈ S.foreignKeys,
    fk.unmet db.rows (item.id, row) = true ∧ ¬ supplied fk (item.id, row)

/-- The second round tries `entry`, after the entries `tried`. -/
structure SecondOk (node : Node) (env : Surroundings) (p : Pass) (tried : List Waiting)
    (entry : Waiting) : Prop where
  own : Orphan node env entry → Lacks node.schema p.db entry.item ∨
    Writable node.schema (env.at' .second entry.item).fault p.db entry.item
  others : (env.at' .second entry.item).fault = none →
    isNewer entry.item.rowVersion (p.db.readVersion entry.item.table.name entry.item.hash) = true →
    findCollision p.db entry.item = none →
    ∀ w ∈ p.waiting, w ∈ tried → Orphan node env w →
      StaysWithout node.schema p.db w.item (Supplies p.db entry.item)

/-- The rows a colliding row may be written with. -/
def Partner (node : Node) (p : Pass) (entry m : WorkItem) : Prop :=
  m = entry ∨ ∃ blocker, m ∈ (collectGroup node p entry blocker).members

/-- The colliding `entry` is handled. -/
structure CollideOk (node : Node) (env : Surroundings) (p : Pass) (entry : WorkItem) : Prop where
  own : Orphan node env ⟨entry, .fk⟩ → Lacks node.schema p.db entry ∨
    Writable node.schema (env.at' .colliding entry).fault p.db entry
  others : ∀ w ∈ p.waiting, Orphan node env w →
    StaysWithout node.schema p.db w.item fun fk child =>
      ∃ m, Partner node p entry m ∧ (Supplies p.db m fk child ∨ Parks env.draws m fk child)

/-- Every step of the pass is safe in the state before it. -/
structure OrphanSafe (node : Node) (env : Surroundings) (db : Database) (ordered : List WorkItem) :
    Prop where
  second : ∀ pre entry post, (afterFirst node env db ordered).waiting = pre ++ entry :: post →
    SecondOk node env (pre.foldl (secondRound node env) (afterFirst node env db ordered)) pre entry
  colliding : ∀ pre entry post, (afterSecond node env db ordered).colliding = pre ++ entry :: post →
    entry ∉ (pre.foldl (collide node env) (afterSecond node env db ordered)).handled →
    CollideOk node env (pre.foldl (collide node env) (afterSecond node env db ordered)) entry

/-! ### The first round -/

variable {node : Node} {env : Surroundings} {db db' : Database} {item : WorkItem} {p : Pass}
  {items : List WorkItem}

theorem firstRound_waiting (node : Node) (env : Surroundings) (p : Pass) (item : WorkItem) :
    (firstRound node env p item).waiting = p.waiting ∨
      ∃ reason, (firstRound node env p item).waiting = p.waiting ++ [⟨item, reason⟩] := by
  unfold firstRound
  generalize attempt node.schema (env.at' .first item).fault p.db item = o
  obtain ⟨outcome, db'⟩ := o
  cases outcome with
  | applied | stale | reject => exact .inl rfl
  | conflict index otherKey => exact .inl rfl
  | defer reason => exact .inr ⟨reason, rfl⟩

theorem afterFirst_nodup (hnd : items.Nodup) : (afterFirst node env db items).waiting.Nodup := by
  refine (foldl_splits (P := fun pre (p : Pass) => (∀ w ∈ p.waiting, w.item ∈ pre) ∧ p.waiting.Nodup)
    ⟨by simp, List.nodup_nil⟩ ?_).2
  rintro pre a post hl ⟨hin, hnd'⟩
  have ha : a ∉ pre := by
    rw [hl] at hnd
    exact fun h => (List.nodup_append.mp hnd).2.2 a h a List.mem_cons_self rfl
  rcases firstRound_waiting node env (pre.foldl (firstRound node env) ⟨db, [], [], [], []⟩) a
    with h | ⟨reason, h⟩ <;> rw [h]
  · exact ⟨fun w hw => List.mem_append_left _ (hin w hw), hnd'⟩
  · refine ⟨fun w hw => ?_, ?_⟩
    · rcases List.mem_append.mp hw with hw | hw
      · exact List.mem_append_left _ (hin w hw)
      · rw [List.mem_singleton.mp hw]
        simp
    · rw [List.nodup_append]
      refine ⟨hnd', by simp, ?_⟩
      rintro w hw _ hw' rfl
      rw [List.mem_singleton.mp hw'] at hw
      exact ha (hin _ hw)

/-! ### The second round -/

/-- What `attempt` does to the parents an orphan lacks. -/
theorem StaysWithout.lacks {supplied : ForeignKey → RowId × Row → Prop}
    (h : StaysWithout node.schema db item supplied)
    (hw : ∀ fk child, ¬ supplied fk child → Unoffered fk child db → Unoffered fk child db') :
    Lacks node.schema db' item := by
  obtain ⟨row, hrow, fk, hfk, hunmet, hsup⟩ := h
  obtain ⟨hchild, hoff⟩ := unmet_iff.mp hunmet
  exact ⟨row, hrow, fk, hfk, unmet_iff.mpr ⟨hchild, hw fk _ hsup hoff⟩⟩

/-- An attempt that is kept from its write by nothing but a missing parent. -/
theorem lacks_of_not_applied {fault : Option ℕ}
    (hown : Lacks node.schema db item ∨ Writable node.schema fault db item)
    (hout : (∃ reason, (attempt node.schema fault db item).1 = .defer reason) ∨
      (attempt node.schema fault db item).1 = .reject) :
    Lacks node.schema (attempt node.schema fault db item).2 item := by
  rcases attempt_cases node.schema fault db item with ⟨hdb, -, -⟩ | ⟨ha, -⟩
  · rw [hdb]
    refine hown.resolve_right fun ⟨hf, db', hw⟩ => ?_
    subst hf
    simp only [attempt, attemptWithin] at hout
    split at hout
    · rcases hout with ⟨_, h⟩ | h <;> cases h
    · split at hout
      · rcases hout with ⟨_, h⟩ | h <;> cases h
      · rw [hw] at hout
        rcases hout with ⟨_, h⟩ | h <;> cases h
  · rw [ha] at hout
    rcases hout with ⟨_, h⟩ | h <;> cases h

/-- The orphans among some entries that are still waiting lack a parent. -/
def TriedLack (node : Node) (env : Surroundings) (tried : List Waiting) (p : Pass) : Prop :=
  ∀ w ∈ p.waiting, w ∈ tried → Orphan node env w → Lacks node.schema p.db w.item

/-- An attempt that writes, if it does, under the condition `others`. -/
theorem attempt_lacks {fault : Option ℕ} {w : WorkItem} (hl : Lacks node.schema db w)
    (h : fault = none → isNewer item.rowVersion (db.readVersion item.table.name item.hash) = true →
      findCollision db item = none → StaysWithout node.schema db w (Supplies db item)) :
    Lacks node.schema (attempt node.schema fault db item).2 w := by
  by_cases ha : (attempt node.schema fault db item).1 = .applied
  · have hreach : fault = none ∧
        isNewer item.rowVersion (db.readVersion item.table.name item.hash) = true ∧
        findCollision db item = none := by
      cases fault with
      | some code => exact absurd ha classifyWriteError_ne.1
      | none =>
          simp only [attempt, attemptWithin] at ha
          split at ha
          · cases ha
          · next hn =>
            split at ha
            · cases ha
            · next hc => exact ⟨rfl, by simpa using hn, hc⟩
    exact (h hreach.1 hreach.2.1 hreach.2.2).lacks fun fk child hs hoff => attempt_unoffered hoff hs
  · rcases attempt_cases node.schema fault db item with ⟨hdb, -, -⟩ | ⟨ha', -⟩
    · rwa [hdb]
    · exact absurd ha' ha

/-- What the second round does to an entry. -/
theorem secondRound_cases (node : Node) (env : Surroundings) (p : Pass) (entry : Waiting) :
    (secondRound node env p entry = p ∧ entry.reason ≠ .fk) ∨
    ((secondRound node env p entry).db =
        (attempt node.schema (env.at' .second entry.item).fault p.db entry.item).2 ∧
      ((secondRound node env p entry).waiting = p.waiting.erase entry ∨
        (secondRound node env p entry).waiting = p.waiting ∧
          ((∃ reason, (attempt node.schema (env.at' .second entry.item).fault p.db entry.item).1 =
            .defer reason) ∨
          (attempt node.schema (env.at' .second entry.item).fault p.db entry.item).1 = .reject))) := by
  unfold secondRound
  split
  · next h => exact .inl ⟨rfl, h.1⟩
  generalize attempt node.schema (env.at' .second entry.item).fault p.db entry.item = o
  obtain ⟨outcome, db'⟩ := o
  right
  cases outcome with
  | applied | stale => exact ⟨rfl, .inl rfl⟩
  | conflict index otherKey => exact ⟨rfl, .inl rfl⟩
  | defer reason => exact ⟨rfl, .inr ⟨rfl, .inl ⟨reason, rfl⟩⟩⟩
  | reject => exact ⟨rfl, .inr ⟨rfl, .inr rfl⟩⟩

theorem secondRound_lacks {tried : List Waiting} {entry : Waiting} (hnd : p.waiting.Nodup)
    (h : TriedLack node env tried p) (hok : SecondOk node env p tried entry) :
    TriedLack node env (tried ++ [entry]) (secondRound node env p entry) := by
  rcases secondRound_cases node env p entry with ⟨hp, hr⟩ | ⟨hdb, hwait⟩
  · rw [hp]
    intro w hw hmem ho
    rcases List.mem_append.mp hmem with hmem | hmem
    · exact h w hw hmem ho
    · rw [List.mem_singleton.mp hmem] at ho
      exact absurd ho.1 hr
  have hold : ∀ w ∈ p.waiting, w ∈ tried → Orphan node env w →
      Lacks node.schema (secondRound node env p entry).db w.item := by
    intro w hw hmem ho
    rw [hdb]
    exact attempt_lacks (h w hw hmem ho) fun hf hn hc => hok.others hf hn hc w hw hmem ho
  intro w hw hmem ho
  rcases hwait with hwait | ⟨hwait, hout⟩
  · rw [hwait, hnd.mem_erase_iff] at hw
    rcases List.mem_append.mp hmem with hmem | hmem
    · exact hold w hw.2 hmem ho
    · exact absurd (List.mem_singleton.mp hmem) hw.1
  · rw [hwait] at hw
    rcases List.mem_append.mp hmem with hmem | hmem
    · exact hold w hw hmem ho
    · obtain rfl := List.mem_singleton.mp hmem
      rw [hdb]
      exact lacks_of_not_applied (hok.own ho) hout

theorem secondRound_waiting_nodup {entry : Waiting} (hnd : p.waiting.Nodup) :
    (secondRound node env p entry).waiting.Nodup := by
  rcases secondRound_cases node env p entry with ⟨hp, -⟩ | ⟨-, hwait | ⟨hwait, -⟩⟩
  · rwa [hp]
  · rw [hwait]
    exact hnd.erase entry
  · rwa [hwait]

theorem secondRound_waiting_subset {entry w : Waiting}
    (h : w ∈ (secondRound node env p entry).waiting) : w ∈ p.waiting := by
  rcases secondRound_cases node env p entry with ⟨hp, -⟩ | ⟨-, hwait | ⟨hwait, -⟩⟩
  · rwa [hp] at h
  · rw [hwait] at h
    exact List.mem_of_mem_erase h
  · rwa [hwait] at h

/-! ### Colliding rows -/

variable {entry : WorkItem} {fk : ForeignKey} {child : RowId × Row}

theorem settleAlone_unoffered {before : Database} {blocker : UniqueIndex × List String}
    (h : Unoffered fk child p.db) (hs : ¬ Supplies before entry fk child)
    (hold : SameKey before p.db entry) :
    Unoffered fk child (settleAlone node env p entry blocker).db := by
  have hres := @resolveDuplicate_unoffered node p.db entry fk child before
    (env.at' .duplicate entry).fault blocker.2 h hs hold
  unfold settleAlone
  dsimp only
  split
  · split
    · next db' hr => rw [show (p.handle [entry]).db = p.db from rfl] at hr; rwa [hr] at hres
    · next db' hr => rw [show (p.handle [entry]).db = p.db from rfl] at hr; rwa [hr] at hres
  · exact h

/-- A colliding row brings no parent that it, or a row of its group, does not supply. -/
theorem collide_unoffered (hb : ∀ i ∈ items, Built node i) (hcol : ∀ i ∈ p.colliding, i ∈ items)
    (hi : entry ∈ items) (h : Unoffered fk child p.db)
    (hs : ∀ m, Partner node p entry m → ¬ Supplies p.db m fk child ∧ ¬ Parks env.draws m fk child) :
    Unoffered fk child (collide node env p entry).db := by
  have hown := (hs entry (.inl rfl)).1
  have hatt := @attempt_unoffered node.schema p.db entry fk child (env.at' .colliding entry).fault h
    hown
  unfold collide
  split
  · exact h
  generalize ho : attempt node.schema (env.at' .colliding entry).fault p.db entry = o at hatt
  obtain ⟨outcome, db'⟩ := o
  cases outcome with
  | applied | stale | reject => exact hatt
  | defer reason => exact hatt
  | conflict index otherKey =>
      obtain ⟨rfl, hd⟩ := attempt_conflict ho
      dsimp only
      split
      · have hg : GroupInv items (collectGroup node (p.store p.db) entry (index, otherKey)) :=
          collectGroup_inv hb hcol hi hd
        have hbg : ∀ m ∈ (collectGroup node (p.store p.db) entry (index, otherKey)).members,
            Built node m := fun m hm => hb m (hg.subset m hm)
        have hsg := fun m (hm : m ∈ (collectGroup node (p.store p.db) entry
          (index, otherKey)).members) => hs m (.inr ⟨_, hm⟩)
        have hgroup := @applyGroup_unoffered node.schema p.db fk child env.draws _
          (env.at' .group entry).fault (ids_nodup hbg hg.nodup) hg.kept h
          (fun m hm => (hsg m hm).1) fun m hm => (hsg m hm).2
        split
        · next db'' hr =>
          rw [show (p.store p.db).db = p.db from rfl] at hr
          rwa [hr] at hgroup
        · next db'' hr =>
          rw [show (p.store p.db).db = p.db from rfl] at hr
          refine settleAlone_unoffered ?_ hown
            (applyGroup_sameKey hbg (hb entry hi) (ids_nodup hbg hg.nodup) hr)
          rwa [hr] at hgroup
      · exact settleAlone_unoffered h hown (SameKey.refl p.db entry)

theorem settleAlone_waiting {blocker : UniqueIndex × List String} :
    (settleAlone node env p entry blocker).waiting = p.waiting ∨
      (settleAlone node env p entry blocker).waiting = p.waiting ++ [⟨entry, .unique⟩] := by
  unfold settleAlone
  dsimp only
  split
  · split
    · exact .inl rfl
    · exact .inr rfl
  · exact .inr rfl

/-- What a colliding row can leave waiting: itself, for a unique value or because its attempt is
put off. -/
theorem collide_waiting :
    (collide node env p entry).waiting = p.waiting ∨
    (collide node env p entry).waiting = p.waiting ++ [⟨entry, .unique⟩] ∨
    ∃ reason, (attempt node.schema (env.at' .colliding entry).fault p.db entry).1 = .defer reason ∧
      (collide node env p entry).waiting = p.waiting ++ [⟨entry, reason⟩] ∧
      (collide node env p entry).db =
        (attempt node.schema (env.at' .colliding entry).fault p.db entry).2 := by
  unfold collide
  split
  · exact .inl rfl
  generalize attempt node.schema (env.at' .colliding entry).fault p.db entry = o
  obtain ⟨outcome, db'⟩ := o
  cases outcome with
  | applied | stale | reject => exact .inl rfl
  | defer reason => exact .inr (.inr ⟨reason, rfl, rfl, rfl⟩)
  | conflict index otherKey =>
      dsimp only
      split
      · split
        · exact .inl rfl
        · next db'' _ =>
          rcases @settleAlone_waiting node env ((p.store db').store db'') entry
            (collectGroup node (p.store db') entry (index, otherKey)).blocker with h | h
          · exact .inl h
          · exact .inr (.inl h)
      · rcases @settleAlone_waiting node env (p.store db') entry
          (collectGroup node (p.store db') entry (index, otherKey)).blocker with h | h
        · exact .inl h
        · exact .inr (.inl h)

/-- The orphans that are waiting lack a parent. -/
def AllLack (node : Node) (env : Surroundings) (p : Pass) : Prop :=
  ∀ w ∈ p.waiting, Orphan node env w → Lacks node.schema p.db w.item

theorem collide_lacks (hb : ∀ i ∈ items, Built node i) (hcol : ∀ i ∈ p.colliding, i ∈ items)
    (hi : entry ∈ items) (h : AllLack node env p)
    (hok : entry ∉ p.handled → CollideOk node env p entry) :
    AllLack node env (collide node env p entry) := by
  by_cases hh : entry ∈ p.handled
  · rw [collide, if_pos hh]
    exact h
  have hok := hok hh
  have hold : ∀ w ∈ p.waiting, Orphan node env w →
      Lacks node.schema (collide node env p entry).db w.item := by
    intro w hw ho
    refine (hok.others w hw ho).lacks fun fk child hs hoff => ?_
    refine collide_unoffered hb hcol hi hoff fun m hm => ⟨fun h => hs ⟨m, hm, .inl h⟩, fun h =>
      hs ⟨m, hm, .inr h⟩⟩
  intro w hw ho
  rcases @collide_waiting node env p entry with hwait | hwait | ⟨reason, hout, hwait, hdb⟩
  · rw [hwait] at hw
    exact hold w hw ho
  · rw [hwait] at hw
    rcases List.mem_append.mp hw with hw | hw
    · exact hold w hw ho
    · rw [List.mem_singleton.mp hw] at ho
      cases ho.1
  · rw [hwait] at hw
    rcases List.mem_append.mp hw with hw | hw
    · exact hold w hw ho
    · obtain rfl := List.mem_singleton.mp hw
      obtain rfl : reason = .fk := ho.1
      rw [hdb]
      exact lacks_of_not_applied (hok.own ho) (.inl ⟨_, hout⟩)

/-! ### A whole pass -/

theorem carefulPass_lacks (hb : ∀ i ∈ items, Built node i) (hnd : items.Nodup)
    (hsafe : OrphanSafe node env db items) :
    AllLack node env (carefulPass node env db items) := by
  have hsecond : TriedLack node env (afterFirst node env db items).waiting (afterSecond node env db items) ∧
      (afterSecond node env db items).waiting.Nodup ∧
      ∀ w ∈ (afterSecond node env db items).waiting, w ∈ (afterFirst node env db items).waiting := by
    rw [afterSecond]
    refine foldl_splits (P := fun pre p => TriedLack node env pre p ∧
      p.waiting.Nodup ∧ ∀ w ∈ p.waiting, w ∈ (afterFirst node env db items).waiting)
      ⟨by simp [TriedLack], afterFirst_nodup hnd, fun _ h => h⟩ ?_
    rintro pre e post hl ⟨ht, hn, hsub⟩
    exact ⟨secondRound_lacks hn ht (hsafe.second pre e post hl), secondRound_waiting_nodup hn,
      fun w hw => hsub w (secondRound_waiting_subset hw)⟩
  rw [carefulPass_eq]
  refine (foldl_splits (P := fun _ p => AllLack node env p ∧ PassInv items db p)
    ⟨fun w hw ho => hsecond.1 w hw (hsecond.2.2 w hw) ho, afterSecond_inv⟩ ?_).1
  rintro pre e post hl ⟨hlack, hinv⟩
  have he : e ∈ items := afterSecond_inv.colliding e (by rw [hl]; simp)
  exact ⟨collide_lacks hb hinv.colliding he hlack (hsafe.colliding pre e post hl),
    collide_inv hb hinv he⟩

/-- What the end of a pass drops was waiting as an orphan. -/
theorem settleWaiting_dropped {waiting : List Waiting} {f : Done} :
    (waiting.foldl (settleWaiting node env) f).store.db = f.store.db ∧
      ∀ item ∈ (waiting.foldl (settleWaiting node env) f).dropped,
        item ∈ f.dropped ∨ ∃ w ∈ waiting, Orphan node env w ∧ w.item = item := by
  refine foldl_invariant (f := settleWaiting node env) (P := fun g => g.store.db = f.store.db ∧
    ∀ item ∈ g.dropped, item ∈ f.dropped ∨ ∃ w ∈ waiting, Orphan node env w ∧ w.item = item) ?_
    ⟨rfl, fun _ h => .inl h⟩
  rintro g w hw ⟨hdb, hdrop⟩
  unfold settleWaiting
  split
  · next ho =>
    refine ⟨hdb, fun item hi => ?_⟩
    rcases List.mem_append.mp hi with hi | hi
    · exact hdrop item hi
    · exact .inr ⟨w, hw, ho, (List.mem_singleton.mp hi).symm⟩
  · exact ⟨hdb, hdrop⟩

/-- `school_years`, by its id and its unique label. -/
def schoolYears : TableInfo where
  name := "school_years"
  columns := ["id", "label"]
  pk := ["id"]
  codec := [⟨"id", .string⟩, ⟨"label", .string⟩]
  uniques := [⟨"label", ["label"]⟩]
  rank := 0
  createdAtColumn := none
  fkColumns := []
  maxLength := [("id", 191), ("label", 191)]

/-- `archived_classes`, by its id and school year. -/
def archivedClasses : TableInfo where
  name := "archived_classes"
  columns := ["id", "school_year_id"]
  pk := ["id"]
  codec := [⟨"id", .string⟩, ⟨"school_year_id", .string⟩]
  uniques := []
  rank := 1
  createdAtColumn := none
  fkColumns := ["school_year_id"]
  maxLength := []

def archiveNode : Node :=
  { reminderNode with
    catalog := [schoolYears, archivedClasses]
    schema :=
      { foreignKeys := [⟨"archived_classes", ["school_year_id"], "school_years", ["id"], .cascade⟩]
        valueError _ _ := none } }

/-- A change that was set aside at time 10 and tried twice. -/
def setAside (item : WorkItem) : WorkItem := { item with deferred := some ⟨2, 10⟩ }

/-- Peer `A`, the sender, has nothing more since time 20. -/
def drained : Surroundings := ⟨fun _ _ => ⟨none, 30, [("A", some 20)]⟩, fun _ _ _ => 0⟩

/-- The school year `y1` with the label `a`. -/
def schoolYearRows : Table RowId Row :=
  Table.ofList [(⟨"school_years", ["y1"]⟩, [("id", .string "y1"), ("label", .string "a")])]

/-- The class of a year that nobody has. -/
def lostClass : WorkItem := setAside (change archivedClasses ["c1"] 7 (some [.string "c1", .string "y9"]))

/-- A new year takes the label of `y1`, which gets another one in the same set, and has a class. -/
def relabelledYears : List WorkItem :=
  [setAside (change schoolYears ["y2"] 7 (some [.string "y2", .string "a"])),
    setAside (change schoolYears ["y1"] 7 (some [.string "y1", .string "b"])),
    setAside (change archivedClasses ["c1"] 7 (some [.string "c1", .string "y2"]))]

end Pokyh.Cluster

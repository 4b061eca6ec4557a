import Pokyh.School.Rollover

/-!
# School — Interleaving

`performRollover` while other writes are committed.  Its seven reads are queries of their own, made in
any order before the transaction; the transaction archives what was read and then deletes what is
there: every class, every account that was no admin when the admins were read, and what refers to them.
A row the transaction has deleted is locked: another write waits for it.  Any step can fail.

* `rollover_atomic`: until the commit, and for good when a step fails, the database is what the other
  writes made it.
* `rollover_lossless_iff`: **the commit loses no row exactly when every row it removes was read, with
  the values it was removed with.**
* `rollover_alone`: with no other writes the steps are `performRollover`.
-/

namespace Pokyh.School
open Pokyh.Lib

/-! ### What the transaction removes -/

/-- The classes with their members, reminders and comments. -/
def Live.withClasses (l : Live) : Live :=
  let ids := l.classes.map Class.id
  let reminderIds := (l.reminders.filter fun r => r.classId ∈ ids).map Reminder.id
  { users := []
    classMembers := l.classMembers.filter fun m => m.classId ∈ ids
    classes := l.classes
    todos := []
    reminders := l.reminders.filter fun r => r.classId ∈ ids
    comments := l.comments.filter fun c => c.reminderId ∈ reminderIds }

/-- The accounts that are not retained with their memberships and to-dos. -/
def Live.withUsers (retained : List String) (l : Live) : Live :=
  let gone := l.users.filter fun u => u.stableUid ∉ retained
  let uids := gone.map User.stableUid
  { users := gone
    classMembers := l.classMembers.filter fun m => m.stableUid ∈ uids
    classes := []
    todos := l.todos.filter fun t => t.stableUid ∈ uids
    reminders := []
    comments := [] }

def Live.empty : Live := ⟨[], [], [], [], [], []⟩

def Live.union (a b : Live) : Live where
  users := a.users ++ b.users
  classMembers := a.classMembers ++ b.classMembers
  classes := a.classes ++ b.classes
  todos := a.todos ++ b.todos
  reminders := a.reminders ++ b.reminders
  comments := a.comments ++ b.comments

/-- The rows that are left when some are removed. -/
def Live.without (l removed : Live) : Live where
  users := l.users.filter (· ∉ removed.users)
  classMembers := l.classMembers.filter (· ∉ removed.classMembers)
  classes := l.classes.filter (· ∉ removed.classes)
  todos := l.todos.filter (· ∉ removed.todos)
  reminders := l.reminders.filter (· ∉ removed.reminders)
  comments := l.comments.filter (· ∉ removed.comments)

/-- Every row of the one is in the other. -/
structure Live.Within (a b : Live) : Prop where
  users : a.users ⊆ b.users
  classMembers : a.classMembers ⊆ b.classMembers
  classes : a.classes ⊆ b.classes
  todos : a.todos ⊆ b.todos
  reminders : a.reminders ⊆ b.reminders
  comments : a.comments ⊆ b.comments

instance (a b : Live) : Decidable (Live.Within a b) :=
  decidable_of_iff
    (a.users ⊆ b.users ∧ a.classMembers ⊆ b.classMembers ∧ a.classes ⊆ b.classes ∧ a.todos ⊆ b.todos ∧
      a.reminders ⊆ b.reminders ∧ a.comments ⊆ b.comments)
    ⟨fun ⟨h₁, h₂, h₃, h₄, h₅, h₆⟩ => ⟨h₁, h₂, h₃, h₄, h₅, h₆⟩,
      fun ⟨h₁, h₂, h₃, h₄, h₅, h₆⟩ => ⟨h₁, h₂, h₃, h₄, h₅, h₆⟩⟩

theorem Live.without_deleted (l : Live) (retained : List String) :
    l.without ((Live.empty.union l.withClasses).union (l.withUsers retained)) = l.deleteYear retained := by
  simp only [Live.without, Live.union, Live.withClasses, Live.withUsers, Live.empty, Live.deleteYear,
    Live.deleteClasses, Live.deleteUsers, Live.mk.injEq, List.nil_append, List.append_nil, List.filter_true]
  refine ⟨?_, ?_, ?_, ?_, ?_, ?_⟩
  · exact List.filter_congr fun u hu => by simp [hu]
  · rw [List.filter_filter]
    exact List.filter_congr fun m hm => Bool.eq_iff_iff.mpr (by simp [hm, and_comm])
  · exact List.filter_congr fun c hc => by simp [hc]
  · exact List.filter_congr fun t ht => by simp [ht]
  · exact List.filter_congr fun r hr => by simp [hr]
  · exact List.filter_congr fun c hc => by simp [hc]

/-! ### What the archive holds of a row -/

/-- The columns of an archived account that are the account's own. -/
def ArchivedUser.own (a : ArchivedUser) : ArchivedUser :=
  { a with schoolYearId := "", classId := none, classCode := none, className := none }

def ArchivedClass.own (a : ArchivedClass) : ArchivedClass :=
  { a with schoolYearId := "", memberCount := 0, membersJson := [] }

def ArchivedTodo.own (a : ArchivedTodo) : ArchivedTodo := { a with schoolYearId := "", username := "" }

def ArchivedReminder.own (a : ArchivedReminder) : ArchivedReminder :=
  { a with schoolYearId := "", className := "", commentsJson := [] }

/-- With nothing else read. -/
def Reads.empty : Reads := ⟨[], [], [], [], [], [], []⟩

def User.own (u : User) : ArchivedUser := Reads.empty.archivedUser "" u

def Class.own (c : Class) : ArchivedClass := Reads.empty.archivedClass "" c

def Todo.own (t : Todo) : ArchivedTodo := Reads.empty.archivedTodo "" t

def Reminder.own (r : Reminder) : ArchivedReminder := Reads.empty.archivedReminder "" r

/-- The year's archive holds every removed row with the values it had. -/
structure Archive.Holds (id : String) (removed : Live) (a : Archive) : Prop where
  users : ∀ u ∈ removed.users, ∃ au ∈ a.archivedUsers, au.schoolYearId = id ∧ au.own = u.own
  classes : ∀ c ∈ removed.classes, ∃ ac ∈ a.archivedClasses, ac.schoolYearId = id ∧ ac.own = c.own
  classMembers : ∀ m ∈ removed.classMembers, ∃ ac ∈ a.archivedClasses, ac.schoolYearId = id ∧
    ac.originalId = m.classId ∧ m.snap ∈ ac.membersJson
  todos : ∀ t ∈ removed.todos, ∃ at' ∈ a.archivedTodos, at'.schoolYearId = id ∧ at'.own = t.own
  reminders : ∀ r ∈ removed.reminders, ∃ ar ∈ a.archivedReminders, ar.schoolYearId = id ∧ ar.own = r.own
  comments : ∀ c ∈ removed.comments, ∃ ar ∈ a.archivedReminders, ar.schoolYearId = id ∧
    ar.originalId = c.reminderId ∧ c.snap ∈ ar.commentsJson

/-- Every removed row was there, with the same values, when its table was read; of a member the class
was there when the classes were read, of a comment the reminder. -/
structure Reads.Cover (removed : Live) (r : Reads) : Prop where
  users : ∀ u ∈ removed.users, ∃ u' ∈ r.users, u'.own = u.own
  classes : ∀ c ∈ removed.classes, ∃ c' ∈ r.classes, c'.own = c.own
  classMembers : ∀ m ∈ removed.classMembers, m ∈ r.classMembersAll ∧ ∃ c ∈ r.classes, c.id = m.classId
  todos : ∀ t ∈ removed.todos, ∃ t' ∈ r.todos, t'.own = t.own
  reminders : ∀ rem ∈ removed.reminders, ∃ rem' ∈ r.reminders, rem'.own = rem.own
  comments : ∀ c ∈ removed.comments,
    (∃ c' ∈ r.comments, c'.reminderId = c.reminderId ∧ c'.snap = c.snap) ∧
      ∃ rem ∈ r.reminders, rem.id = c.reminderId

theorem ClassMember.eq_of_snap {m m' : ClassMember} (hid : m.classId = m'.classId) (h : m.snap = m'.snap) :
    m = m' := by
  cases m
  cases m'
  simp only [ClassMember.snap, MemberSnap.mk.injEq] at h
  obtain ⟨rfl, rfl, rfl, rfl⟩ := h
  cases hid
  rfl

section Holds
variable {p : Closing} {r : Reads} {a : Archive} {removed : Live}

/-- **The archive that is written holds exactly what was read.** -/
theorem Archive.holds_close_iff (ha : a.EmptyOf p.schoolYearId)
    (husers : ∀ u ∈ removed.users, u.stableUid ∉ r.adminRecords)
    (htodos : ∀ t ∈ removed.todos, t.stableUid ∉ r.adminRecords) :
    Archive.Holds p.schoolYearId removed (a.close p r) ↔ r.Cover removed := by
  have hu : ∀ u ∈ removed.users, (∃ au ∈ (a.close p r).archivedUsers, au.schoolYearId = p.schoolYearId ∧
      au.own = u.own) ↔ ∃ u' ∈ r.users, u'.own = u.own := by
    intro u hu
    rw [Archive.close, exists_marked ha.archivedUsers fun _ => rfl]
    refine exists_congr fun u' => and_congr_left fun (heq : u'.own = u.own) => ?_
    have hstable : u'.stableUid = u.stableUid := congrArg ArchivedUser.stableUid heq
    simp [Reads.usersToArchive, hstable, husers u hu]
  have ht : ∀ t ∈ removed.todos, (∃ at' ∈ (a.close p r).archivedTodos, at'.schoolYearId = p.schoolYearId ∧
      at'.own = t.own) ↔ ∃ t' ∈ r.todos, t'.own = t.own := by
    intro t ht
    rw [Archive.close, exists_marked ha.archivedTodos fun _ => rfl]
    refine exists_congr fun t' => and_congr_left fun (heq : t'.own = t.own) => ?_
    have hstable : t'.stableUid = t.stableUid := congrArg ArchivedTodo.stableUid heq
    simp [Reads.todosToArchive, hstable, htodos t ht]
  have hc : ∀ c : Class, (∃ ac ∈ (a.close p r).archivedClasses, ac.schoolYearId = p.schoolYearId ∧
      ac.own = c.own) ↔ ∃ c' ∈ r.classes, c'.own = c.own := by
    intro c
    rw [Archive.close, exists_marked ha.archivedClasses fun _ => rfl]
    rfl
  have hr : ∀ rem : Reminder, (∃ ar ∈ (a.close p r).archivedReminders, ar.schoolYearId = p.schoolYearId ∧
      ar.own = rem.own) ↔ ∃ rem' ∈ r.reminders, rem'.own = rem.own := by
    intro rem
    rw [Archive.close, exists_marked ha.archivedReminders fun _ => rfl]
    rfl
  have hm : ∀ m : ClassMember, (∃ ac ∈ (a.close p r).archivedClasses, ac.schoolYearId = p.schoolYearId ∧
      ac.originalId = m.classId ∧ m.snap ∈ ac.membersJson) ↔
      m ∈ r.classMembersAll ∧ ∃ c ∈ r.classes, c.id = m.classId := by
    intro m
    rw [Archive.close, exists_marked ha.archivedClasses fun _ => rfl]
    constructor
    · rintro ⟨c, hc, hid, hsnap⟩
      obtain ⟨m', hm', heq⟩ := List.mem_map.mp hsnap
      obtain ⟨hm', hcid⟩ := List.mem_filter.mp hm'
      have hcid : m'.classId = c.id := by simpa using hcid
      obtain rfl := ClassMember.eq_of_snap (hcid.trans hid) heq
      exact ⟨hm', c, hc, hid⟩
    · rintro ⟨hmem, c, hc, hid⟩
      exact ⟨c, hc, hid, List.mem_map_of_mem (List.mem_filter.mpr ⟨hmem, by simpa using hid.symm⟩)⟩
  have hcm : ∀ c : Comment, (∃ ar ∈ (a.close p r).archivedReminders, ar.schoolYearId = p.schoolYearId ∧
      ar.originalId = c.reminderId ∧ c.snap ∈ ar.commentsJson) ↔
      (∃ c' ∈ r.comments, c'.reminderId = c.reminderId ∧ c'.snap = c.snap) ∧
        ∃ rem ∈ r.reminders, rem.id = c.reminderId := by
    intro c
    rw [Archive.close, exists_marked ha.archivedReminders fun _ => rfl]
    constructor
    · rintro ⟨rem, hrem, hid, hsnap⟩
      obtain ⟨c', hc', heq⟩ := List.mem_map.mp hsnap
      obtain ⟨hc', hrid⟩ := List.mem_filter.mp hc'
      have hrid : c'.reminderId = rem.id := by simpa using hrid
      exact ⟨⟨c', hc', hrid.trans hid, heq⟩, rem, hrem, hid⟩
    · rintro ⟨⟨c', hc', hrid, heq⟩, rem, hrem, hid⟩
      exact ⟨rem, hrem, hid, List.mem_map.mpr ⟨c', List.mem_filter.mpr ⟨hc', by simpa using hrid.trans hid.symm⟩,
        heq⟩⟩
  constructor
  · intro h
    exact ⟨fun u hmem => (hu u hmem).mp (h.users u hmem), fun c hmem => (hc c).mp (h.classes c hmem),
      fun m hmem => (hm m).mp (h.classMembers m hmem), fun t hmem => (ht t hmem).mp (h.todos t hmem),
      fun rem hmem => (hr rem).mp (h.reminders rem hmem), fun c hmem => (hcm c).mp (h.comments c hmem)⟩
  · intro h
    exact ⟨fun u hmem => (hu u hmem).mpr (h.users u hmem), fun c hmem => (hc c).mpr (h.classes c hmem),
      fun m hmem => (hm m).mpr (h.classMembers m hmem), fun t hmem => (ht t hmem).mpr (h.todos t hmem),
      fun rem hmem => (hr rem).mpr (h.reminders rem hmem), fun c hmem => (hcm c).mpr (h.comments c hmem)⟩

end Holds

namespace Interleaving

/-! ### The steps -/

/-- A database with the schema's keys. -/
abbrev Database := {db : Db // db.Sound}

inductive Table where
  | users | classMembers | classes | todos | reminders | comments | admins
  deriving DecidableEq, Repr

/-- What has been read so far. -/
structure Reading where
  users : Option (List User)
  classMembersAll : Option (List ClassMember)
  classes : Option (List Class)
  todos : Option (List Todo)
  reminders : Option (List Reminder)
  comments : Option (List Comment)
  adminRecords : Option (List String)
  deriving DecidableEq, Repr

def Reading.nothing : Reading := ⟨none, none, none, none, none, none, none⟩

def Reading.read (db : Db) (r : Reading) : Table → Reading
  | .users => { r with users := some db.live.users }
  | .classMembers => { r with classMembersAll := some db.live.classMembers }
  | .classes => { r with classes := some db.live.classes }
  | .todos => { r with todos := some db.live.todos }
  | .reminders => { r with reminders := some db.live.reminders }
  | .comments => { r with comments := some db.live.comments }
  | .admins => { r with adminRecords := some db.admins }

/-- The query has not been answered yet. -/
def Reading.pending (r : Reading) : Table → Bool
  | .users => r.users.isNone
  | .classMembers => r.classMembersAll.isNone
  | .classes => r.classes.isNone
  | .todos => r.todos.isNone
  | .reminders => r.reminders.isNone
  | .comments => r.comments.isNone
  | .admins => r.adminRecords.isNone

/-- Everything was read. -/
def Reading.complete (r : Reading) : Option Reads := do
  return ⟨← r.users, ← r.classMembersAll, ← r.classes, ← r.todos, ← r.reminders, ← r.comments,
    ← r.adminRecords⟩

inductive Stage where
  | opened | archived | classesDeleted | usersDeleted
  deriving DecidableEq, Repr

structure Tx where
  reads : Reads
  stage : Stage
  /-- The rows it has deleted; nobody else sees that yet. -/
  removed : Live
  deriving DecidableEq, Repr

inductive Phase where
  | starting
  | reading (r : Reading)
  | inTx (tx : Tx)
  | failed
  | committed
  deriving DecidableEq, Repr

structure World where
  /-- What is committed. -/
  db : Db
  phase : Phase
  deriving DecidableEq, Repr

inductive Action where
  /-- The year must not be closed already. -/
  | guard
  | read (t : Table)
  | begin
  /-- The year and the archive's rows are created. -/
  | archive
  | deleteClasses
  | deleteUsers
  | commit
  /-- A step fails: the transaction is rolled back, the error is thrown. -/
  | fail
  /-- Another write is committed. -/
  | write (db : Database)

/-- Another write can be committed: it waits for the rows and keys the transaction has locked. -/
def Phase.lets (p : Closing) (db : Db) : Phase → Bool
  | .inTx tx => decide (Live.Within tx.removed db.live) && (tx.stage = .opened || db.archive.admits p)
  | _ => true

def step (p : Closing) (w : World) : Action → Option World
  | .guard =>
      match w.phase with
      | .starting =>
          if (w.db.archive.schoolYears.any fun sy => sy.startYear = p.startYear) then
            some { w with phase := .failed }
          else some { w with phase := .reading .nothing }
      | _ => none
  | .read t =>
      match w.phase with
      | .reading r => if r.pending t then some { w with phase := .reading (r.read w.db t) } else none
      | _ => none
  | .begin =>
      match w.phase with
      | .reading r => r.complete.map fun reads => { w with phase := .inTx ⟨reads, .opened, .empty⟩ }
      | _ => none
  | .archive =>
      match w.phase with
      | .inTx ⟨reads, .opened, removed⟩ =>
          if w.db.archive.admits p then some { w with phase := .inTx ⟨reads, .archived, removed⟩ }
          else some { w with phase := .failed }
      | _ => none
  | .deleteClasses =>
      match w.phase with
      | .inTx ⟨reads, .archived, removed⟩ =>
          some { w with phase := .inTx ⟨reads, .classesDeleted, removed.union w.db.live.withClasses⟩ }
      | _ => none
  | .deleteUsers =>
      match w.phase with
      | .inTx ⟨reads, .classesDeleted, removed⟩ =>
          let removed := removed.union (w.db.live.withUsers reads.adminRecords)
          some { w with phase := .inTx ⟨reads, .usersDeleted, removed⟩ }
      | _ => none
  | .commit =>
      match w.phase with
      | .inTx ⟨reads, .usersDeleted, removed⟩ =>
          let live := w.db.live.without removed
          some ⟨{ w.db with live, archive := w.db.archive.close p reads }, .committed⟩
      | _ => none
  | .fail =>
      match w.phase with
      | .failed | .committed => none
      | _ => some { w with phase := .failed }
  | .write db => if w.phase.lets p db.1 then some { w with db := db.1 } else none

/-- Before the rollover. -/
def World.start (db : Database) : World := ⟨db.1, .starting⟩

/-- What a step leaves committed, if it is no commit of the rollover. -/
def Action.leaves (db : Database) : Action → Database
  | .write db' => db'
  | _ => db

/-- The database as the other writes leave it. -/
def lastWrite (db : Database) (as : List Action) : Database := as.foldl Action.leaves db

/-- All tables read, one after the other. -/
def readAll : List Action :=
  [.guard, .read .users, .read .classMembers, .read .classes, .read .todos, .read .reminders,
    .read .comments, .read .admins]

def untilCommit : List Action := [.begin, .archive, .deleteClasses, .deleteUsers]

/-- **With no other writes the steps are `performRollover`.** -/
theorem rollover_alone {p : Closing} {db : Database} {res : RolloverResult} {db₁ : Db}
    (h : performRollover p db.1 = .ok (res, db₁)) :
    run (step p) (.start db) (readAll ++ untilCommit ++ [.commit]) = some ⟨db₁, .committed⟩ := by
  obtain ⟨hadm, rfl⟩ := performRollover_ok h
  have hnew : (db.1.archive.schoolYears.any fun sy => sy.startYear = p.startYear) = false := by
    simpa using fun sy hsy => (Archive.admits_iff.mp hadm sy hsy).2.2
  have hguard : step p (.start db) .guard = some ⟨db.1, .reading .nothing⟩ := by
    simp [step, World.start, hnew]
  have harchive : step p ⟨db.1, .inTx ⟨db.1.read, .opened, .empty⟩⟩ .archive =
      some ⟨db.1, .inTx ⟨db.1.read, .archived, .empty⟩⟩ := by
    simp [step, hadm]
  have hlive := Live.without_deleted db.1.live db.1.admins
  refine run_cons_eq_some.mpr ⟨_, hguard, ?_⟩
  -- the reads and the opening of the transaction
  refine (show run (step p) ⟨db.1, .reading .nothing⟩ _ = run (step p) ⟨db.1, .inTx ⟨db.1.read, .opened, .empty⟩⟩
    [.archive, .deleteClasses, .deleteUsers, .commit] from rfl).trans ?_
  refine run_cons_eq_some.mpr ⟨_, harchive, ?_⟩
  exact congrArg (fun live => some (World.mk ⟨live, db.1.admins, db.1.archive.close p db.1.read⟩ .committed)) hlive

/-! ### Nothing happens before the commit -/

/-- What a step leaves of the database. -/
theorem step_db {p : Closing} {w w' : World} {a : Action} {db : Database} (h : step p w a = some w')
    (hdb : w.phase ≠ .committed → w.db = db.1) (hne : w'.phase ≠ .committed) : w'.db = (a.leaves db).1 := by
  cases a with
  | write db' =>
      obtain ⟨-, ⟨⟩⟩ := Option.ite_none_right_eq_some.mp h
      rfl
  | guard =>
      simp only [step] at h
      split at h
      · next hp => split at h <;> cases h <;> exact hdb (by simp [hp])
      · cases h
  | read t =>
      simp only [step] at h
      split at h
      · next hp => split at h <;> cases h; exact hdb (by simp [hp])
      · cases h
  | «begin» =>
      simp only [step] at h
      split at h
      · next hp =>
          obtain ⟨reads, -, rfl⟩ := Option.map_eq_some_iff.mp h
          exact hdb (by simp [hp])
      · cases h
  | archive =>
      simp only [step] at h
      split at h
      · next hp => split at h <;> cases h <;> exact hdb (by simp [hp])
      · cases h
  | deleteClasses =>
      simp only [step] at h
      split at h
      · next hp => cases h; exact hdb (by simp [hp])
      · cases h
  | deleteUsers =>
      simp only [step] at h
      split at h
      · next hp => cases h; exact hdb (by simp [hp])
      · cases h
  | commit =>
      simp only [step] at h
      split at h
      · cases h; exact absurd rfl hne
      · cases h
  | fail =>
      simp only [step] at h
      split at h
      · cases h
      · cases h
      · cases h; exact hdb ‹_›

/-- **The rollover is atomic**: as long as it has not committed, and for good when it fails, the
database is what the other writes made it. -/
theorem rollover_atomic {p : Closing} {db : Database} {as : List Action} {w : World}
    (h : run (step p) (.start db) as = some w) (hne : w.phase ≠ .committed) :
    w.db = (lastWrite db as).1 := by
  refine run_splits (P := fun pre w => w.phase ≠ .committed → w.db = (lastWrite db pre).1) (fun _ => rfl)
    (fun pre a post s₁ s₂ _ _ hs₁ hstep hne' => ?_) h hne
  rw [step_db hstep hs₁ hne', lastWrite, lastWrite, List.foldl_append]
  rfl

/-! ### What the commit removes -/

/-- What holds of the transaction while it is open. -/
structure Tx.Inv (p : Closing) (db : Db) (tx : Tx) : Prop where
  /-- The year's keys were free when it was created and are locked since. -/
  admits : tx.stage ≠ .opened → db.archive.admits p = true
  users : ∀ u ∈ tx.removed.users, u.stableUid ∉ tx.reads.adminRecords
  todos : ∀ t ∈ tx.removed.todos, t.stableUid ∉ tx.reads.adminRecords

theorem inv_step {p : Closing} {w w' : World} {a : Action} (hi : ∀ tx, w.phase = .inTx tx → tx.Inv p w.db)
    (h : step p w a = some w') : ∀ tx, w'.phase = .inTx tx → tx.Inv p w'.db := by
  intro tx htx
  cases a with
  | write db' =>
      obtain ⟨hlets, ⟨⟩⟩ := Option.ite_none_right_eq_some.mp h
      have htx : w.phase = .inTx tx := htx
      rw [htx, Phase.lets, Bool.and_eq_true, Bool.or_eq_true, decide_eq_true_iff] at hlets
      exact ⟨fun hne => hlets.2.resolve_left (by simpa using hne), (hi tx htx).users, (hi tx htx).todos⟩
  | guard =>
      simp only [step] at h
      split at h
      · split at h <;> cases h <;> cases htx
      · cases h
  | read t =>
      simp only [step] at h
      split at h
      · split at h <;> cases h
        cases htx
      · cases h
  | «begin» =>
      simp only [step] at h
      split at h
      · obtain ⟨reads, -, rfl⟩ := Option.map_eq_some_iff.mp h
        cases htx
        exact ⟨fun hne => absurd rfl hne, by simp [Live.empty], by simp [Live.empty]⟩
      · cases h
  | archive =>
      simp only [step] at h
      split at h
      · next reads removed hp =>
          split at h
          · next hadm =>
              cases h
              cases htx
              exact ⟨fun _ => hadm, (hi _ hp).users, (hi _ hp).todos⟩
          · cases h
            cases htx
      · cases h
  | deleteClasses =>
      simp only [step] at h
      split at h
      · next reads removed hp =>
          cases h
          cases htx
          exact ⟨fun _ => (hi _ hp).admits (by simp), by simpa [Live.union, Live.withClasses] using (hi _ hp).users,
            by simpa [Live.union, Live.withClasses] using (hi _ hp).todos⟩
      · cases h
  | deleteUsers =>
      simp only [step] at h
      split at h
      · next reads removed hp =>
          cases h
          cases htx
          refine ⟨fun _ => (hi _ hp).admits (by simp), fun u hu => ?_, fun t ht => ?_⟩
          · rcases List.mem_append.mp hu with hu | hu
            · exact (hi _ hp).users u hu
            · simpa using (List.mem_filter.mp hu).2
          · rcases List.mem_append.mp ht with ht | ht
            · exact (hi _ hp).todos t ht
            · obtain ⟨u, hu, huid⟩ := List.mem_map.mp (of_decide_eq_true (List.mem_filter.mp ht).2)
              rw [← huid]
              simpa using (List.mem_filter.mp hu).2
      · cases h
  | commit =>
      simp only [step] at h
      split at h
      · cases h
        cases htx
      · cases h
  | fail =>
      simp only [step] at h
      split at h
      · cases h
      · cases h
      · cases h
        cases htx

theorem run_inv {p : Closing} {db : Database} {as : List Action} {w : World}
    (h : run (step p) (.start db) as = some w) : ∀ tx, w.phase = .inTx tx → tx.Inv p w.db :=
  run_invariant (P := fun w => ∀ tx, w.phase = .inTx tx → tx.Inv p w.db)
    (fun _ _ _ hi hs => inv_step hi hs) (fun tx htx => by cases htx) h

/-- The rows a commit removes. -/
theorem mem_without_commit {l removed : Live} :
    (∀ u ∈ (l.without (l.without removed)).users, u ∈ removed.users) ∧
      ∀ t ∈ (l.without (l.without removed)).todos, t ∈ removed.todos := by
  constructor <;> intro x hx <;> simp only [Live.without, List.mem_filter, decide_eq_true_eq] at hx <;>
    exact by_contra fun hno => hx.2 ⟨hx.1, hno⟩

/-- **What a rollover loses.**  Whatever else is committed between its steps: until it commits, and for
good when it fails, the database is what the other writes made it; and its commit leaves every row it
removes in the archive exactly when each of them was there with the same values when its table was
read. -/
theorem rollover_lossless_iff {p : Closing} {db : Database} {as : List Action} {w : World}
    (h : run (step p) (.start db) as = some w) :
    (w.phase ≠ .committed → w.db = (lastWrite db as).1) ∧
      ∀ w', step p w .commit = some w' →
        ∃ tx, w.phase = .inTx tx ∧
          (w'.db.archive.Holds p.schoolYearId (w.db.live.without w'.db.live) ↔
            tx.reads.Cover (w.db.live.without w'.db.live)) := by
  refine ⟨rollover_atomic h, fun w' hc => ?_⟩
  simp only [step] at hc
  split at hc
  · next reads removed hp =>
      cases hc
      refine ⟨_, hp, ?_⟩
      have hi := run_inv h _ hp
      have hsound : w.db.Sound := by
        rw [rollover_atomic h (by simp [hp])]
        exact (lastWrite db as).2
      obtain ⟨hu, ht⟩ := mem_without_commit (l := w.db.live)
      exact Archive.holds_close_iff (hsound.archive.fresh (hi.admits (by simp)))
        (fun u hmem => hi.users u (hu u hmem)) fun t hmem => hi.todos t (ht t hmem)
  · cases hc

def homework : Todo := ⟨"t", "pupil", "Test", "", none, false, none, none, none, 1⟩

/-- A school with one pupil. -/
def pupilSchoolEmpty : Database :=
  ⟨⟨⟨[freshAccount "pupil"], [], [], [], [], []⟩, [], ⟨[], [], [], [], [], []⟩⟩,
    by constructor <;> constructor <;> decide⟩

/-- The same with a to-do. -/
def pupilSchoolHomework : Database :=
  ⟨⟨⟨[freshAccount "pupil"], [], [], [homework], [], []⟩, [], ⟨[], [], [], [], [], []⟩⟩,
    by constructor <;> constructor <;> decide⟩

theorem rollover_lossless_homework :
    ∃ w w', run (step closing2025) (.start pupilSchoolHomework) (readAll ++ untilCommit) = some w ∧
      step closing2025 w .commit = some w' ∧
      w'.db.archive.Holds "y" (w.db.live.without w'.db.live) := by
  refine ⟨_, _, rfl, rfl, ?_⟩
  have h := @rollover_lossless_iff closing2025 pupilSchoolHomework (readAll ++ untilCommit) _ rfl
  obtain ⟨tx, htx, hiff⟩ := h.2 _ rfl
  refine hiff.mpr ?_
  cases htx
  constructor <;> decide

/-- **A to-do saved between the reads and the deletion is lost.** -/
theorem rollover_loses :
    ∃ w w', run (step closing2025) (.start pupilSchoolEmpty)
        (readAll ++ .write pupilSchoolHomework :: untilCommit) = some w ∧
      step closing2025 w .commit = some w' ∧ homework ∈ w.db.live.todos ∧ homework ∉ w'.db.live.todos ∧
      ¬ w'.db.archive.Holds "y" (w.db.live.without w'.db.live) := by
  refine ⟨_, _, rfl, rfl, by decide, by decide, fun h => ?_⟩
  obtain ⟨_, hmem, -⟩ := h.todos homework (by decide)
  exact absurd hmem List.not_mem_nil

end Interleaving

end Pokyh.School

import Mathlib.Data.List.MinMax
import Pokyh.Lib.Groups
import Pokyh.School.Records

/-!
# School — Rollover

Closing a school year and taking that back (`schoolYearArchiver.ts`).  `performRollover` reads the
tables, archives what it read and deletes all classes and the accounts that are no admins.
`rollbackRollover` puts the archived rows of the latest year back, each that is not there already, and
deletes the archive.

Here the two run alone; `Interleaving` has other writes in between.
-/

namespace Pokyh.School
open Pokyh.Lib

/-! ### Archiving -/

/-- What `performRollover` has read when it opens its transaction. -/
structure Reads where
  users : List User
  classMembersAll : List ClassMember
  classes : List Class
  todos : List Todo
  reminders : List Reminder
  comments : List Comment
  adminRecords : List String
  deriving DecidableEq, Repr

def Db.read (db : Db) : Reads where
  users := db.live.users
  classMembersAll := db.live.classMembers
  classes := db.live.classes
  todos := db.live.todos
  reminders := db.live.reminders
  comments := db.live.comments
  adminRecords := db.admins

/-- What a rollover is asked to do, and the year's figures it works out on the way. -/
structure Closing where
  now : Time
  startYear : ℤ
  label : String
  note : String
  /-- The id the database gives the year. -/
  schoolYearId : String
  activity : List (String × Activity)

def Closing.schoolYear (p : Closing) : SchoolYear where
  id := p.schoolYearId
  label := p.label
  startYear := p.startYear
  rolledAt := p.now
  note := p.note

namespace Reads

variable (r : Reads) (schoolYearId : String)

def usersToArchive : List User := r.users.filter fun u => u.stableUid ∉ r.adminRecords

def todosToArchive : List Todo := r.todos.filter fun t => t.stableUid ∉ r.adminRecords

def classMembersByClass (classId : String) : List ClassMember :=
  r.classMembersAll.filter fun m => m.classId = classId

def primaryClassByUser (stableUid : String) : Option ClassMember :=
  r.classMembersAll.find? fun m => m.stableUid = stableUid

def classNameMap : String → Option String := mapOf (r.classes.map fun c => (c.id, c.name))

def classCodeMap : String → Option String := mapOf (r.classes.map fun c => (c.id, c.code))

def commentsByReminder (reminderId : String) : List Comment :=
  r.comments.filter fun c => c.reminderId = reminderId

def usernameByUid : String → Option String := mapOf (r.users.map fun u => (u.stableUid, u.username))

def archivedUser (u : User) : ArchivedUser :=
  let cm := r.primaryClassByUser u.stableUid
  { schoolYearId
    stableUid := u.stableUid
    username := u.username
    role := u.role
    webuntisKlasseId := u.webuntisKlasseId
    webuntisKlasseName := u.webuntisKlasseName
    classId := cm.map ClassMember.classId
    classCode := cm.bind fun m => r.classCodeMap m.classId
    className := cm.bind fun m => r.classNameMap m.classId
    schoolId := u.schoolId
    roleLocked := u.roleLocked
    localOrigin := u.localOrigin
    createdAt := u.createdAt }

def archivedActivity (entry : String × Activity) : ArchivedActivity where
  schoolYearId
  stableUid := entry.1
  username := (r.usernameByUid entry.1).getD ""
  activity := entry.2

end Reads

def ClassMember.snap (m : ClassMember) : MemberSnap where
  stableUid := m.stableUid
  username := m.username
  role := m.role
  joinedAt := m.joinedAt

def Comment.snap (c : Comment) : CommentSnap where
  id := c.id
  stableUid := c.stableUid
  username := c.username
  body := c.body
  createdAt := c.createdAt

namespace Reads

variable (r : Reads) (schoolYearId : String)

def archivedClass (c : Class) : ArchivedClass :=
  let members := r.classMembersByClass c.id
  { schoolYearId
    originalId := c.id
    name := c.name
    code := c.code
    webuntisKlasseId := c.webuntisKlasseId
    createdBy := c.createdBy
    createdByName := c.createdByName
    memberCount := members.length
    membersJson := members.map ClassMember.snap
    schoolId := c.schoolId
    createdAt := c.createdAt }

def archivedTodo (t : Todo) : ArchivedTodo where
  schoolYearId
  originalId := t.id
  stableUid := t.stableUid
  username := (r.usernameByUid t.stableUid).getD ""
  title := t.title
  details := t.details
  dueAt := t.dueAt
  done := t.done
  doneAt := t.doneAt
  archivedAt := t.archivedAt
  createdAt := t.createdAt

def archivedReminder (rem : Reminder) : ArchivedReminder where
  schoolYearId
  originalId := rem.id
  classId := rem.classId
  className := (r.classNameMap rem.classId).getD ""
  title := rem.title
  body := rem.body
  remindAt := rem.remindAt
  createdBy := rem.createdBy
  createdByName := rem.createdByName
  createdByUsername := rem.createdByUsername
  archivedAt := rem.archivedAt
  commentsJson := (r.commentsByReminder rem.id).map Comment.snap
  createdAt := rem.createdAt

end Reads

/-- The archive with the year and everything read for it. -/
def Archive.close (p : Closing) (r : Reads) (a : Archive) : Archive where
  schoolYears := a.schoolYears ++ [p.schoolYear]
  archivedUsers := a.archivedUsers ++ r.usersToArchive.map (r.archivedUser p.schoolYearId)
  archivedActivity := a.archivedActivity ++ p.activity.map (r.archivedActivity p.schoolYearId)
  archivedClasses := a.archivedClasses ++ r.classes.map (r.archivedClass p.schoolYearId)
  archivedTodos := a.archivedTodos ++ r.todosToArchive.map (r.archivedTodo p.schoolYearId)
  archivedReminders := a.archivedReminders ++ r.reminders.map (r.archivedReminder p.schoolYearId)

/-- The year's unique keys are free. -/
def Archive.admits (a : Archive) (p : Closing) : Bool :=
  a.schoolYears.all fun sy => sy.id ≠ p.schoolYearId && sy.label ≠ p.label && sy.startYear ≠ p.startYear

/-! ### The archive of the year -/

/-- The archive holds nothing of a year. -/
structure Archive.EmptyOf (id : String) (a : Archive) : Prop where
  schoolYears : ∀ sy ∈ a.schoolYears, sy.id ≠ id
  archivedUsers : ∀ u ∈ a.archivedUsers, u.schoolYearId ≠ id
  archivedActivity : ∀ u ∈ a.archivedActivity, u.schoolYearId ≠ id
  archivedClasses : ∀ c ∈ a.archivedClasses, c.schoolYearId ≠ id
  archivedTodos : ∀ t ∈ a.archivedTodos, t.schoolYearId ≠ id
  archivedReminders : ∀ r ∈ a.archivedReminders, r.schoolYearId ≠ id

section Archive
variable {p : Closing} {a : Archive}

theorem Archive.admits_iff :
    a.admits p = true ↔ ∀ sy ∈ a.schoolYears, sy.id ≠ p.schoolYearId ∧ sy.label ≠ p.label ∧
      sy.startYear ≠ p.startYear := by
  simp [Archive.admits, and_assoc]

theorem Archive.Sound.fresh (ha : a.Sound) (h : a.admits p = true) : a.EmptyOf p.schoolYearId := by
  have hid : ∀ sy ∈ a.schoolYears, sy.id ≠ p.schoolYearId := fun sy hsy => (Archive.admits_iff.mp h sy hsy).1
  constructor
  · exact hid
  · intro u hu he
    obtain ⟨sy, hsy, hs⟩ := ha.user u hu
    exact hid sy hsy (hs.trans he)
  · intro u hu he
    obtain ⟨sy, hsy, hs⟩ := ha.activity u hu
    exact hid sy hsy (hs.trans he)
  · intro c hc he
    obtain ⟨sy, hsy, hs⟩ := ha.class c hc
    exact hid sy hsy (hs.trans he)
  · intro t ht he
    obtain ⟨sy, hsy, hs⟩ := ha.todo t ht
    exact hid sy hsy (hs.trans he)
  · intro r hr he
    obtain ⟨sy, hsy, hs⟩ := ha.reminder r hr
    exact hid sy hsy (hs.trans he)

/-- Deleting the year leaves nothing of it. -/
theorem Archive.emptyOf_deleteYear (id : String) (a : Archive) : (a.deleteYear id).EmptyOf id := by
  constructor <;> intro x hx <;> simpa using (List.mem_filter.mp hx).2

end Archive

/-! ### The rollover -/

inductive RolloverError where
  /-- „Rollover für Schuljahr … wurde bereits am … durchgeführt" -/
  | alreadyDone (label : String) (rolledAt : Time)
  /-- A unique key of the year is taken: the transaction fails. -/
  | uniqueKey
  deriving DecidableEq, Repr

structure RolloverResult where
  label : String
  usersArchived : ℕ
  activityArchived : ℕ
  classesArchived : ℕ
  todosArchived : ℕ
  remindersArchived : ℕ
  deriving DecidableEq, Repr

def Reads.result (r : Reads) (p : Closing) : RolloverResult where
  label := p.label
  usersArchived := r.usersToArchive.length
  activityArchived := p.activity.length
  classesArchived := r.classes.length
  todosArchived := r.todosToArchive.length
  remindersArchived := r.reminders.length

/-- All classes and the accounts that are not retained are deleted. -/
def Live.deleteYear (retained : List String) (l : Live) : Live :=
  (l.deleteClasses fun _ => true).deleteUsers fun u => u.stableUid ∉ retained

def performRollover (p : Closing) (db : Db) : Except RolloverError (RolloverResult × Db) :=
  match db.archive.schoolYears.find? fun sy => sy.startYear = p.startYear with
  | some existing => .error (.alreadyDone p.label existing.rolledAt)
  | none =>
      let r := db.read
      if db.archive.admits p then
        .ok (r.result p,
          { db with live := db.live.deleteYear r.adminRecords, archive := db.archive.close p r })
      else .error .uniqueKey

/-- The database after the rollover. -/
def Db.closed (p : Closing) (db : Db) : Db where
  live := db.live.deleteYear db.admins
  admins := db.admins
  archive := db.archive.close p db.read

theorem performRollover_ok {p : Closing} {db db₁ : Db} {res : RolloverResult} (h : performRollover p db = .ok (res, db₁)) :
    db.archive.admits p = true ∧ db₁ = db.closed p := by
  unfold performRollover at h
  split at h
  · cases h
  · split at h
    · cases h
      exact ⟨‹_›, rfl⟩
    · cases h

/-! ### The rollback -/

inductive RollbackError where
  /-- „Archiviertes Schuljahr nicht gefunden" -/
  | notFound
  /-- „Nur das zuletzt archivierte Schuljahr (…) kann rückgängig gemacht werden" -/
  | notLatest (label : String)
  deriving DecidableEq, Repr

structure RollbackResult where
  label : String
  usersRestored : ℕ
  classesRestored : ℕ
  membersRestored : ℕ
  todosRestored : ℕ
  remindersRestored : ℕ
  commentsRestored : ℕ
  deriving DecidableEq, Repr

/-- When a rollback runs and the ids the database gives the accounts it puts back. -/
structure Reopening where
  now : Time
  newId : String → String

/-- An account as it is put back; what is not given takes the column's default. -/
def ArchivedUser.restored (q : Reopening) (u : ArchivedUser) : User where
  id := q.newId u.stableUid
  stableUid := u.stableUid
  username := u.username
  role := u.role
  roleLocked := u.roleLocked
  webuntisKlasseId := u.webuntisKlasseId
  webuntisKlasseName := u.webuntisKlasseName
  schoolId := u.schoolId
  createdAt := u.createdAt
  classCheckVersion := 0
  classCheckedAt := none
  passwordHash := none
  isUntisUser := true
  webuntisPersonId := none
  classSource := none
  classNote := none
  localOrigin := none
  updatedAt := q.now

def ArchivedClass.restored (c : ArchivedClass) : Class where
  id := c.originalId
  name := c.name
  code := c.code
  webuntisKlasseId := c.webuntisKlasseId
  createdBy := c.createdBy
  createdByName := c.createdByName
  schoolId := c.schoolId
  createdAt := c.createdAt

def ArchivedClass.restoredMembers (c : ArchivedClass) : List ClassMember :=
  c.membersJson.map fun m =>
    { classId := c.originalId
      stableUid := m.stableUid
      username := m.username
      role := m.role
      joinedAt := m.joinedAt }

def ArchivedTodo.restored (t : ArchivedTodo) : Todo where
  id := t.originalId
  stableUid := t.stableUid
  title := t.title
  details := t.details
  dueAt := t.dueAt
  done := t.done
  doneAt := t.doneAt
  archivedAt := t.archivedAt
  createdAt := t.createdAt
  notifiedAt := none

def ArchivedReminder.restored (r : ArchivedReminder) : Reminder where
  id := r.originalId
  classId := r.classId
  title := r.title
  body := r.body
  remindAt := r.remindAt
  createdBy := r.createdBy
  createdByName := r.createdByName
  createdByUsername := r.createdByUsername
  archivedAt := r.archivedAt
  createdAt := r.createdAt
  notifiedAt := none

def ArchivedReminder.restoredComments (q : Reopening) (r : ArchivedReminder) : List Comment :=
  r.commentsJson.map fun c =>
    { id := c.id
      reminderId := r.originalId
      classId := r.classId
      stableUid := c.stableUid
      username := c.username
      body := c.body
      createdAt := c.createdAt
      updatedAt := q.now }

/-- The live tables with a year's archived rows put back where nothing is in their place. -/
def Live.reopen (q : Reopening) (id : String) (a : Archive) (l : Live) : Live :=
  let users := insertIgnore (free User.clash) l.users
    ((a.archivedUsers.filter fun u => u.schoolYearId = id).map (ArchivedUser.restored q))
  let archivedClasses := a.archivedClasses.filter fun c => c.schoolYearId = id
  let classes := insertIgnore (free Class.clash) l.classes (archivedClasses.map ArchivedClass.restored)
  let classMembers := insertIgnore
    (fun t m => free ClassMember.clash t m &&
      (classes.any (fun c => c.id = m.classId) && users.any fun u => u.stableUid = m.stableUid))
    l.classMembers (archivedClasses.flatMap ArchivedClass.restoredMembers)
  let todos := insertIgnore
    (fun t r => free Todo.clash t r && users.any fun u => u.stableUid = r.stableUid)
    l.todos ((a.archivedTodos.filter fun t => t.schoolYearId = id).map ArchivedTodo.restored)
  let archivedReminders := a.archivedReminders.filter fun r => r.schoolYearId = id
  let reminders := insertIgnore
    (fun t r => free Reminder.clash t r && classes.any fun c => c.id = r.classId)
    l.reminders (archivedReminders.map ArchivedReminder.restored)
  let comments := insertIgnore
    (fun t c => free Comment.clash t c && reminders.any fun r => r.id = c.reminderId)
    l.comments (archivedReminders.flatMap (ArchivedReminder.restoredComments q))
  { users, classMembers, classes, todos, reminders, comments }

/-- The school year that began last. -/
def latestYear (years : List SchoolYear) : Option SchoolYear :=
  @List.argmax _ _ Int.instLinearOrder.toPreorder (inferInstanceAs (DecidableLT ℤ)) SchoolYear.startYear years

def rollbackRollover (q : Reopening) (schoolYearId : String) (db : Db) :
    Except RollbackError (RollbackResult × Db) :=
  match db.archive.schoolYears.find? fun sy => sy.id = schoolYearId with
  | none => .error .notFound
  | some sy =>
      match latestYear db.archive.schoolYears with
      | some latest =>
          if latest.id ≠ sy.id then .error (.notLatest latest.label)
          else
            let live := db.live.reopen q schoolYearId db.archive
            .ok (
              { label := sy.label
                usersRestored := live.users.length - db.live.users.length
                classesRestored := live.classes.length - db.live.classes.length
                membersRestored := live.classMembers.length - db.live.classMembers.length
                todosRestored := live.todos.length - db.live.todos.length
                remindersRestored := live.reminders.length - db.live.reminders.length
                commentsRestored := live.comments.length - db.live.comments.length },
              { db with live, archive := db.archive.deleteYear schoolYearId })
      | none => .error .notFound

/-! ### A year and an account -/

/-- An account that nothing but its sign-in has touched. -/
def freshAccount (stableUid : String) : User where
  id := stableUid
  stableUid
  username := stableUid
  webuntisKlasseId := 0
  webuntisKlasseName := ""
  classCheckVersion := 0
  classCheckedAt := none
  passwordHash := none
  isUntisUser := true
  role := "student"
  roleLocked := false
  webuntisPersonId := none
  classSource := none
  classNote := none
  localOrigin := none
  schoolId := none
  createdAt := 0
  updatedAt := 9

def closing2025 : Closing where
  now := 5
  startYear := 2025
  label := "2025/2026"
  note := ""
  schoolYearId := "y"
  activity := []

end Pokyh.School

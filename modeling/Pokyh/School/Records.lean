import Mathlib.Data.Int.Notation
import Mathlib.Data.List.Basic
import Pokyh.Lib.Rows

/-!
# School — Records

The tables a school year is made of, as `schema.prisma` has them: accounts, classes with their members,
to-dos, reminders with their comments, and the archive of the years that were closed.  Deleting rows
takes the rows that refer to them along (`onDelete: Cascade`).

Archive tables keep members and comments as JSON text; here they are the values the text is made of.
-/

namespace Pokyh.School
open Pokyh.Lib

/-- A date in milliseconds. -/
abbrev Time := ℤ

structure User where
  id : String
  stableUid : String
  username : String
  webuntisKlasseId : ℤ
  webuntisKlasseName : String
  classCheckVersion : ℤ
  classCheckedAt : Option Time
  passwordHash : Option String
  isUntisUser : Bool
  role : String
  roleLocked : Bool
  webuntisPersonId : Option ℤ
  classSource : Option String
  classNote : Option String
  localOrigin : Option String
  schoolId : Option String
  createdAt : Time
  updatedAt : Time
  deriving DecidableEq, Repr

structure Class where
  id : String
  name : String
  code : String
  webuntisKlasseId : ℤ
  createdBy : String
  createdByName : String
  schoolId : Option String
  createdAt : Time
  deriving DecidableEq, Repr

structure ClassMember where
  classId : String
  stableUid : String
  username : String
  role : String
  joinedAt : Time
  deriving DecidableEq, Repr

structure Todo where
  id : String
  stableUid : String
  title : String
  details : String
  dueAt : Option Time
  done : Bool
  doneAt : Option Time
  notifiedAt : Option Time
  archivedAt : Option Time
  createdAt : Time
  deriving DecidableEq, Repr

structure Reminder where
  id : String
  classId : String
  title : String
  body : String
  remindAt : Time
  createdBy : String
  createdByName : String
  createdByUsername : String
  notifiedAt : Option Time
  archivedAt : Option Time
  createdAt : Time
  deriving DecidableEq, Repr

structure Comment where
  id : String
  reminderId : String
  classId : String
  stableUid : String
  username : String
  body : String
  createdAt : Time
  updatedAt : Time
  deriving DecidableEq, Repr

/-! ### The archive -/

structure SchoolYear where
  id : String
  label : String
  startYear : ℤ
  rolledAt : Time
  note : String
  deriving DecidableEq, Repr

structure ArchivedUser where
  schoolYearId : String
  stableUid : String
  username : String
  role : String
  webuntisKlasseId : ℤ
  webuntisKlasseName : String
  classId : Option String
  classCode : Option String
  className : Option String
  schoolId : Option String
  roleLocked : Bool
  localOrigin : Option String
  createdAt : Time
  deriving DecidableEq, Repr

/-- What `membersJson` keeps of a member. -/
structure MemberSnap where
  stableUid : String
  username : String
  role : String
  joinedAt : Time
  deriving DecidableEq, Repr

structure ArchivedClass where
  schoolYearId : String
  originalId : String
  name : String
  code : String
  webuntisKlasseId : ℤ
  createdBy : String
  createdByName : String
  memberCount : ℕ
  membersJson : List MemberSnap
  schoolId : Option String
  createdAt : Time
  deriving DecidableEq, Repr

structure ArchivedTodo where
  schoolYearId : String
  originalId : String
  stableUid : String
  username : String
  title : String
  details : String
  dueAt : Option Time
  done : Bool
  doneAt : Option Time
  archivedAt : Option Time
  createdAt : Time
  deriving DecidableEq, Repr

/-- What `commentsJson` keeps of a comment. -/
structure CommentSnap where
  id : String
  stableUid : String
  username : String
  body : String
  createdAt : Time
  deriving DecidableEq, Repr

structure ArchivedReminder where
  schoolYearId : String
  originalId : String
  classId : String
  className : String
  title : String
  body : String
  remindAt : Time
  createdBy : String
  createdByName : String
  createdByUsername : String
  archivedAt : Option Time
  commentsJson : List CommentSnap
  createdAt : Time
  deriving DecidableEq, Repr

/-- An account's year in figures, as `yearSummaries` gives them. -/
structure Activity where
  activeDays : ℕ
  logins : ℕ
  activeSeconds : ℕ
  summaryJson : String
  deriving DecidableEq, Repr

structure ArchivedActivity where
  schoolYearId : String
  stableUid : String
  username : String
  activity : Activity
  deriving DecidableEq, Repr

structure Archive where
  schoolYears : List SchoolYear
  archivedUsers : List ArchivedUser
  archivedActivity : List ArchivedActivity
  archivedClasses : List ArchivedClass
  archivedTodos : List ArchivedTodo
  archivedReminders : List ArchivedReminder
  deriving DecidableEq, Repr

/-! ### The live tables -/

structure Live where
  users : List User
  classMembers : List ClassMember
  classes : List Class
  todos : List Todo
  reminders : List Reminder
  comments : List Comment
  deriving DecidableEq, Repr

structure Db where
  live : Live
  /-- `admins`: the accounts that may use the panel. -/
  admins : List String
  archive : Archive
  deriving DecidableEq, Repr

/-! ### Keys -/

def User.clash (a b : User) : Prop :=
  a.id = b.id ∨ a.stableUid = b.stableUid ∨ a.username = b.username

def Class.clash (a b : Class) : Prop := a.id = b.id ∨ a.code = b.code

def ClassMember.clash (a b : ClassMember) : Prop := a.classId = b.classId ∧ a.stableUid = b.stableUid

def Todo.clash (a b : Todo) : Prop := a.id = b.id

def Reminder.clash (a b : Reminder) : Prop := a.id = b.id

def Comment.clash (a b : Comment) : Prop := a.id = b.id

instance : DecidableRel User.clash := fun a b =>
  inferInstanceAs (Decidable (a.id = b.id ∨ a.stableUid = b.stableUid ∨ a.username = b.username))

instance : DecidableRel Class.clash := fun a b => inferInstanceAs (Decidable (a.id = b.id ∨ a.code = b.code))

instance : DecidableRel ClassMember.clash := fun a b =>
  inferInstanceAs (Decidable (a.classId = b.classId ∧ a.stableUid = b.stableUid))

instance : DecidableRel Todo.clash := fun a b => inferInstanceAs (Decidable (a.id = b.id))

instance : DecidableRel Reminder.clash := fun a b => inferInstanceAs (Decidable (a.id = b.id))

instance : DecidableRel Comment.clash := fun a b => inferInstanceAs (Decidable (a.id = b.id))

theorem User.clash_symm (a b : User) : a.clash b → b.clash a :=
  .imp Eq.symm (.imp Eq.symm Eq.symm)

theorem Class.clash_symm (a b : Class) : a.clash b → b.clash a := .imp Eq.symm Eq.symm

theorem ClassMember.clash_symm (a b : ClassMember) : a.clash b → b.clash a := .imp Eq.symm Eq.symm

theorem Todo.clash_symm (a b : Todo) : a.clash b → b.clash a := Eq.symm

theorem Reminder.clash_symm (a b : Reminder) : a.clash b → b.clash a := Eq.symm

theorem Comment.clash_symm (a b : Comment) : a.clash b → b.clash a := Eq.symm

/-- What the schema's unique and foreign keys promise of the live tables. -/
structure Live.Sound (l : Live) : Prop where
  users : Unclashing User.clash l.users
  classes : Unclashing Class.clash l.classes
  classMembers : Unclashing ClassMember.clash l.classMembers
  todos : Unclashing Todo.clash l.todos
  reminders : Unclashing Reminder.clash l.reminders
  comments : Unclashing Comment.clash l.comments
  memberClass : ∀ m ∈ l.classMembers, ∃ c ∈ l.classes, c.id = m.classId
  memberUser : ∀ m ∈ l.classMembers, ∃ u ∈ l.users, u.stableUid = m.stableUid
  todoUser : ∀ t ∈ l.todos, ∃ u ∈ l.users, u.stableUid = t.stableUid
  reminderClass : ∀ r ∈ l.reminders, ∃ c ∈ l.classes, c.id = r.classId
  commentReminder : ∀ c ∈ l.comments, ∃ r ∈ l.reminders, r.id = c.reminderId

/-- The archive's rows belong to the years there are. -/
structure Archive.Sound (a : Archive) : Prop where
  user : ∀ u ∈ a.archivedUsers, ∃ sy ∈ a.schoolYears, sy.id = u.schoolYearId
  activity : ∀ u ∈ a.archivedActivity, ∃ sy ∈ a.schoolYears, sy.id = u.schoolYearId
  «class» : ∀ c ∈ a.archivedClasses, ∃ sy ∈ a.schoolYears, sy.id = c.schoolYearId
  todo : ∀ t ∈ a.archivedTodos, ∃ sy ∈ a.schoolYears, sy.id = t.schoolYearId
  reminder : ∀ r ∈ a.archivedReminders, ∃ sy ∈ a.schoolYears, sy.id = r.schoolYearId

structure Db.Sound (db : Db) : Prop where
  live : db.live.Sound
  archive : db.archive.Sound

/-! ### Deleting -/

/-- Deletes classes; members, reminders and their comments go with them. -/
def Live.deleteClasses (gone : Class → Bool) (l : Live) : Live :=
  let ids := (l.classes.filter gone).map Class.id
  let reminderIds := (l.reminders.filter fun r => r.classId ∈ ids).map Reminder.id
  { l with
    classes := l.classes.filter fun c => !gone c
    classMembers := l.classMembers.filter fun m => m.classId ∉ ids
    reminders := l.reminders.filter fun r => r.classId ∉ ids
    comments := l.comments.filter fun c => c.reminderId ∉ reminderIds }

/-- Deletes accounts; their class memberships and to-dos go with them. -/
def Live.deleteUsers (gone : User → Bool) (l : Live) : Live :=
  let uids := (l.users.filter gone).map User.stableUid
  { l with
    users := l.users.filter fun u => !gone u
    classMembers := l.classMembers.filter fun m => m.stableUid ∉ uids
    todos := l.todos.filter fun t => t.stableUid ∉ uids }

/-- Deletes a closed year; what it archived goes with it. -/
def Archive.deleteYear (id : String) (a : Archive) : Archive where
  schoolYears := a.schoolYears.filter fun sy => sy.id ≠ id
  archivedUsers := a.archivedUsers.filter fun u => u.schoolYearId ≠ id
  archivedActivity := a.archivedActivity.filter fun u => u.schoolYearId ≠ id
  archivedClasses := a.archivedClasses.filter fun c => c.schoolYearId ≠ id
  archivedTodos := a.archivedTodos.filter fun t => t.schoolYearId ≠ id
  archivedReminders := a.archivedReminders.filter fun r => r.schoolYearId ≠ id

end Pokyh.School

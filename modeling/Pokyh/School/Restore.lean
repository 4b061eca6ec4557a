import Pokyh.School.Rollover

/-!
# School — Restore

What is left of a year that is closed and then taken back.  Classes, members, to-dos and the texts of
reminders and comments come back as they were.  An account comes back with a new id, without its class
check and without `localOrigin`; a to-do or reminder comes back as never notified.

* `rollback_restores_iff`: **the rollback restores the database exactly when no later year is archived
  and every row that was deleted had the values the rollback gives it.**
-/

namespace Pokyh.School
open Pokyh.Lib

/-! ### What is due (`pushPoller.ts`) -/

def dueTodos (now : Time) (l : Live) : List Todo :=
  l.todos.filter fun t =>
    t.dueAt.any (· ≤ now) && t.notifiedAt.isNone && !t.done && t.archivedAt.isNone

def dueReminders (now : Time) (l : Live) : List Reminder :=
  l.reminders.filter fun r => r.remindAt ≤ now && r.notifiedAt.isNone && r.archivedAt.isNone

/-! ### The state before and the state after -/

def User.withoutPassword (u : User) : User := { u with passwordHash := none }

/-- The same rows with the same values, but for the accounts' passwords. -/
structure Live.Same (l l' : Live) : Prop where
  users : (l'.users.map User.withoutPassword).Perm (l.users.map User.withoutPassword)
  classMembers : l'.classMembers.Perm l.classMembers
  classes : l'.classes.Perm l.classes
  todos : l'.todos.Perm l.todos
  reminders : l'.reminders.Perm l.reminders
  comments : l'.comments.Perm l.comments

/-- The database is as it was before the year was closed. -/
structure Restored (id : String) (db db' : Db) : Prop where
  live : db.live.Same db'.live
  /-- The accounts that stayed, with their passwords. -/
  retained : ∀ u, u.stableUid ∈ db.admins → (u ∈ db'.live.users ↔ u ∈ db.live.users)
  retainedTodos : ∀ t, t.stableUid ∈ db.admins → (t ∈ db'.live.todos ↔ t ∈ db.live.todos)
  admins : db'.admins = db.admins
  /-- The next check of due items notifies about nothing it had notified about. -/
  quietTodos : ∀ now, ∀ t ∈ dueTodos now db'.live, ∀ t' ∈ db.live.todos, t'.id = t.id → t'.notifiedAt = none
  quietReminders : ∀ now, ∀ r ∈ dueReminders now db'.live, ∀ r' ∈ db.live.reminders, r'.id = r.id →
    r'.notifiedAt = none
  archive : db'.archive.EmptyOf id

/-! ### The deletion -/

theorem Live.deleteYear_users (l : Live) (retained : List String) :
    (l.deleteYear retained).users = l.users.filter fun u => u.stableUid ∈ retained := by
  refine List.filter_congr fun u _ => ?_
  by_cases h : u.stableUid ∈ retained <;> simp [h]

theorem Live.deleteYear_classes (l : Live) (retained : List String) :
    (l.deleteYear retained).classes = [] := by
  simp [Live.deleteYear, Live.deleteClasses, Live.deleteUsers]

theorem Live.Sound.deleteYear_classMembers {l : Live} (hl : l.Sound) (retained : List String) :
    (l.deleteYear retained).classMembers = [] := by
  have h : (l.deleteClasses fun _ => true).classMembers = [] := by
    refine List.filter_eq_nil_iff.mpr fun m hm => ?_
    obtain ⟨c, hc, hid⟩ := hl.memberClass m hm
    simpa using ⟨c, hc, hid⟩
  simp [Live.deleteYear, Live.deleteUsers, h]

theorem Live.Sound.deleteYear_reminders {l : Live} (hl : l.Sound) (retained : List String) :
    (l.deleteYear retained).reminders = [] := by
  refine List.filter_eq_nil_iff.mpr fun r hr => ?_
  obtain ⟨c, hc, hid⟩ := hl.reminderClass r hr
  simpa using ⟨c, hc, hid⟩

theorem Live.Sound.deleteYear_comments {l : Live} (hl : l.Sound) (retained : List String) :
    (l.deleteYear retained).comments = [] := by
  refine List.filter_eq_nil_iff.mpr fun c hc => ?_
  obtain ⟨r, hr, hid⟩ := hl.commentReminder c hc
  obtain ⟨k, hk, hkid⟩ := hl.reminderClass r hr
  simpa using ⟨r, hr, k, hk, hkid, hid⟩

theorem Live.Sound.deleteYear_todos {l : Live} (hl : l.Sound) (retained : List String) :
    (l.deleteYear retained).todos = l.todos.filter fun t => t.stableUid ∈ retained := by
  refine List.filter_congr fun t ht => ?_
  obtain ⟨u, hu, huid⟩ := hl.todoUser t ht
  by_cases h : t.stableUid ∈ retained
  · have hno : ∀ x ∈ l.users, x.stableUid ∉ retained → x.stableUid ≠ t.stableUid :=
      fun x _ hx he => hx (he ▸ h)
    simpa [Live.deleteClasses, h] using hno
  · have hu' : ∃ x ∈ l.users, x.stableUid ∉ retained ∧ x.stableUid = t.stableUid :=
      ⟨u, hu, huid ▸ h, huid⟩
    simpa [Live.deleteClasses, h] using hu'

/-! ### Closing and taking back -/

section
variable {p : Closing} {q : Reopening} {db : Db}

/-- The database after the rollback. -/
def Db.reopened (p : Closing) (q : Reopening) (db : Db) : Db where
  live := (db.live.deleteYear db.admins).reopen q p.schoolYearId (db.archive.close p db.read)
  admins := db.admins
  archive := (db.archive.close p db.read).deleteYear p.schoolYearId

/-- The year that was just closed is the latest one exactly when every other is earlier. -/
theorem latestYear_close (h : db.archive.admits p = true) (r : Reads) :
    latestYear (db.archive.close p r).schoolYears = some p.schoolYear ↔
      ∀ sy ∈ db.archive.schoolYears, sy.startYear < p.startYear := by
  simp only [latestYear, Archive.close, List.argmax_concat]
  cases hm : db.archive.schoolYears.argmax SchoolYear.startYear with
  | none => simp [List.argmax_eq_none.mp hm]
  | some m =>
      have hmem : m ∈ db.archive.schoolYears := List.argmax_mem (Option.mem_def.mpr hm)
      by_cases hlt : m.startYear < p.startYear
      · simp only [Closing.schoolYear, hlt, if_true, true_iff]
        exact fun sy hsy => lt_of_le_of_lt (List.le_of_mem_argmax hsy (Option.mem_def.mpr hm)) hlt
      · simp only [Closing.schoolYear, hlt, if_false, Option.some.injEq]
        constructor
        · rintro rfl
          exact absurd rfl (Archive.admits_iff.mp h _ hmem).1
        · exact fun hall => absurd (hall m hmem) hlt

/-- **The rollback of the year that was just closed runs exactly when no later year is archived.** -/
theorem rollbackRollover_closed (h : db.archive.admits p = true) {P : Db → Prop} :
    (∃ res db₂, rollbackRollover q p.schoolYearId (db.closed p) = .ok (res, db₂) ∧ P db₂) ↔
      (∀ sy ∈ db.archive.schoolYears, sy.startYear < p.startYear) ∧ P (db.reopened p q) := by
  have hfind : (db.archive.close p db.read).schoolYears.find? (fun sy => sy.id = p.schoolYearId) =
      some p.schoolYear := by
    have hnone : db.archive.schoolYears.find? (fun sy => sy.id = p.schoolYearId) = none :=
      List.find?_eq_none.mpr fun sy hsy => by simpa using (Archive.admits_iff.mp h sy hsy).1
    simp [Archive.close, List.find?_append, hnone, Closing.schoolYear]
  rw [← latestYear_close h db.read]
  cases hm : latestYear (db.archive.close p db.read).schoolYears with
  | none => exact absurd (List.argmax_eq_none.mp hm) (by simp [Archive.close])
  | some latest =>
      have hlatest : latest.id = p.schoolYearId ↔ latest = p.schoolYear := by
        refine ⟨fun hid => ?_, fun he => he ▸ rfl⟩
        rcases List.mem_append.mp (List.argmax_mem (Option.mem_def.mpr hm)) with hold | hnew
        · exact absurd hid (Archive.admits_iff.mp h latest hold).1
        · exact List.mem_singleton.mp hnew
      by_cases hid : latest.id = p.schoolYearId
      · simp [rollbackRollover, Db.closed, Db.reopened, hfind, hm, hlatest.mp hid, Closing.schoolYear]
      · refine iff_of_false ?_ fun hh => hid (hlatest.mpr (Option.some.inj hh.1))
        rintro ⟨res, db₂, hok, -⟩
        simp [rollbackRollover, Db.closed, hfind, hm, Closing.schoolYear, hid] at hok

/-! ### The rows that come back -/

/-- An account as the rollback gives it back. -/
def User.back (q : Reopening) (u : User) : User :=
  { u with
    id := q.newId u.stableUid, updatedAt := q.now, passwordHash := none, isUntisUser := true,
    classCheckVersion := 0, classCheckedAt := none, webuntisPersonId := none, classSource := none,
    classNote := none, localOrigin := none }

def Todo.back (t : Todo) : Todo := { t with notifiedAt := none }

def Reminder.back (r : Reminder) : Reminder := { r with notifiedAt := none }

/-- A comment as it comes back with its reminder. -/
def Comment.back (q : Reopening) (r : Reminder) (c : Comment) : Comment :=
  { c with reminderId := r.id, classId := r.classId, updatedAt := q.now }

/-- The members of a class as they come back with it. -/
theorem restoredMembers_archivedClass (r : Reads) (id : String) (c : Class) :
    (r.archivedClass id c).restoredMembers = r.classMembersAll.filter fun m => m.classId = c.id := by
  simp only [ArchivedClass.restoredMembers, Reads.archivedClass, Reads.classMembersByClass, List.map_map]
  refine List.map_congr_left (fun m hm => ?_) |>.trans (List.map_id _)
  have hid : m.classId = c.id := by simpa using (List.mem_filter.mp hm).2
  simp [ClassMember.snap, ← hid]

theorem restoredComments_archivedReminder (r : Reads) (id : String) (rem : Reminder) :
    (r.archivedReminder id rem).restoredComments q =
      (r.comments.filter fun c => c.reminderId = rem.id).map (Comment.back q rem) := by
  simp only [ArchivedReminder.restoredComments, Reads.archivedReminder, Reads.commentsByReminder, List.map_map]
  rfl

/-- The tables after the rollback, from the tables before the rollover. -/
theorem Db.Sound.reopened_live (hdb : db.Sound) (h : db.archive.admits p = true) :
    (db.reopened p q).live =
      let users := insertIgnore (free User.clash) (db.live.users.filter fun u => u.stableUid ∈ db.admins)
        ((db.live.users.filter fun u => u.stableUid ∉ db.admins).map (User.back q))
      let classes := insertIgnore (free Class.clash) [] db.live.classes
      let reminders := insertIgnore
        (fun t r => free Reminder.clash t r && classes.any fun c => c.id = r.classId) []
        (db.live.reminders.map Reminder.back)
      { users
        classes
        reminders
        classMembers := insertIgnore
          (fun t m => free ClassMember.clash t m &&
            (classes.any (fun c => c.id = m.classId) && users.any fun u => u.stableUid = m.stableUid))
          [] (db.live.classes.flatMap fun c => db.live.classMembers.filter fun m => m.classId = c.id)
        todos := insertIgnore
          (fun t r => free Todo.clash t r && users.any fun u => u.stableUid = r.stableUid)
          (db.live.todos.filter fun t => t.stableUid ∈ db.admins)
          ((db.live.todos.filter fun t => t.stableUid ∉ db.admins).map Todo.back)
        comments := insertIgnore
          (fun t c => free Comment.clash t c && reminders.any fun r => r.id = c.reminderId) []
          (db.live.reminders.flatMap fun r =>
            (db.live.comments.filter fun c => c.reminderId = r.id).map (Comment.back q r)) } := by
  have hnew := hdb.archive.fresh h
  have hu : (db.archive.close p db.read).archivedUsers.filter (fun u => u.schoolYearId = p.schoolYearId) =
      db.read.usersToArchive.map (db.read.archivedUser p.schoolYearId) :=
    filter_marked hnew.archivedUsers fun _ => rfl
  have hc : (db.archive.close p db.read).archivedClasses.filter (fun c => c.schoolYearId = p.schoolYearId) =
      db.read.classes.map (db.read.archivedClass p.schoolYearId) :=
    filter_marked hnew.archivedClasses fun _ => rfl
  have ht : (db.archive.close p db.read).archivedTodos.filter (fun t => t.schoolYearId = p.schoolYearId) =
      db.read.todosToArchive.map (db.read.archivedTodo p.schoolYearId) :=
    filter_marked hnew.archivedTodos fun _ => rfl
  have hr : (db.archive.close p db.read).archivedReminders.filter (fun r => r.schoolYearId = p.schoolYearId) =
      db.read.reminders.map (db.read.archivedReminder p.schoolYearId) :=
    filter_marked hnew.archivedReminders fun _ => rfl
  simp only [Db.reopened, Live.reopen, hu, hc, ht, hr, Live.deleteYear_users, Live.deleteYear_classes,
    hdb.live.deleteYear_classMembers, hdb.live.deleteYear_todos, hdb.live.deleteYear_reminders,
    hdb.live.deleteYear_comments, List.map_map, List.flatMap_map, restoredMembers_archivedClass,
    restoredComments_archivedReminder]
  have hid : db.live.classes.map (ArchivedClass.restored ∘ db.read.archivedClass p.schoolYearId) =
      db.live.classes := List.map_id _
  rw [show db.read.classes = db.live.classes from rfl, hid]
  rfl

/-! ### When everything comes back -/

/-- The columns the archive does not carry over have the values a restored account gets. -/
structure User.Plain (q : Reopening) (u : User) : Prop where
  id : u.id = q.newId u.stableUid
  updatedAt : u.updatedAt = q.now
  isUntisUser : u.isUntisUser = true
  classCheckVersion : u.classCheckVersion = 0
  classCheckedAt : u.classCheckedAt = none
  webuntisPersonId : u.webuntisPersonId = none
  classSource : u.classSource = none
  classNote : u.classNote = none
  localOrigin : u.localOrigin = none

theorem User.plain_iff {u : User} : u.Plain q ↔ u.back q = u.withoutPassword := by
  constructor
  · rintro ⟨h₁, h₂, h₃, h₄, h₅, h₆, h₇, h₈, h₉⟩
    simp [User.back, User.withoutPassword, ← h₁, ← h₂, h₃, h₄, h₅, h₆, h₇, h₈, h₉]
  · intro h
    simp only [User.back, User.withoutPassword, User.mk.injEq, true_and] at h
    obtain ⟨h₁, h₂, h₃, h₄, h₅, h₆, h₇, h₈, h₉⟩ := h
    exact ⟨h₁.symm, h₉.symm, h₄.symm, h₂.symm, h₃.symm, h₅.symm, h₆.symm, h₇.symm, h₈.symm⟩

/-- No later year is archived, and the rows that are deleted have nothing the archive would lose. -/
structure Reversible (p : Closing) (q : Reopening) (db : Db) : Prop where
  latest : ∀ sy ∈ db.archive.schoolYears, sy.startYear < p.startYear
  users : ∀ u ∈ db.live.users, u.stableUid ∉ db.admins → u.Plain q
  todos : ∀ t ∈ db.live.todos, t.stableUid ∉ db.admins → t.notifiedAt = none
  reminders : ∀ r ∈ db.live.reminders, r.notifiedAt = none
  updatedAt : ∀ c ∈ db.live.comments, c.updatedAt = q.now
  classId : ∀ c ∈ db.live.comments, ∀ r ∈ db.live.reminders, r.id = c.reminderId → c.classId = r.classId

/-- Class by class, no member is left out. -/
theorem Live.Sound.classMembers_perm {l : Live} (hl : l.Sound) :
    (l.classes.flatMap fun c => l.classMembers.filter fun m => m.classId = c.id).Perm l.classMembers := by
  have hkeys : (l.classes.map Class.id).Nodup := hl.classes.nodup_map fun _ _ h => .inl h
  have hperm := flatMap_groups (f := ClassMember.classId) (l := l.classMembers) hkeys fun m hm => by
    obtain ⟨c, hc, hid⟩ := hl.memberClass m hm
    exact List.mem_map.mpr ⟨c, hc, hid⟩
  rwa [List.flatMap_map] at hperm

theorem Live.Sound.comments_perm {l : Live} (hl : l.Sound) :
    (l.reminders.flatMap fun r => l.comments.filter fun c => c.reminderId = r.id).Perm l.comments := by
  have hkeys : (l.reminders.map Reminder.id).Nodup := hl.reminders.nodup_map fun _ _ h => h
  have hperm := flatMap_groups (f := Comment.reminderId) (l := l.comments) hkeys fun c hc => by
    obtain ⟨r, hr, hid⟩ := hl.commentReminder c hc
    exact List.mem_map.mpr ⟨r, hr, hid⟩
  rwa [List.flatMap_map] at hperm

/-- **A reversible rollover's tables come back whole.** -/
theorem Reversible.reopened_live (hrev : Reversible p q db) (hdb : db.Sound) (h : db.archive.admits p = true) :
    (db.reopened p q).live =
      { users := (db.live.users.filter fun u => u.stableUid ∈ db.admins) ++
          (db.live.users.filter fun u => u.stableUid ∉ db.admins).map User.withoutPassword
        classes := db.live.classes
        reminders := db.live.reminders
        classMembers := db.live.classes.flatMap fun c => db.live.classMembers.filter fun m => m.classId = c.id
        todos := (db.live.todos.filter fun t => t.stableUid ∈ db.admins) ++
          db.live.todos.filter fun t => t.stableUid ∉ db.admins
        comments := db.live.reminders.flatMap fun r =>
          db.live.comments.filter fun c => c.reminderId = r.id } := by
  have husers : (db.live.users.filter fun u => u.stableUid ∉ db.admins).map (User.back q) =
      (db.live.users.filter fun u => u.stableUid ∉ db.admins).map User.withoutPassword := by
    refine List.map_congr_left fun u hu => ?_
    obtain ⟨hu, huid⟩ := List.mem_filter.mp hu
    exact User.plain_iff.mp (hrev.users u hu (by simpa using huid))
  have htodos : (db.live.todos.filter fun t => t.stableUid ∉ db.admins).map Todo.back =
      db.live.todos.filter fun t => t.stableUid ∉ db.admins := by
    refine (List.map_congr_left fun t ht => ?_).trans (List.map_id _)
    obtain ⟨ht, htuid⟩ := List.mem_filter.mp ht
    simp [Todo.back, ← hrev.todos t ht (by simpa using htuid)]
  have hreminders : db.live.reminders.map Reminder.back = db.live.reminders := by
    refine (List.map_congr_left fun r hr => ?_).trans (List.map_id _)
    simp [Reminder.back, ← hrev.reminders r hr]
  have hcomments : (db.live.reminders.flatMap fun r =>
      (db.live.comments.filter fun c => c.reminderId = r.id).map (Comment.back q r)) =
      db.live.reminders.flatMap fun r => db.live.comments.filter fun c => c.reminderId = r.id := by
    refine List.flatMap_congr fun r hr => (List.map_congr_left fun c hc => ?_).trans (List.map_id _)
    obtain ⟨hc, hid⟩ := List.mem_filter.mp hc
    have hid : c.reminderId = r.id := by simpa using hid
    simp [Comment.back, ← hid, ← hrev.updatedAt c hc, ← hrev.classId c hc r hr hid.symm]
  rw [hdb.reopened_live h, husers, htodos, hreminders, hcomments]
  have hu : insertIgnore (free User.clash) (db.live.users.filter fun u => u.stableUid ∈ db.admins)
      ((db.live.users.filter fun u => u.stableUid ∉ db.admins).map User.withoutPassword) =
      (db.live.users.filter fun u => u.stableUid ∈ db.admins) ++
        (db.live.users.filter fun u => u.stableUid ∉ db.admins).map User.withoutPassword :=
    insertIgnore_free ((hdb.live.users.perm User.clash_symm
      (filter_append_not_perm (fun u : User => u.stableUid ∈ db.admins) _).symm).append_map
        (fun _ _ h => h) fun _ _ h => h)
  have hc : insertIgnore (free Class.clash) [] db.live.classes = db.live.classes :=
    insertIgnore_free hdb.live.classes
  have hr : insertIgnore (fun t r => free Reminder.clash t r && db.live.classes.any fun c => c.id = r.classId)
      [] db.live.reminders = db.live.reminders := by
    refine insertIgnore_parents hdb.live.reminders fun r hr => ?_
    simpa using hdb.live.reminderClass r hr
  -- an account is there afterwards as it was before
  have huser : ∀ uid, (∃ u ∈ db.live.users, u.stableUid = uid) →
      ((db.live.users.filter fun u => u.stableUid ∈ db.admins) ++
        (db.live.users.filter fun u => u.stableUid ∉ db.admins).map User.withoutPassword).any
          (fun u => u.stableUid = uid) = true := by
    rintro uid ⟨u, hu, rfl⟩
    refine List.any_eq_true.mpr ?_
    by_cases hret : u.stableUid ∈ db.admins
    · exact ⟨u, List.mem_append_left _ (List.mem_filter.mpr ⟨hu, by simpa using hret⟩), by simp⟩
    · exact ⟨u.withoutPassword, List.mem_append_right _ (List.mem_map_of_mem
        (List.mem_filter.mpr ⟨hu, by simpa using hret⟩)), by simp [User.withoutPassword]⟩
  have hm := hdb.live.classMembers_perm
  have hcm := hdb.live.comments_perm
  simp only [hu, hc, hr]
  congr 1
  · refine insertIgnore_parents (hdb.live.classMembers.perm ClassMember.clash_symm hm.symm) fun m hmem => ?_
    have hmem := hm.mem_iff.mp hmem
    rw [Bool.and_eq_true]
    exact ⟨by simpa using hdb.live.memberClass m hmem, huser _ (hdb.live.memberUser m hmem)⟩
  · refine insertIgnore_parents (hdb.live.todos.perm Todo.clash_symm
      (filter_append_not_perm (fun t : Todo => t.stableUid ∈ db.admins) _).symm) fun t ht => ?_
    exact huser _ (hdb.live.todoUser t (List.mem_filter.mp ht).1)
  · refine insertIgnore_parents (hdb.live.comments.perm Comment.clash_symm hcm.symm) fun c hmem => ?_
    simpa using hdb.live.commentReminder c (hcm.mem_iff.mp hmem)

theorem Reversible.restored (hrev : Reversible p q db) (hdb : db.Sound) (h : db.archive.admits p = true) :
    Restored p.schoolYearId db (db.reopened p q) := by
  have hlive := hrev.reopened_live hdb h
  have hkeep := filter_append_not_perm (fun u : User => u.stableUid ∈ db.admins) db.live.users
  have htodos := filter_append_not_perm (fun t : Todo => t.stableUid ∈ db.admins) db.live.todos
  constructor
  · rw [hlive]
    refine ⟨?_, hdb.live.classMembers_perm, .refl _, htodos, .refl _, hdb.live.comments_perm⟩
    have hwp : (User.withoutPassword ∘ User.withoutPassword) = User.withoutPassword := rfl
    simpa [hwp] using hkeep.map User.withoutPassword
  · intro u hret
    rw [hlive, List.mem_append, List.mem_filter]
    refine ⟨?_, fun hu => .inl ⟨hu, by simpa using hret⟩⟩
    rintro (⟨hu, -⟩ | hu)
    · exact hu
    · obtain ⟨v, hv, rfl⟩ := List.mem_map.mp hu
      have hv : v.stableUid ∉ db.admins := by simpa using (List.mem_filter.mp hv).2
      exact absurd hret hv
  · intro t _
    rw [hlive]
    exact htodos.mem_iff
  · rfl
  · intro now t ht t' ht' hid
    have ht : t ∈ db.live.todos ∧ t.notifiedAt = none := by
      rw [dueTodos, hlive, List.mem_filter] at ht
      exact ⟨htodos.mem_iff.mp ht.1, by simp_all⟩
    obtain rfl := hdb.live.todos.eq_of Todo.clash_symm ht' ht.1 hid
    exact ht.2
  · intro now r hr r' hr' hid
    have hr : r ∈ db.live.reminders ∧ r.notifiedAt = none := by
      rw [dueReminders, hlive, List.mem_filter] at hr
      exact ⟨hr.1, by simp_all⟩
    obtain rfl := hdb.live.reminders.eq_of Reminder.clash_symm hr' hr.1 hid
    exact hr.2
  · exact Archive.emptyOf_deleteYear _ _

/-- What comes back of an account, when it comes back at all. -/
theorem Db.Sound.plain_of_same (hdb : db.Sound) (h : db.archive.admits p = true)
    (hsame : db.live.Same (db.reopened p q).live) {u : User} (hu : u ∈ db.live.users)
    (huid : u.stableUid ∉ db.admins) : u.Plain q := by
  obtain ⟨u', hu', heq⟩ := List.mem_map.mp (hsame.users.mem_iff.mpr (List.mem_map_of_mem hu))
  have hstable : u'.stableUid = u.stableUid := (congrArg User.stableUid heq :)
  rw [hdb.reopened_live h] at hu'
  rcases mem_insertIgnore hu' with hkept | hback
  · exact absurd (hstable ▸ (by simpa using (List.mem_filter.mp hkept).2)) huid
  · obtain ⟨v, hv, rfl⟩ := List.mem_map.mp hback
    obtain rfl := hdb.live.users.eq_of User.clash_symm (List.mem_filter.mp hv).1 hu (.inr (.inl hstable))
    exact User.plain_iff.mpr heq

theorem Db.Sound.todo_of_same (hdb : db.Sound) (h : db.archive.admits p = true)
    (hsame : db.live.Same (db.reopened p q).live) {t : Todo} (ht : t ∈ db.live.todos)
    (huid : t.stableUid ∉ db.admins) : t.notifiedAt = none := by
  have ht' := hsame.todos.mem_iff.mpr ht
  rw [hdb.reopened_live h] at ht'
  rcases mem_insertIgnore ht' with hkept | hback
  · exact absurd (by simpa using (List.mem_filter.mp hkept).2) huid
  · obtain ⟨_, -, rfl⟩ := List.mem_map.mp hback
    rfl

theorem Db.Sound.reminder_of_same (hdb : db.Sound) (h : db.archive.admits p = true)
    (hsame : db.live.Same (db.reopened p q).live) {r : Reminder} (hr : r ∈ db.live.reminders) :
    r.notifiedAt = none := by
  have hr' := hsame.reminders.mem_iff.mpr hr
  rw [hdb.reopened_live h] at hr'
  rcases mem_insertIgnore hr' with hkept | hback
  · exact absurd hkept List.not_mem_nil
  · obtain ⟨_, -, rfl⟩ := List.mem_map.mp hback
    rfl

/-- A comment comes back with its reminder's class and a new `updatedAt`. -/
theorem Db.Sound.comment_of_same (hdb : db.Sound) (h : db.archive.admits p = true)
    (hsame : db.live.Same (db.reopened p q).live) {c : Comment} (hc : c ∈ db.live.comments) :
    c.updatedAt = q.now ∧ ∀ r ∈ db.live.reminders, r.id = c.reminderId → c.classId = r.classId := by
  have hc' := hsame.comments.mem_iff.mpr hc
  rw [hdb.reopened_live h] at hc'
  rcases mem_insertIgnore hc' with hkept | hback
  · exact absurd hkept List.not_mem_nil
  · obtain ⟨r, hr, hcr⟩ := List.mem_flatMap.mp hback
    obtain ⟨_, -, rfl⟩ := List.mem_map.mp hcr
    refine ⟨rfl, fun r' hr' hid => ?_⟩
    obtain rfl := hdb.live.reminders.eq_of Reminder.clash_symm hr hr' hid.symm
    rfl

/-- **What the rollback restores.**  After a rollover and nothing else, the rollback of that year leaves
every row as it was exactly when no later year is archived, no account that was deleted had a class
check or an origin, nothing that was deleted had been notified about, and the ids and times of the
deleted rows are the ones the rollback gives. -/
theorem rollback_restores_iff {res : RolloverResult} {db₁ : Db} (hdb : db.Sound)
    (h : performRollover p db = .ok (res, db₁)) :
    (∃ res₂ db₂, rollbackRollover q p.schoolYearId db₁ = .ok (res₂, db₂) ∧
      Restored p.schoolYearId db db₂) ↔ Reversible p q db := by
  obtain ⟨hadm, rfl⟩ := performRollover_ok h
  rw [rollbackRollover_closed hadm]
  constructor
  · rintro ⟨hlatest, hres⟩
    exact ⟨hlatest, fun _ => hdb.plain_of_same hadm hres.live, fun _ => hdb.todo_of_same hadm hres.live,
      fun _ => hdb.reminder_of_same hadm hres.live, fun _ hc => (hdb.comment_of_same hadm hres.live hc).1,
      fun _ hc => (hdb.comment_of_same hadm hres.live hc).2⟩
  · exact fun hrev => ⟨hrev.latest, hrev.restored hdb hadm⟩

end

/-! ### Two rollovers -/

def reopening2025 : Reopening where
  now := 9
  newId := id

/-- An admin, a pupil, their class and a reminder. -/
def quietSchool : Db where
  live :=
    { users := [freshAccount "admin", freshAccount "pupil"]
      classMembers := [⟨"c", "admin", "admin", "student", 1⟩, ⟨"c", "pupil", "pupil", "student", 1⟩]
      classes := [⟨"c", "3A", "AAAAAA", 7, "admin", "Admin", none, 1⟩]
      todos := [⟨"t", "pupil", "Test", "", some 20, false, none, none, none, 1⟩]
      reminders := [⟨"r", "c", "Ausflug", "", 20, "admin", "Admin", "admin", none, none, 1⟩]
      comments := [⟨"k", "r", "c", "pupil", "pupil", "ok", 2, 9⟩] }
  admins := ["admin"]
  archive := ⟨[], [], [], [], [], []⟩

theorem quietSchool_sound : quietSchool.Sound := by
  constructor <;> constructor <;> decide

theorem rollback_restores_quietSchool :
    ∃ res₂ db₂, rollbackRollover reopening2025 "y" (quietSchool.closed closing2025) = .ok (res₂, db₂) ∧
      Restored "y" quietSchool db₂ :=
  (rollback_restores_iff (p := closing2025) quietSchool_sound rfl).mpr
    ⟨by decide, fun u hu _ => by
      have hu : u = freshAccount "admin" ∨ u = freshAccount "pupil" := by simpa [quietSchool] using hu
      rcases hu with rfl | rfl <;> exact ⟨rfl, rfl, rfl, rfl, rfl, rfl, rfl, rfl, rfl⟩,
      by decide, by decide, by decide, by decide⟩

/-- A pupil that registered itself and was reminded of a to-do. -/
def remindedSchool : Db where
  live :=
    { users := [{ freshAccount "pupil" with localOrigin := some "register" }]
      classMembers := []
      classes := []
      todos := [⟨"t", "pupil", "Test", "", some 3, false, none, some 4, none, 1⟩]
      reminders := []
      comments := [] }
  admins := []
  archive := ⟨[], [], [], [], [], []⟩

/-- **The origin is lost and the to-do is due once more.** -/
theorem rollback_forgets :
    remindedSchool.Sound ∧
      ∃ res db₁ res₂ db₂, performRollover closing2025 remindedSchool = .ok (res, db₁) ∧
        rollbackRollover reopening2025 "y" db₁ = .ok (res₂, db₂) ∧
        db₂.live.users.map User.localOrigin = [none] ∧
        dueTodos 9 remindedSchool.live = [] ∧ (dueTodos 9 db₂.live).map Todo.id = ["t"] ∧
        ¬ Restored "y" remindedSchool db₂ := by
  refine ⟨by constructor <;> constructor <;> decide, _, _, _, _, rfl, rfl, rfl, rfl, rfl, fun h => ?_⟩
  have hquiet := h.quietTodos 9 ⟨"t", "pupil", "Test", "", some 3, false, none, none, none, 1⟩ (by decide)
    ⟨"t", "pupil", "Test", "", some 3, false, none, some 4, none, 1⟩ (by decide) rfl
  cases hquiet

end Pokyh.School

import Pokyh.Lib.Caches
import Pokyh.Lib.Results
import Pokyh.Lib.Runs
import Pokyh.School.Notices

/-!
# School — Audience

Who is shown a popup or a recap in the course of time: editors save and delete them, accounts sign in
and are deleted, years are closed and taken back, classes are removed, and the feeds are read, partly
from the cache.

* `audience_never_widens`: **in a run in which no deletion of accounts takes the last target of a popup
  or recap, no account outside the choice its editor last saved is shown it.**
* `audience_widens`: a recap for one pupil is everybody's once that pupil's account is deleted.
-/

namespace Pokyh.School
open Pokyh.Lib

/-- The tables the feeds are made of. -/
structure Notices where
  db : Db
  schools : List String
  popups : List Popup
  recaps : List Recap

/-! ### Saving (`popups.ts`, `recaps.ts`) -/

/-- `schoolId` in a request's body. -/
inductive SchoolField where
  | absent | null
  | given (id : String)
  deriving DecidableEq, Repr

inductive SaveError where
  | validation (text : String)
  | notFound (text : String)
  | uniqueKey
  deriving DecidableEq, Repr

structure PopupBody where
  title : String
  content : String
  platform : Platform
  audience : PopupAudience
  mode : Mode
  showCount : ℕ
  startsAt : Option Time
  endsAt : Option Time
  enabled : Bool
  resetSeen : Bool
  targetUsers : List String
  targetClasses : List ℤ
  schoolId : SchoolField
  deriving DecidableEq, Repr

structure RecapBody where
  title : String
  periodFrom : String
  periodTo : String
  startsAt : Option Time
  endsAt : Option Time
  sections : List String
  enabled : Bool
  targetSchools : List String
  targetClasses : List (String × ℤ)
  targetUsers : List String
  schoolId : SchoolField
  deriving DecidableEq, Repr

/-- What the editors' requests use of the rest of the server. -/
structure Site where
  /-- `renderPopupContent`. -/
  render : String → String
  /-- The number of a calendar day. -/
  day : String → ℤ

namespace Notices

variable (n : Notices)

/-- The accounts with the given ids, in a school if one is named. -/
def countUsers (uids : List String) (schoolId : Option String) : ℕ :=
  (n.db.live.users.filter fun u => u.stableUid ∈ uids && (schoolId.isNone || u.schoolId = schoolId)).length

/-- `knownClasses`: a class somebody of the school signed in with, or one of its class groups. -/
def knownClass (schoolId : String) (klasseId : ℤ) : Bool :=
  0 < klasseId &&
    (n.db.live.users.any (fun u => u.webuntisKlasseId = klasseId && u.schoolId = some schoolId) ||
      n.db.live.classes.any fun c => c.webuntisKlasseId = klasseId && c.schoolId = some schoolId)

/-- The school a popup or recap is written for: a school's view writes for its school, the global view
for the one named. -/
def schoolFor (viewSchool : Option String) (field : SchoolField) (fallback : Option String) :
    Except SaveError (Option String) :=
  match viewSchool with
  | some s => .ok (some s)
  | none =>
      match field with
      | .absent => .ok fallback
      | .null => .ok none
      | .given id =>
          if id = "" then .ok none
          else if id ∈ n.schools then .ok (some id)
          else .error (.validation "Unbekannte Schule")

/-- The row is within the request's scope; a row for every school is only within the global view. -/
def inViewScope (viewSchool : Option String) (schoolId : Option String) : Bool :=
  viewSchool.isNone || schoolId = viewSchool

def checkPopup (body : PopupBody) : Except SaveError Unit :=
  if (body.startsAt.any fun s => body.endsAt.any fun e => e ≤ s) then
    .error (.validation "Das Ende muss nach dem Start liegen")
  else if body.mode = .recurring ∧ (body.startsAt = none ∨ body.endsAt = none) then
    .error (.validation "Für wiederholte Anzeige werden Start und Ende benötigt")
  else if body.mode = .recurring ∧ body.showCount < 2 then
    .error (.validation "Wiederholte Anzeige braucht mindestens 2 Anzeigen")
  else .ok ()

def resolvePopupTargets (body : PopupBody) (schoolId : Option String) :
    Except SaveError (List String × List ℤ) :=
  let users := distinct body.targetUsers
  let classIds := distinct body.targetClasses
  if users ≠ [] ∧ n.countUsers users schoolId ≠ users.length then
    .error (.validation "Mindestens ein ausgewählter Benutzer existiert nicht (mehr)")
  else if classIds = [] then .ok (users, [])
  else
    match schoolId with
    | none => .error (.validation "Klassen kann nur ein Popup für eine bestimmte Schule ansprechen")
    | some s =>
        if classIds.all (n.knownClass s) then .ok (users, classIds)
        else .error (.validation "Mindestens eine ausgewählte Klasse existiert nicht (mehr)")

/-- Chosen people are signed in by definition. -/
def audienceFor (body : PopupBody) : PopupAudience :=
  if body.targetUsers ≠ [] ∨ body.targetClasses ≠ [] then .users else body.audience

/-- The popup a body describes. -/
def popupOf (site : Site) (id : String) (revision : ℕ) (body : PopupBody)
    (schoolId : Option String) (targets : List String × List ℤ) : Popup where
  id
  title := body.title
  content := body.content
  contentHtml := site.render body.content
  platform := body.platform
  audience := audienceFor body
  mode := body.mode
  showCount := if body.mode = .once then 1 else body.showCount
  startsAt := body.startsAt
  endsAt := body.endsAt
  enabled := body.enabled
  revision
  schoolId
  targetUsers := targets.1
  targetClasses := targets.2

def createPopup (site : Site) (viewSchool : Option String) (id : String) (body : PopupBody) :
    Except SaveError Popup := do
  checkPopup body
  let schoolId ← n.schoolFor viewSchool body.schoolId none
  let targets ← n.resolvePopupTargets body schoolId
  if (n.popups.any fun p => p.id = id) then .error .uniqueKey
  else .ok (popupOf site id 1 body schoolId targets)

def findPopup (viewSchool : Option String) (id : String) : Except SaveError Popup :=
  match n.popups.find? fun p => p.id = id with
  | some p => if inViewScope viewSchool p.schoolId then .ok p else .error (.notFound "Popup nicht gefunden")
  | none => .error (.notFound "Popup nicht gefunden")

def putPopup (site : Site) (viewSchool : Option String) (id : String) (body : PopupBody) :
    Except SaveError Popup := do
  let existing ← n.findPopup viewSchool id
  let schoolId ← n.schoolFor viewSchool body.schoolId existing.schoolId
  let targets ← n.resolvePopupTargets body schoolId
  checkPopup body
  .ok (popupOf site id (if body.resetSeen then existing.revision + 1 else existing.revision) body schoolId
    targets)

def recapSections : List String := ["school", "absences", "grades", "exams", "classreg", "pokyh"]

/-- What is stored of the chosen parts: nothing when it is all of them. -/
def formatSections (sections : List String) : String :=
  let chosen := recapSections.filter (· ∈ sections)
  if chosen = [] ∨ chosen = recapSections then "" else ",".intercalate chosen

def checkRecap (site : Site) (body : RecapBody) : Except SaveError Unit :=
  if body.periodTo < body.periodFrom then
    .error (.validation "Das Ende des Zeitraums muss nach seinem Anfang liegen")
  else if 400 < site.day body.periodTo - site.day body.periodFrom + 1 then
    .error (.validation "Der Zeitraum darf höchstens 400 Tage lang sein")
  else if (body.startsAt.any fun s => body.endsAt.any fun e => e ≤ s) then
    .error (.validation "„Sichtbar bis“ muss nach „Sichtbar ab“ liegen")
  else .ok ()

/-- The recipients of a recap, checked to be there and inside its school. -/
def resolveRecapTargets (body : RecapBody) (schoolId : Option String) : Except SaveError RecapReach :=
  let schools := distinct body.targetSchools
  let classes := distinct body.targetClasses
  let users := distinct body.targetUsers
  if schoolId.isSome ∧ schools.any (fun s => some s ≠ schoolId) then
    .error (.validation "Eine Schul-Recap kann nur ihre eigene Schule ansprechen")
  else if schools.any (· ∉ n.schools) then
    .error (.validation "Mindestens eine ausgewählte Schule existiert nicht (mehr)")
  else if schoolId.isSome ∧ classes.any (fun c => some c.1 ≠ schoolId) then
    .error (.validation "Klassen müssen zur Schule der Recap gehören")
  else if classes.any (fun c => !n.knownClass c.1 c.2) then
    .error (.validation "Mindestens eine ausgewählte Klasse existiert nicht (mehr)")
  else if users ≠ [] ∧ n.countUsers users schoolId ≠ users.length then
    .error (.validation "Mindestens ein ausgewählter Schüler existiert nicht (mehr)")
  else .ok ⟨schoolId, schools, classes, users⟩

def recapOf (id : String) (body : RecapBody) (reach : RecapReach) : Recap where
  toRecapReach := reach
  id
  title := body.title
  periodFrom := body.periodFrom
  periodTo := body.periodTo
  startsAt := body.startsAt
  endsAt := body.endsAt
  sections := formatSections body.sections
  enabled := body.enabled

def createRecap (site : Site) (viewSchool : Option String) (id : String) (body : RecapBody) :
    Except SaveError Recap := do
  checkRecap site body
  let schoolId ← n.schoolFor viewSchool body.schoolId none
  let reach ← n.resolveRecapTargets body schoolId
  if (n.recaps.any fun r => r.id = id) then .error .uniqueKey else .ok (recapOf id body reach)

def findRecap (viewSchool : Option String) (id : String) : Except SaveError Recap :=
  match n.recaps.find? fun r => r.id = id with
  | some r => if inViewScope viewSchool r.schoolId then .ok r else .error (.notFound "Recap nicht gefunden")
  | none => .error (.notFound "Recap nicht gefunden")

def putRecap (site : Site) (viewSchool : Option String) (id : String) (body : RecapBody) :
    Except SaveError Recap := do
  let existing ← n.findRecap viewSchool id
  checkRecap site body
  let schoolId ← n.schoolFor viewSchool body.schoolId existing.schoolId
  let reach ← n.resolveRecapTargets body schoolId
  .ok (recapOf id body reach)

/-- The accounts that are gone take the targets that name them along. -/
def withDb (db : Db) : Notices :=
  let uids := db.live.users.map User.stableUid
  let gone := (n.db.live.users.map User.stableUid).filter (· ∉ uids)
  { n with
    db
    popups := n.popups.map fun p => { p with targetUsers := p.targetUsers.filter (· ∉ gone) }
    recaps := n.recaps.map fun r => { r with targetUsers := r.targetUsers.filter (· ∉ gone) } }

end Notices

/-! ### Deleting one's own account (`accountDeletion.ts`) -/

def deletedAccountName : String := "Gelöschtes Konto"

/-- The account goes with its comments and what the archive has of it; its reminders and classes lose
their author's name. -/
def Db.deleteOwnAccount (u : User) (db : Db) : Db :=
  let live := db.live.deleteUsers fun v => v.stableUid = u.stableUid
  { db with
    live :=
      { live with
        comments := live.comments.filter fun c => c.stableUid ≠ u.stableUid
        reminders := live.reminders.map fun r =>
          if r.createdBy = u.stableUid then
            { r with createdBy := "", createdByName := deletedAccountName, createdByUsername := "" }
          else r
        classes := live.classes.map fun c =>
          if c.createdBy = u.stableUid then { c with createdBy := "", createdByName := deletedAccountName }
          else c }
    archive :=
      { db.archive with
        archivedUsers := db.archive.archivedUsers.filter fun a =>
          a.stableUid ≠ u.stableUid && a.username ≠ u.username
        archivedTodos := db.archive.archivedTodos.filter fun a =>
          a.stableUid ≠ u.stableUid && a.username ≠ u.username
        archivedActivity := db.archive.archivedActivity.filter fun a =>
          a.stableUid ≠ u.stableUid && a.username ≠ u.username
        archivedReminders := db.archive.archivedReminders.map fun r =>
          let comments := r.commentsJson.filter fun c => c.stableUid ≠ u.stableUid && c.username ≠ u.username
          if r.createdBy = u.stableUid then
            { r with
              commentsJson := comments, createdBy := "", createdByName := deletedAccountName
              createdByUsername := "" }
          else { r with commentsJson := comments }
        archivedClasses := db.archive.archivedClasses.map fun c =>
          if c.createdBy = u.stableUid then { c with createdBy := "", createdByName := deletedAccountName }
          else c } }

/-! ### The server over time -/

structure World where
  notices : Notices
  now : Time
  popupCache : Cache PopupQuery (List PopupRow)
  recapCache : Cache Unit (List Recap)
  /-- The choice an editor last saved, by popup; nothing the server keeps. -/
  savedPopups : String → Option Choice
  savedRecaps : String → Option Choice

/-- `POPUP_CACHE_SECONDS` and `FEED_CACHE_SECONDS`. -/
def feedCacheMs : ℤ := 30000

/-- `GET /popups/active`. -/
def World.activePopups (w : World) (platform : Platform) (asking : Asking) (session : Option Account) :
    World × List PopupRow :=
  let user := if asking = .user then session.map Account.visitor else none
  let q : PopupQuery := ⟨platform, asking, user⟩
  let load := (w.notices.popups.filter (Popup.matches w.now q)).map Popup.row
  let r := w.popupCache.cached w.now feedCacheMs q load
  ({ w with popupCache := r.1 }, r.2.filter fun row => row.endsAt.all (w.now < ·))

/-- `mine`: the recaps the caller may open now. -/
def World.mine (w : World) (account : Account) : World × List Recap :=
  let r := w.recapCache.cached w.now feedCacheMs () (w.notices.recaps.filter Recap.enabled)
  let account := { account with klasseId := if 0 < account.klasseId then account.klasseId else 0 }
  ({ w with recapCache := r.1 },
    r.2.filter fun r => r.startsAt.all (· ≤ w.now) && r.endsAt.all (w.now < ·) &&
      recapReaches r.toRecapReach account)

inductive Action where
  | createPopup (viewSchool : Option String) (id : String) (body : PopupBody)
  | putPopup (viewSchool : Option String) (id : String) (body : PopupBody)
  | enablePopup (viewSchool : Option String) (id : String) (enabled : Bool)
  | deletePopup (viewSchool : Option String) (id : String)
  | createRecap (viewSchool : Option String) (id : String) (body : RecapBody)
  | putRecap (viewSchool : Option String) (id : String) (body : RecapBody)
  | enableRecap (viewSchool : Option String) (id : String) (enabled : Bool)
  | deleteRecap (viewSchool : Option String) (id : String)
  /-- A sign-in creates the account or writes what it learned of it. -/
  | signIn (u : User)
  | createClass (c : Class)
  | deleteClass (id : String)
  | addSchool (id : String)
  | setAdmins (uids : List String)
  /-- An admin deletes an account. -/
  | deleteUser (stableUid : String)
  | deleteOwnAccount (stableUid : String)
  | rollover (p : Closing)
  | rollback (q : Reopening) (schoolYearId : String)
  | tick (now : Time)
  | evictPopups (q : PopupQuery)
  | evictRecaps
  | activePopups (platform : Platform) (asking : Asking) (session : Option Account)
  | mine (account : Account)

namespace World

/-- The popups are written: the cached answers made of them are out of date. -/
def setPopups (w : World) (popups : List Popup) : World :=
  { w with notices := { w.notices with popups }, popupCache := w.popupCache.invalidate }

def setRecaps (w : World) (recaps : List Recap) : World :=
  { w with notices := { w.notices with recaps }, recapCache := w.recapCache.invalidate }

def savePopup (w : World) (p : Popup) (popups : List Popup) : World :=
  { w.setPopups popups with savedPopups := Function.update w.savedPopups p.id (some p.choice) }

def saveRecap (w : World) (r : Recap) (recaps : List Recap) : World :=
  { w.setRecaps recaps with savedRecaps := Function.update w.savedRecaps r.id (some r.choice) }

/-- Accounts are deleted, with what refers to them. -/
def deleteFrom (w : World) (db : Db) : World :=
  { w with
    notices := w.notices.withDb db
    popupCache := w.popupCache.invalidate
    recapCache := w.recapCache.invalidate }

def setDb (w : World) (db : Db) : World := { w with notices := { w.notices with db } }

def setLive (w : World) (live : Live) : World := w.setDb { w.notices.db with live }

end World

/-- The account as a sign-in leaves it. -/
def Live.signIn (u : User) (l : Live) : Live :=
  if (l.users.any fun v => v.stableUid = u.stableUid) then
    { l with users := l.users.map fun v => if v.stableUid = u.stableUid then u else v }
  else { l with users := l.users ++ [u] }

def World.step (site : Site) (w : World) : Action → Option World
  | .createPopup viewSchool id body =>
      (w.notices.createPopup site viewSchool id body).toOption.map fun p =>
        w.savePopup p (w.notices.popups ++ [p])
  | .putPopup viewSchool id body =>
      (w.notices.putPopup site viewSchool id body).toOption.map fun p =>
        w.savePopup p (w.notices.popups.map fun p' => if p'.id = id then p else p')
  | .enablePopup viewSchool id enabled =>
      (w.notices.findPopup viewSchool id).toOption.map fun _ =>
        w.setPopups (w.notices.popups.map fun p => if p.id = id then { p with enabled } else p)
  | .deletePopup viewSchool id =>
      (w.notices.findPopup viewSchool id).toOption.map fun _ =>
        w.setPopups (w.notices.popups.filter fun p => p.id ≠ id)
  | .createRecap viewSchool id body =>
      (w.notices.createRecap site viewSchool id body).toOption.map fun r =>
        w.saveRecap r (w.notices.recaps ++ [r])
  | .putRecap viewSchool id body =>
      (w.notices.putRecap site viewSchool id body).toOption.map fun r =>
        w.saveRecap r (w.notices.recaps.map fun r' => if r'.id = id then r else r')
  | .enableRecap viewSchool id enabled =>
      (w.notices.findRecap viewSchool id).toOption.map fun _ =>
        w.setRecaps (w.notices.recaps.map fun r => if r.id = id then { r with enabled } else r)
  | .deleteRecap viewSchool id =>
      (w.notices.findRecap viewSchool id).toOption.map fun _ =>
        w.setRecaps (w.notices.recaps.filter fun r => r.id ≠ id)
  | .signIn u => some (w.setLive (w.notices.db.live.signIn u))
  | .createClass c => some (w.setLive { w.notices.db.live with classes := w.notices.db.live.classes ++ [c] })
  | .deleteClass id => some (w.setLive (w.notices.db.live.deleteClasses fun c => c.id = id))
  | .addSchool id => some { w with notices := { w.notices with schools := w.notices.schools ++ [id] } }
  | .setAdmins uids => some (w.setDb { w.notices.db with admins := uids })
  | .deleteUser uid =>
      let live := w.notices.db.live.deleteUsers fun u => u.stableUid = uid
      some (w.deleteFrom { w.notices.db with live })
  | .deleteOwnAccount uid =>
      match w.notices.db.live.users.find? fun u => u.stableUid = uid with
      | some u => if uid ∈ w.notices.db.admins then none else some (w.deleteFrom (w.notices.db.deleteOwnAccount u))
      | none => none
  | .rollover p => (performRollover p w.notices.db).toOption.map fun r => w.deleteFrom r.2
  | .rollback q id => (rollbackRollover q id w.notices.db).toOption.map fun r => w.setDb r.2
  | .tick now => if w.now ≤ now then some { w with now } else none
  | .evictPopups q => some { w with popupCache := w.popupCache.evict q }
  | .evictRecaps => some { w with recapCache := w.recapCache.evict () }
  | .activePopups platform asking session => some (w.activePopups platform asking session).1
  | .mine account => some (w.mine account).1

/-! ### What deletions leave of a choice -/

theorem Choice.Narrows.refl (c : Choice) : c.Narrows c := ⟨rfl, le_rfl, id⟩

theorem Choice.Narrows.trans {a b c : Choice} (hab : a.Narrows b) (hbc : b.Narrows c) : a.Narrows c :=
  ⟨hab.schoolId.trans hbc.schoolId, hab.targets.trans hbc.targets, fun h => hab.left (hbc.left h)⟩

/-- Without the targets that name accounts that are gone. -/
def Choice.without (gone : Set String) (c : Choice) : Choice :=
  { c with targets := {t ∈ c.targets | ∀ uid ∈ gone, t ≠ .user uid} }

theorem Popup.choice_filter (p : Popup) (gone : List String) :
    ({ p with targetUsers := p.targetUsers.filter (· ∉ gone) } : Popup).choice =
      p.choice.without {uid | uid ∈ gone} := by
  simp only [Popup.choice, Choice.without, Choice.mk.injEq, true_and]
  ext t
  constructor
  · rintro (⟨uid, hu, rfl⟩ | ⟨k, hk, rfl⟩)
    · obtain ⟨hu, hgone⟩ := List.mem_filter.mp hu
      refine ⟨.inl ⟨uid, hu, rfl⟩, fun uid' (h : uid' ∈ gone) heq => ?_⟩
      cases heq
      exact of_decide_eq_true hgone h
    · exact ⟨.inr ⟨k, hk, rfl⟩, fun uid' _ heq => by cases heq⟩
  · rintro ⟨⟨uid, hu, rfl⟩ | ⟨k, hk, rfl⟩, hkeep⟩
    · exact .inl ⟨uid, List.mem_filter.mpr ⟨hu, decide_eq_true fun h => hkeep uid h rfl⟩, rfl⟩
    · exact .inr ⟨k, hk, rfl⟩

theorem RecapReach.choice_filter (r : RecapReach) (gone : List String) :
    ({ r with targetUsers := r.targetUsers.filter (· ∉ gone) } : RecapReach).choice =
      r.choice.without {uid | uid ∈ gone} := by
  simp only [RecapReach.choice, Choice.without, Choice.mk.injEq, true_and]
  ext t
  constructor
  · rintro (⟨uid, hu, rfl⟩ | ⟨s, hs, rfl⟩ | ⟨c, hc, rfl⟩)
    · obtain ⟨hu, hgone⟩ := List.mem_filter.mp hu
      refine ⟨.inl ⟨uid, hu, rfl⟩, fun uid' (h : uid' ∈ gone) heq => ?_⟩
      cases heq
      exact of_decide_eq_true hgone h
    · exact ⟨.inr (.inl ⟨s, hs, rfl⟩), fun uid' _ heq => by cases heq⟩
    · exact ⟨.inr (.inr ⟨c, hc, rfl⟩), fun uid' _ heq => by cases heq⟩
  · rintro ⟨⟨uid, hu, rfl⟩ | hother, hkeep⟩
    · exact .inl ⟨uid, List.mem_filter.mpr ⟨hu, decide_eq_true fun h => hkeep uid h rfl⟩, rfl⟩
    · exact .inr hother

/-- A choice loses nothing but the accounts that are gone, and keeps a target if it has another. -/
theorem Choice.without_narrows {gone removed : Set String} {c : Choice} (hsub : gone ⊆ removed)
    (hleft : c.targets.Nonempty → ∃ t ∈ c.targets, ∀ uid ∈ removed, t ≠ .user uid) :
    (c.without gone).Narrows c :=
  ⟨rfl, fun _ ht => ht.1, fun h =>
    have ⟨t, ht, hkeep⟩ := hleft h
    ⟨t, ht, fun uid hu => hkeep uid (hsub hu)⟩⟩

/-! ### The condition -/

/-- The accounts an action removes. -/
def Action.removes (w : World) : Action → Set String
  | .deleteUser uid => {uid}
  | .deleteOwnAccount uid => {uid}
  | .rollover p => {uid | w.notices.db.archive.admits p = true ∧ uid ∉ w.notices.db.admins}
  | _ => ∅

/-- No choice loses its last target to the accounts the action removes. -/
def KeepsATarget (w : World) (a : Action) : Prop :=
  (∀ p ∈ w.notices.popups, p.choice.targets.Nonempty →
    ∃ t ∈ p.choice.targets, ∀ uid ∈ a.removes w, t ≠ .user uid) ∧
  ∀ r ∈ w.notices.recaps, r.choice.targets.Nonempty →
    ∃ t ∈ r.choice.targets, ∀ uid ∈ a.removes w, t ≠ .user uid

/-! ### The invariant -/

/-- What is stored, and what may still be answered from the cache, is within what was saved. -/
structure World.Inv (w : World) : Prop where
  popups : ∀ p ∈ w.notices.popups, ∃ c, w.savedPopups p.id = some c ∧ p.choice.Narrows c
  recaps : ∀ r ∈ w.notices.recaps, ∃ c, w.savedRecaps r.id = some c ∧ r.choice.Narrows c
  popupCache : w.popupCache.Good fun q rows =>
    ∀ row ∈ rows, ∃ c, w.savedPopups row.id = some c ∧ q.user ∈ c.popupReach
  recapCache : w.recapCache.Good fun _ rs =>
    ∀ r ∈ rs, ∃ c, w.savedRecaps r.id = some c ∧ r.choice.Narrows c

namespace World.Inv

variable {w : World}

theorem setPopups (h : w.Inv) {popups : List Popup}
    (hp : ∀ p ∈ popups, ∃ p' ∈ w.notices.popups, p'.id = p.id ∧ p.choice = p'.choice) :
    (w.setPopups popups).Inv := by
  refine ⟨fun p hmem => ?_, h.recaps, h.popupCache.invalidate, h.recapCache⟩
  obtain ⟨p', hp', hid, hchoice⟩ := hp p hmem
  obtain ⟨c, hc, hn⟩ := h.popups p' hp'
  exact ⟨c, hid ▸ hc, hchoice ▸ hn⟩

theorem setRecaps (h : w.Inv) {recaps : List Recap}
    (hr : ∀ r ∈ recaps, ∃ r' ∈ w.notices.recaps, r'.id = r.id ∧ r.choice = r'.choice) :
    (w.setRecaps recaps).Inv := by
  refine ⟨h.popups, fun r hmem => ?_, h.popupCache, h.recapCache.invalidate⟩
  obtain ⟨r', hr', hid, hchoice⟩ := hr r hmem
  obtain ⟨c, hc, hn⟩ := h.recaps r' hr'
  exact ⟨c, hid ▸ hc, hchoice ▸ hn⟩

theorem savePopup (h : w.Inv) {p : Popup} {popups : List Popup}
    (hp : ∀ p' ∈ popups, p' = p ∨ p' ∈ w.notices.popups ∧ p'.id ≠ p.id) : (w.savePopup p popups).Inv := by
  refine ⟨fun p' hmem => ?_, h.recaps, h.popupCache.invalidate, h.recapCache⟩
  rcases hp p' hmem with rfl | ⟨hold, hne⟩
  · exact ⟨p'.choice, Function.update_self .., .refl _⟩
  · obtain ⟨c, hc, hn⟩ := h.popups p' hold
    exact ⟨c, (Function.update_of_ne hne ..).trans hc, hn⟩

theorem saveRecap (h : w.Inv) {r : Recap} {recaps : List Recap}
    (hr : ∀ r' ∈ recaps, r' = r ∨ r' ∈ w.notices.recaps ∧ r'.id ≠ r.id) : (w.saveRecap r recaps).Inv := by
  refine ⟨h.popups, fun r' hmem => ?_, h.popupCache, h.recapCache.invalidate⟩
  rcases hr r' hmem with rfl | ⟨hold, hne⟩
  · exact ⟨r'.choice, Function.update_self .., .refl _⟩
  · obtain ⟨c, hc, hn⟩ := h.recaps r' hold
    exact ⟨c, (Function.update_of_ne hne ..).trans hc, hn⟩

theorem setDb (h : w.Inv) (db : Db) : (w.setDb db).Inv :=
  ⟨h.popups, h.recaps, h.popupCache, h.recapCache⟩

/-- **Deleting accounts widens no choice that keeps a target.** -/
theorem deleteFrom (h : w.Inv) {db : Db} {a : Action} (hok : KeepsATarget w a)
    (hgone : ∀ uid ∈ w.notices.db.live.users.map User.stableUid,
      uid ∉ db.live.users.map User.stableUid → uid ∈ a.removes w) : (w.deleteFrom db).Inv := by
  refine ⟨fun p hmem => ?_, fun r hmem => ?_, h.popupCache.invalidate, h.recapCache.invalidate⟩
  · obtain ⟨p, hp, rfl⟩ := List.mem_map.mp hmem
    obtain ⟨c, hc, hn⟩ := h.popups p hp
    refine ⟨c, hc, .trans ?_ hn⟩
    rw [Popup.choice_filter]
    refine Choice.without_narrows (fun uid hu => ?_) (hok.1 p hp)
    obtain ⟨hu, hno⟩ := List.mem_filter.mp hu
    exact hgone uid hu (by simpa using hno)
  · obtain ⟨r, hr, rfl⟩ := List.mem_map.mp hmem
    obtain ⟨c, hc, hn⟩ := h.recaps r hr
    refine ⟨c, hc, .trans ?_ hn⟩
    rw [RecapReach.choice_filter]
    refine Choice.without_narrows (fun uid hu => ?_) (hok.2 r hr)
    obtain ⟨hu, hno⟩ := List.mem_filter.mp hu
    exact hgone uid hu (by simpa using hno)

theorem popupLoad (h : w.Inv) (q : PopupQuery) :
    ∀ row ∈ (w.notices.popups.filter (Popup.matches w.now q)).map Popup.row,
      ∃ c, w.savedPopups row.id = some c ∧ q.user ∈ c.popupReach := by
  intro row hrow
  obtain ⟨p, hp, rfl⟩ := List.mem_map.mp hrow
  obtain ⟨hp, hmatch⟩ := List.mem_filter.mp hp
  obtain ⟨c, hc, hn⟩ := h.popups p hp
  exact ⟨c, hc, hn.popupReach (popup_shown hmatch)⟩

theorem recapLoad (h : w.Inv) :
    ∀ r ∈ w.notices.recaps.filter Recap.enabled, ∃ c, w.savedRecaps r.id = some c ∧ r.choice.Narrows c :=
  fun r hr => h.recaps r (List.mem_filter.mp hr).1

theorem activePopups (h : w.Inv) (platform : Platform) (asking : Asking) (session : Option Account) :
    (w.activePopups platform asking session).1.Inv :=
  ⟨h.popups, h.recaps, h.popupCache.cached_fst (h.popupLoad _), h.recapCache⟩

theorem mine (h : w.Inv) (account : Account) : (w.mine account).1.Inv :=
  ⟨h.popups, h.recaps, h.popupCache, h.recapCache.cached_fst h.recapLoad⟩

end World.Inv

/-! ### What one step does -/

theorem Live.mem_deleteUsers {l : Live} {gone : User → Bool} {uid : String}
    (hu : uid ∈ l.users.map User.stableUid) (hno : uid ∉ (l.deleteUsers gone).users.map User.stableUid) :
    ∃ u ∈ l.users, u.stableUid = uid ∧ gone u = true := by
  obtain ⟨u, hmem, rfl⟩ := List.mem_map.mp hu
  refine ⟨u, hmem, rfl, ?_⟩
  by_contra hkeep
  exact hno (List.mem_map_of_mem (List.mem_filter.mpr ⟨hmem, by simpa using hkeep⟩))

section
variable {n : Notices} {site : Site} {viewSchool : Option String} {id : String}

theorem Notices.createPopup_ok {body : PopupBody} {p : Popup}
    (h : n.createPopup site viewSchool id body = .ok p) : p.id = id ∧ ∀ p' ∈ n.popups, p'.id ≠ id := by
  obtain ⟨-, -, h⟩ := bind_eq_ok.mp h
  obtain ⟨schoolId, -, h⟩ := bind_eq_ok.mp h
  obtain ⟨targets, -, h⟩ := bind_eq_ok.mp h
  split at h
  · cases h
  · next hfree =>
      cases h
      exact ⟨rfl, by simpa using hfree⟩

theorem Notices.putPopup_ok {body : PopupBody} {p : Popup} (h : n.putPopup site viewSchool id body = .ok p) :
    p.id = id := by
  obtain ⟨existing, -, h⟩ := bind_eq_ok.mp h
  obtain ⟨schoolId, -, h⟩ := bind_eq_ok.mp h
  obtain ⟨targets, -, h⟩ := bind_eq_ok.mp h
  obtain ⟨-, -, ⟨⟩⟩ := bind_eq_ok.mp h
  rfl

theorem Notices.createRecap_ok {body : RecapBody} {r : Recap}
    (h : n.createRecap site viewSchool id body = .ok r) : r.id = id ∧ ∀ r' ∈ n.recaps, r'.id ≠ id := by
  obtain ⟨-, -, h⟩ := bind_eq_ok.mp h
  obtain ⟨schoolId, -, h⟩ := bind_eq_ok.mp h
  obtain ⟨reach, -, h⟩ := bind_eq_ok.mp h
  split at h
  · cases h
  · next hfree =>
      cases h
      exact ⟨rfl, by simpa using hfree⟩

theorem Notices.putRecap_ok {body : RecapBody} {r : Recap} (h : n.putRecap site viewSchool id body = .ok r) :
    r.id = id := by
  obtain ⟨existing, -, h⟩ := bind_eq_ok.mp h
  obtain ⟨-, -, h⟩ := bind_eq_ok.mp h
  obtain ⟨schoolId, -, h⟩ := bind_eq_ok.mp h
  obtain ⟨reach, -, ⟨⟩⟩ := bind_eq_ok.mp h
  rfl

end

/-- A row that is put in the place of the one with its id. -/
theorem mem_map_replace {α : Type} {key : α → String} {x y : α} {l : List α} {id : String} (hx : key x = id)
    (h : y ∈ l.map fun z => if key z = id then x else z) : y = x ∨ y ∈ l ∧ key y ≠ key x := by
  obtain ⟨z, hz, rfl⟩ := List.mem_map.mp h
  by_cases hid : key z = id
  · exact .inl (if_pos hid)
  · rw [if_neg hid, hx]
    exact .inr ⟨hz, hid⟩

theorem mem_append_new {α : Type} {key : α → String} {x y : α} {l : List α}
    (hfree : ∀ z ∈ l, key z ≠ key x) (h : y ∈ l ++ [x]) : y = x ∨ y ∈ l ∧ key y ≠ key x := by
  rcases List.mem_append.mp h with hold | hnew
  · exact .inr ⟨hold, hfree y hold⟩
  · exact .inl (List.mem_singleton.mp hnew)

theorem World.Inv.step {site : Site} {w w' : World} {a : Action} (h : w.Inv) (hok : KeepsATarget w a)
    (hs : w.step site a = some w') : w'.Inv := by
  cases a with
  | createPopup viewSchool id body =>
      obtain ⟨p, hp, rfl⟩ := Option.map_eq_some_iff.mp hs
      obtain ⟨rfl, hfree⟩ := Notices.createPopup_ok (toOption_eq_some.mp hp)
      exact h.savePopup fun p' => mem_append_new hfree
  | putPopup viewSchool id body =>
      obtain ⟨p, hp, rfl⟩ := Option.map_eq_some_iff.mp hs
      exact h.savePopup fun p' => mem_map_replace (Notices.putPopup_ok (toOption_eq_some.mp hp))
  | enablePopup viewSchool id enabled =>
      obtain ⟨_, -, rfl⟩ := Option.map_eq_some_iff.mp hs
      refine h.setPopups fun p hp => ?_
      obtain ⟨p, hmem, rfl⟩ := List.mem_map.mp hp
      refine ⟨p, hmem, ?_⟩
      split <;> exact ⟨rfl, rfl⟩
  | deletePopup viewSchool id =>
      obtain ⟨_, -, rfl⟩ := Option.map_eq_some_iff.mp hs
      exact h.setPopups fun p hp => ⟨p, (List.mem_filter.mp hp).1, rfl, rfl⟩
  | createRecap viewSchool id body =>
      obtain ⟨r, hr, rfl⟩ := Option.map_eq_some_iff.mp hs
      obtain ⟨rfl, hfree⟩ := Notices.createRecap_ok (toOption_eq_some.mp hr)
      exact h.saveRecap fun r' => mem_append_new hfree
  | putRecap viewSchool id body =>
      obtain ⟨r, hr, rfl⟩ := Option.map_eq_some_iff.mp hs
      exact h.saveRecap fun r' => mem_map_replace (Notices.putRecap_ok (toOption_eq_some.mp hr))
  | enableRecap viewSchool id enabled =>
      obtain ⟨_, -, rfl⟩ := Option.map_eq_some_iff.mp hs
      refine h.setRecaps fun r hr => ?_
      obtain ⟨r, hmem, rfl⟩ := List.mem_map.mp hr
      refine ⟨r, hmem, ?_⟩
      split <;> exact ⟨rfl, rfl⟩
  | deleteRecap viewSchool id =>
      obtain ⟨_, -, rfl⟩ := Option.map_eq_some_iff.mp hs
      exact h.setRecaps fun r hr => ⟨r, (List.mem_filter.mp hr).1, rfl, rfl⟩
  | signIn u => cases hs; exact h.setDb _
  | createClass c => cases hs; exact h.setDb _
  | deleteClass id => cases hs; exact h.setDb _
  | addSchool id => cases hs; exact ⟨h.popups, h.recaps, h.popupCache, h.recapCache⟩
  | setAdmins uids => cases hs; exact h.setDb _
  | deleteUser uid =>
      cases hs
      refine h.deleteFrom hok fun uid' hu hno => ?_
      obtain ⟨u, -, rfl, hgone⟩ := Live.mem_deleteUsers hu hno
      have huid : u.stableUid = uid := of_decide_eq_true hgone
      exact huid
  | deleteOwnAccount uid =>
      simp only [World.step] at hs
      split at hs
      · next u hu =>
          obtain ⟨-, ⟨⟩⟩ := Option.ite_none_left_eq_some.mp hs
          refine h.deleteFrom hok fun uid' hu' hno => ?_
          obtain ⟨v, -, rfl, hgone⟩ := Live.mem_deleteUsers hu' hno
          have huid : u.stableUid = uid := by simpa using List.find?_some hu
          have hvu : v.stableUid = u.stableUid := of_decide_eq_true hgone
          exact hvu.trans huid
      · cases hs
  | rollover p =>
      obtain ⟨⟨res, db⟩, hroll, rfl⟩ := Option.map_eq_some_iff.mp hs
      obtain ⟨hadm, rfl⟩ := performRollover_ok (toOption_eq_some.mp hroll)
      refine h.deleteFrom hok fun uid hu hno => ⟨hadm, ?_⟩
      obtain ⟨u, -, rfl, hgone⟩ := Live.mem_deleteUsers
        (l := w.notices.db.live.deleteClasses fun _ => true) hu hno
      exact of_decide_eq_true hgone
  | rollback q id =>
      obtain ⟨_, -, rfl⟩ := Option.map_eq_some_iff.mp hs
      exact h.setDb _
  | tick now =>
      obtain ⟨-, ⟨⟩⟩ := Option.ite_none_right_eq_some.mp hs
      exact ⟨h.popups, h.recaps, h.popupCache, h.recapCache⟩
  | evictPopups q => cases hs; exact ⟨h.popups, h.recaps, h.popupCache.evict, h.recapCache⟩
  | evictRecaps => cases hs; exact ⟨h.popups, h.recaps, h.popupCache, h.recapCache.evict⟩
  | activePopups platform asking session => cases hs; exact h.activePopups ..
  | mine account => cases hs; exact h.mine _

/-! ### Whole runs -/

/-- A server without popups and recaps. -/
def World.start (db : Db) (schools : List String) (now : Time) : World where
  notices := ⟨db, schools, [], []⟩
  now
  popupCache := .empty
  recapCache := .empty
  savedPopups := fun _ => none
  savedRecaps := fun _ => none

theorem World.start_inv (db : Db) (schools : List String) (now : Time) : (World.start db schools now).Inv :=
  ⟨fun _ h => absurd h List.not_mem_nil, fun _ h => absurd h List.not_mem_nil, Cache.good_empty,
    Cache.good_empty⟩

/-- What is shown without a session is for everyone. -/
theorem Choice.popupReach_of_none {c : Choice} (h : none ∈ c.popupReach) (v : Option Visitor) :
    v ∈ c.popupReach := by
  obtain ⟨hs, hr⟩ := h
  refine ⟨fun s hsome => ?_, ?_⟩
  · cases hs s hsome
  · rcases hr with ⟨hempty, -⟩ | ⟨t, -, ht⟩
    · exact .inl ⟨hempty, trivial⟩
    · cases t with
      | user uid => obtain ⟨w, hw, -⟩ := ht; cases hw
      | «class» s k => obtain ⟨w, hw, -⟩ := ht; cases hw
      | school s => cases ht

/-- A class id that is no class id does not matter. -/
theorem Choice.recapReach_of_normal {c : Choice} {a : Account}
    (h : { a with klasseId := if 0 < a.klasseId then a.klasseId else 0 } ∈ c.recapReach) : a ∈ c.recapReach := by
  obtain ⟨hs, hr⟩ := h
  refine ⟨hs, ?_⟩
  rcases hr with ⟨hempty, ha⟩ | ⟨t, ht, ha⟩
  · exact .inl ⟨hempty, ha⟩
  · refine .inr ⟨t, ht, ?_⟩
    cases t with
    | user uid => exact ha
    | school s => exact ha
    | «class» s k =>
        obtain ⟨hrole, hpos, hsc, hk⟩ := ha
        by_cases hp : 0 < a.klasseId
        · rw [if_pos hp] at hk
          exact ⟨hrole, hp, hsc, hk⟩
        · rw [if_neg hp] at hpos
          exact absurd hpos (lt_irrefl 0)

/-- **The audience of a popup or recap never widens by itself**, in a run in which no deletion of
accounts takes the last target of a popup or recap: whoever is shown one is within the choice that was
last saved. -/
theorem audience_never_widens {site : Site} {db : Db} {schools : List String} {now : Time}
    {as : List Action} {w : World} (hm : Meets (World.step site) KeepsATarget (.start db schools now) as)
    (h : run (World.step site) (.start db schools now) as = some w) :
    (∀ platform asking session, ∀ row ∈ (w.activePopups platform asking session).2,
      ∃ c, w.savedPopups row.id = some c ∧ session.map Account.visitor ∈ c.popupReach) ∧
    ∀ account, ∀ r ∈ (w.mine account).2, ∃ c, w.savedRecaps r.id = some c ∧ account ∈ c.recapReach := by
  have hinv : w.Inv := run_invariant_of_meets (P := World.Inv) (fun _ _ _ hi hok hs => hi.step hok hs)
    (World.start_inv db schools now) hm h
  constructor
  · intro platform asking session row hrow
    obtain ⟨hrow, -⟩ := List.mem_filter.mp hrow
    obtain ⟨c, hc, hin⟩ := hinv.popupCache.cached_snd (hinv.popupLoad _) row hrow
    refine ⟨c, hc, ?_⟩
    cases asking with
    | user => exact hin
    | guest => exact Choice.popupReach_of_none hin _
  · intro account r hr
    obtain ⟨hr, hreach⟩ := List.mem_filter.mp hr
    rw [Bool.and_eq_true] at hreach
    obtain ⟨c, hc, hn⟩ := hinv.recapCache.cached_snd hinv.recapLoad r hr
    exact ⟨c, hc, Choice.recapReach_of_normal (hn.recapReach (recapReaches_iff.mp hreach.2))⟩

/-! ### A recap and a popup for one pupil -/

def plainSite : Site where
  render := id
  day := fun day => if day = "2025-09-01" then 20332 else 20634

def recapFor (uids : List String) : RecapBody where
  title := "Dein Schuljahr"
  periodFrom := "2025-09-01"
  periodTo := "2026-06-30"
  startsAt := none
  endsAt := none
  sections := ["pokyh"]
  enabled := true
  targetSchools := []
  targetClasses := []
  targetUsers := uids
  schoolId := .absent

def popupFor (uids : List String) : PopupBody where
  title := "Hinweis"
  content := ""
  platform := .all
  audience := .all
  mode := .once
  showCount := 1
  startsAt := none
  endsAt := none
  enabled := true
  resetSeen := false
  targetUsers := uids
  targetClasses := []
  schoolId := .absent

/-- Two pupils. -/
def twoPupils : Db where
  live := ⟨[freshAccount "a", freshAccount "b"], [], [], [], [], []⟩
  admins := []
  archive := ⟨[], [], [], [], [], []⟩

def pupilC : Account := ⟨"c", some "s", 0, "student"⟩

theorem audience_never_widens_bothChosen :
    ∃ w, run (World.step plainSite) (.start twoPupils [] 0)
        [.createRecap none "r" (recapFor ["a", "b"]), .deleteUser "b"] = some w ∧
      ∀ account, ∀ r ∈ (w.mine account).2, ∃ c, w.savedRecaps r.id = some c ∧ account ∈ c.recapReach := by
  have hmeets : Meets (World.step plainSite) KeepsATarget (.start twoPupils [] 0)
      [.createRecap none "r" (recapFor ["a", "b"]), .deleteUser "b"] := by
    refine .cons ⟨fun p hp => absurd hp List.not_mem_nil, fun r hr => absurd hr List.not_mem_nil⟩ rfl ?_
    refine .cons ⟨fun p hp => absurd hp List.not_mem_nil, fun r hr _ => ?_⟩ rfl trivial
    obtain rfl := List.mem_singleton.mp hr
    exact ⟨.user "a", .inl ⟨"a", by decide, rfl⟩, fun uid (hu : uid = "b") heq => by
      cases heq
      exact absurd hu (by decide)⟩
  exact ⟨_, rfl, (audience_never_widens hmeets rfl).2⟩

/-- **When the only pupil they were for is deleted, a recap and a popup are everybody's.** -/
theorem audience_widens :
    ∃ w, run (World.step plainSite) (.start twoPupils [] 0)
        [.createRecap none "r" (recapFor ["a"]), .createPopup none "p" (popupFor ["a"]), .deleteUser "a"] =
          some w ∧
      (w.mine pupilC).2.map Recap.id = ["r"] ∧
      (w.activePopups .web .user (some pupilC)).2.map PopupRow.id = ["p"] ∧
      (∀ c, w.savedRecaps "r" = some c → pupilC ∉ c.recapReach) ∧
      ∀ c, w.savedPopups "p" = some c → some pupilC.visitor ∉ c.popupReach := by
  refine ⟨_, rfl, by decide, by decide, ?_, ?_⟩
  · intro c hc
    cases hc
    rintro ⟨-, ⟨hempty, -⟩ | ⟨t, ht, ha⟩⟩
    · exact absurd (RecapReach.choice_targets_eq_empty.mp hempty).2.2 (by decide)
    · rcases ht with ⟨uid, hu, rfl⟩ | ⟨s, hs, rfl⟩ | ⟨k, hk, rfl⟩
      · have huid : pupilC.stableUid = uid := ha
        exact absurd (huid ▸ hu) (by decide)
      · cases hs
      · cases hk
  · intro c hc
    cases hc
    rintro ⟨-, ⟨hempty, -⟩ | ⟨t, ht, ha⟩⟩
    · exact absurd (Popup.choice_targets_eq_empty.mp hempty).1 (by decide)
    · rcases ht with ⟨uid, hu, rfl⟩ | ⟨k, hk, rfl⟩
      · obtain ⟨v, hv, huid⟩ := ha
        cases hv
        exact absurd (huid ▸ hu) (by decide)
      · cases hk

end Pokyh.School

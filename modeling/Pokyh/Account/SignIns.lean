import Mathlib.Data.List.Basic
import Mathlib.Data.Int.Basic
import Pokyh.Lib.Runs

/-!
# Account — SignIns

An account's role and class over all its WebUntis sign-ins: the rules (`utils/accountClass.ts`), the sign-in that goes by
them (`completeWebUntisLogin` of `routes/auth.ts`), and what else writes those fields: an admin (`routes/admin.ts`), a
self-registration, and the re-check that comes with a new version of the rules (`services/classCheck.ts`).

* `sign_in_follows_webuntis`: **a class only where WebUntis named it, a role only where nobody has chosen one**, except
  where a sign-in takes over a self-registered account of its name.
* `takeover_forgets_choice`: such a sign-in makes a student, in a class, of a parent by an admin's choice.

The version of the rules is a part of the state: it changes from one deployment to the next.
-/

namespace Pokyh.Account.SignIns
open Pokyh.Lib

/-- Milliseconds. -/
abbrev Time := ℕ

/-! ### The rules -/

/-- What WebUntis says a sign-in is. -/
inductive AccountKind where
  | student
  | parent
  | other
  | unknown
  deriving DecidableEq, Repr

inductive AccountRole where
  | student
  | parent
  | none
  deriving DecidableEq, Repr

/-- Where a class was found. -/
inductive RecordSource where
  | authenticate
  | students
  | appData
  | pageconfig
  | weeklyData
  | timetable
  | filterSingle
  deriving DecidableEq, Repr

inductive ClassSource where
  | record (source : RecordSource)
  /-- Confirmed before, and WebUntis did not tell this time. -/
  | kept
  deriving DecidableEq, Repr

/-- Why an account has no class. -/
inductive ClassNote where
  | roleParent
  | roleNone
  | notStudent
  | appdataUnreadable
  | noClassFound
  | candidateRejected
  | webuntisUnavailable
  | sharedPerson
  | studentRecordOnParent
  | noSession
  deriving DecidableEq, Repr

/-- What WebUntis says of the account's class. -/
inductive ClassEvidence where
  | klasse (klasseId : ℤ) (klasseName : String) (source : RecordSource)
  /-- The account has no class. -/
  | none (note : ClassNote)
  /-- WebUntis did not tell. -/
  | unknown (note : ClassNote)
  deriving DecidableEq, Repr

structure AccountClassIdentity where
  klasseId : ℤ
  klasseName : String
  deriving DecidableEq, Repr

structure StoredAccountClass extends AccountClassIdentity where
  checkVersion : ℕ
  deriving DecidableEq, Repr

structure AccountClassDecision extends AccountClassIdentity where
  checkVersion : ℕ
  confirmed : Bool
  classSource : Option ClassSource
  classNote : Option ClassNote
  deriving DecidableEq, Repr

def hasClassIdentity (role : AccountRole) : Bool :=
  role ≠ .parent && role ≠ .none

/-- White space, for `trim`. -/
def isSpace (c : Char) : Bool :=
  let n := c.toNat
  (9 ≤ n && n ≤ 13) || n = 0x20 || n = 0xA0 || n = 0x1680 || (0x2000 ≤ n && n ≤ 0x200A) || n = 0x2028 || n = 0x2029 ||
    n = 0x202F || n = 0x205F || n = 0x3000 || n = 0xFEFF

def trim (s : String) : String :=
  String.ofList ((s.toList.dropWhile isSpace).reverse.dropWhile isSpace).reverse

def normalizeAccountClass (role : AccountRole) (klasseId : ℤ) (klasseName : String) : AccountClassIdentity :=
  if !hasClassIdentity role || klasseId ≤ 0 then ⟨0, ""⟩ else ⟨klasseId, trim klasseName⟩

/-- No class, for that reason. -/
def noClass (classNote : ClassNote) (confirmed : Bool) (checkVersion : ℕ) : AccountClassDecision :=
  ⟨⟨0, ""⟩, checkVersion, confirmed, none, some classNote⟩

/-- The class that the rules of this version confirmed before stays. -/
def keepClass (version : ℕ) (role : AccountRole) (stored : Option StoredAccountClass)
    (otherwise : AccountClassDecision) : AccountClassDecision :=
  match stored with
  | none => otherwise
  | some stored =>
      if stored.checkVersion = version ∧ 0 < stored.klasseId then
        ⟨normalizeAccountClass role stored.klasseId stored.klasseName, version, false, some .kept, none⟩
      else otherwise

def decideAccountClass (version : ℕ) (role : AccountRole) (evidence : ClassEvidence)
    (stored : Option StoredAccountClass) (sharedPerson : Bool) : AccountClassDecision :=
  if role = .parent then noClass .roleParent true version
  else if role = .none then noClass .roleNone true version
  else
    match evidence with
    | .none note => noClass note true version
    | .klasse klasseId klasseName source =>
        if sharedPerson then noClass .sharedPerson true version
        else
          let named := normalizeAccountClass role klasseId klasseName
          if 0 < named.klasseId then ⟨named, version, true, some (.record source), none⟩
          else keepClass version role stored (noClass .noClassFound false ((stored.map (·.checkVersion)).getD 0))
    | .unknown note =>
        if sharedPerson then noClass .sharedPerson true version
        else
          keepClass version role stored <|
            -- WebUntis answered, and names no class: nothing to wait for
            if note = .noClassFound ∨ note = .candidateRejected then noClass note true version
            else noClass note false ((stored.map (·.checkVersion)).getD 0)

structure StoredRole where
  role : AccountRole
  roleLocked : Bool
  deriving DecidableEq, Repr

/-- The role at a sign-in; `stored` is none for a new account. -/
def decideAccountRole (stored : Option StoredRole) (kind : AccountKind) (claimed : AccountRole) :
    AccountRole × Option ClassNote :=
  match stored with
  | some ⟨role, true⟩ => (role, none)
  | some ⟨.none, false⟩ => (.none, none)
  | stored =>
      let current := stored.map (·.role)
      match kind with
      | .parent => (.parent, none)
      | .student => if current = some .parent then (.parent, some .studentRecordOnParent) else (.student, none)
      | .other | .unknown =>
          match current with
          | some role => (role, none)
          | none => (if claimed = .parent then .parent else .student, none)

/-! ### The accounts -/

inductive LocalOrigin where
  | admin
  | register
  deriving DecidableEq, Repr

/-- A row of `users`, told apart by its name. -/
structure User where
  username : String
  role : AccountRole
  roleLocked : Bool
  webuntisKlasseId : ℤ
  webuntisKlasseName : String
  /-- 0: never checked. -/
  classCheckVersion : ℕ
  classCheckedAt : Option Time
  classSource : Option ClassSource
  classNote : Option ClassNote
  webuntisPersonId : Option ℕ
  passwordHash : Option String
  isUntisUser : Bool
  localOrigin : Option LocalOrigin
  schoolId : Option String
  createdAt : Time
  deriving DecidableEq, Repr

/-- A row of `archived_users`. -/
structure ArchivedUser where
  username : String
  role : AccountRole
  roleLocked : Bool
  deriving DecidableEq, Repr

/-- What WebUntis said at a sign-in. -/
structure WebUntisFindings where
  kind : AccountKind
  evidence : ClassEvidence
  studentRecordId : ℕ
  deriving DecidableEq, Repr

/-- What a sign-in has said of an account, and what it went by. -/
structure Said where
  username : String
  version : ℕ
  kind : AccountKind
  evidence : ClassEvidence
  /-- An older account is on the same record. -/
  shared : Bool
  /-- An admin had chosen the role. -/
  locked : Bool
  deriving DecidableEq, Repr

structure World where
  users : List User
  /-- Newest first. -/
  archived : List ArchivedUser
  /-- The names of the accounts that are admins or owners. -/
  admins : List String
  /-- The version of the rules, `CLASS_CHECK_VERSION`. -/
  version : ℕ
  /-- The versions that have had their re-check. -/
  rechecked : List ℕ
  /-- What all sign-ins have said, newest first. -/
  log : List Said
  deriving DecidableEq, Repr

/-- No accounts yet. -/
def World.initial (archived : List ArchivedUser) (version : ℕ) : World :=
  ⟨[], archived, [], version, [], []⟩

def World.account (w : World) (username : String) : Option User :=
  w.users.find? (·.username = username)

def World.updateUser (w : World) (username : String) (change : User → User) : World :=
  { w with users := w.users.map fun u => if u.username = username then change u else u }

/-! ### A sign-in -/

structure SignIn where
  username : String
  /-- None: nothing was asked. -/
  found : Option WebUntisFindings
  claimed : AccountRole
  schoolId : String
  /-- The account was not there when the sign-in looked, and its own `create` comes too late. -/
  late : Bool
  now : Time
  schoolYearStart : Time
  deriving DecidableEq, Repr

inductive AppError where
  | schoolTaken
  | nameTakenByAdmin
  deriving DecidableEq, Repr

def isSelfRegistered (user : User) : Bool :=
  user.passwordHash.isSome && !user.isUntisUser && user.localOrigin ≠ some .admin

/-- What a self-registered account becomes when the WebUntis account of its name signs in. -/
def takeOverSelfRegistered (schoolId : String) (user : User) : User :=
  { user with
    passwordHash := none, localOrigin := none, isUntisUser := true, schoolId := some schoolId
    role := .student, roleLocked := false
    webuntisKlasseId := 0, webuntisKlasseName := "", classCheckVersion := 0, classSource := none, classNote := none
    webuntisPersonId := none }

def World.sharesPupilRecord (w : World) (schoolId : String) (recordId : ℕ) (self : Option User)
    (schoolYearStart : Time) : Bool :=
  if recordId = 0 || self.any (·.roleLocked) then false
  else
    w.users.any fun other =>
      other.schoolId = some schoolId && other.webuntisPersonId = some recordId && other.role = .student &&
        other.classCheckedAt.any (schoolYearStart ≤ ·) &&
        self.all fun self => other.username ≠ self.username && other.createdAt < self.createdAt

/-- What `syncUserClass` does to the account: one without a class identity has no class. -/
def syncUserClass (user : User) : User :=
  if hasClassIdentity user.role then user else { user with webuntisKlasseId := 0, webuntisKlasseName := "" }

/-- The account as a sign-in's decision leaves it. -/
def User.decided (user : User) (role : AccountRole × Option ClassNote) (decided : AccountClassDecision)
    (recordId : ℕ) (s : SignIn) : User :=
  { user with
    webuntisKlasseId := decided.klasseId
    webuntisKlasseName := decided.klasseName
    classCheckVersion := decided.checkVersion
    classCheckedAt := if decided.confirmed then some s.now else user.classCheckedAt
    -- kept says nothing new: the source it was found by stays
    classSource := if decided.classSource = some .kept then user.classSource else decided.classSource
    classNote := role.2.or decided.classNote
    webuntisPersonId := if 0 < recordId then some recordId else user.webuntisPersonId
    isUntisUser := true
    role := role.1
    schoolId := user.schoolId.or (some s.schoolId) }

/-- The sign-in of an account that is there. -/
def World.signInTo (w : World) (s : SignIn) (user : User) : World :=
  match s.found with
  | none => w.updateUser s.username syncUserClass
  | some found =>
      let role := decideAccountRole (some ⟨user.role, user.roleLocked⟩) found.kind s.claimed
      let shared := w.sharesPupilRecord s.schoolId found.studentRecordId (some user) s.schoolYearStart
      let decided := decideAccountClass w.version role.1 found.evidence
        (some ⟨⟨user.webuntisKlasseId, user.webuntisKlasseName⟩, user.classCheckVersion⟩) shared
      { w.updateUser s.username fun u => syncUserClass (u.decided role decided found.studentRecordId s) with
        log := ⟨s.username, w.version, found.kind, found.evidence, shared, user.roleLocked⟩ :: w.log }

/-- The account that a sign-in makes. -/
def SignIn.newUser (s : SignIn) (role : AccountRole × Option ClassNote) (roleLocked : Bool)
    (decided : AccountClassDecision) (recordId : ℕ) : User :=
  { username := s.username
    role := role.1
    roleLocked := roleLocked
    webuntisKlasseId := decided.klasseId
    webuntisKlasseName := decided.klasseName
    classCheckVersion := decided.checkVersion
    classCheckedAt := if decided.confirmed then some s.now else none
    classSource := decided.classSource
    classNote := role.2.or decided.classNote
    webuntisPersonId := if 0 < recordId then some recordId else none
    passwordHash := none
    isUntisUser := true
    localOrigin := none
    schoolId := some s.schoolId
    createdAt := s.now }

/-- An admin's choice from before the rollover. -/
def World.archivedChoice (w : World) (username : String) : Option ArchivedUser :=
  w.archived.find? fun a => a.username = username && a.roleLocked

/-- The sign-in of a new account. -/
def World.signInNew (w : World) (s : SignIn) : World :=
  let kind := (s.found.map (·.kind)).getD .unknown
  let archived := w.archivedChoice s.username
  let role := decideAccountRole (archived.map fun a => ⟨a.role, true⟩) kind s.claimed
  let recordId := (s.found.map (·.studentRecordId)).getD 0
  let shared := w.sharesPupilRecord s.schoolId recordId none s.schoolYearStart && archived.isNone
  let decided := decideAccountClass w.version role.1 ((s.found.map (·.evidence)).getD (.unknown .noSession)) none shared
  { w with
    users := w.users ++ [syncUserClass (s.newUser role archived.isSome decided recordId)]
    log := (s.found.map fun found =>
      ⟨s.username, w.version, found.kind, found.evidence, shared, archived.isSome⟩).toList ++ w.log }

/-- The sign-in takes the account over. -/
def SignIn.takesOver (s : SignIn) (user : User) : Bool :=
  !s.late && isSelfRegistered user

def World.completeWebUntisLogin (w : World) (s : SignIn) : Except AppError World :=
  match w.account s.username with
  | none => .ok (w.signInNew s)
  | some user =>
      if s.takesOver user then
        if user.username ∈ w.admins then .error .nameTakenByAdmin
        else
          .ok ((w.updateUser s.username (takeOverSelfRegistered s.schoolId)).signInTo s
            (takeOverSelfRegistered s.schoolId user))
      else if user.schoolId.any (· ≠ s.schoolId) then .error .schoolTaken
      else .ok (w.signInTo s user)

/-! ### What else writes an account's role and class -/

/-- An admin chooses the role. -/
def setRole (role : AccountRole) (user : User) : User :=
  if hasClassIdentity role then
    let pending := user.role ≠ .student ∨ user.webuntisKlasseId = 0
    { user with
      role := role, roleLocked := true
      classNote := if pending then none else user.classNote
      classCheckVersion := if pending then 0 else user.classCheckVersion }
  else
    { user with
      role := role, roleLocked := true, webuntisKlasseId := 0, webuntisKlasseName := "", classSource := none
      classNote := some (if role = .parent then .roleParent else .roleNone) }

/-- The account that an admin makes. -/
def userByAdmin (username : String) (role : AccountRole) (webuntisKlasse : AccountClassIdentity)
    (passwordHash : Option String) (schoolId : String) (now : Time) : User :=
  { username := username
    role := role
    roleLocked := role ≠ .student
    webuntisKlasseId := if hasClassIdentity role then webuntisKlasse.klasseId else 0
    webuntisKlasseName := if hasClassIdentity role then trim webuntisKlasse.klasseName else ""
    classCheckVersion := 0
    classCheckedAt := none
    classSource := none
    classNote := none
    webuntisPersonId := none
    passwordHash := passwordHash
    isUntisUser := passwordHash.isNone
    localOrigin := passwordHash.map fun _ => .admin
    schoolId := some schoolId
    createdAt := now }

/-- The account that someone makes for themselves. -/
def registerLocalAccount (username passwordHash defaultSchoolId : String) (now : Time) : User :=
  { username := username
    role := .student
    roleLocked := false
    webuntisKlasseId := 0
    webuntisKlasseName := ""
    classCheckVersion := 0
    classCheckedAt := none
    classSource := none
    classNote := none
    webuntisPersonId := none
    passwordHash := some passwordHash
    isUntisUser := false
    localOrigin := some .register
    schoolId := some defaultSchoolId
    createdAt := now }

/-- The re-check under a new version: who has not been confirmed under it leaves their class. -/
def recheckClass (version : ℕ) (user : User) : User :=
  if !hasClassIdentity user.role || (user.isUntisUser && user.classCheckVersion < version) then
    { user with webuntisKlasseId := 0, webuntisKlasseName := "" }
  else user

inductive Move where
  | signIn (s : SignIn)
  | setRole (username : String) (role : AccountRole)
  /-- Automatisch (WebUntis). -/
  | unlockRole (username : String)
  | createUser (username : String) (role : AccountRole) (webuntisKlasse : AccountClassIdentity)
      (passwordHash : Option String) (schoolId : String) (now : Time)
  | registerLocalAccount (username passwordHash defaultSchoolId : String) (now : Time)
  | setPassword (username passwordHash : String)
  | setAdmins (admins : List String)
  /-- The backend starts with other rules. -/
  | setVersion (version : ℕ)
  deriving DecidableEq, Repr

def World.step (w : World) : Move → Option World
  | .signIn s => some ((w.completeWebUntisLogin s).toOption.getD w)
  | .setRole username role => some (w.updateUser username (SignIns.setRole role))
  | .unlockRole username => some (w.updateUser username fun u => { u with roleLocked := false })
  | .createUser username role webuntisKlasse passwordHash schoolId now =>
      if (w.account username).isSome then none
      else some { w with users := w.users ++ [userByAdmin username role webuntisKlasse passwordHash schoolId now] }
  | .registerLocalAccount username passwordHash defaultSchoolId now =>
      if (w.account username).isSome then none
      else some { w with users := w.users ++ [SignIns.registerLocalAccount username passwordHash defaultSchoolId now] }
  | .setPassword username passwordHash =>
      some (w.updateUser username fun u =>
        { u with passwordHash := some passwordHash, isUntisUser := false, localOrigin := some .admin })
  | .setAdmins admins => some { w with admins := admins }
  | .setVersion version =>
      if version = 0 then none
      else if version ∈ w.rechecked then some { w with version := version }
      else some { w with
        users := w.users.map (recheckClass version), version := version, rechecked := version :: w.rechecked }

/-! ### What should hold -/

/-- WebUntis named this class. -/
def ClassEvidence.names (klasseId : ℤ) : ClassEvidence → Bool
  | .klasse named _ _ => named = klasseId && 0 < named
  | _ => false

/-- WebUntis named another class, or none. -/
def ClassEvidence.rulesOut (klasseId : ℤ) : ClassEvidence → Bool
  | .klasse named _ _ => named ≠ klasseId && 0 < named
  | .none _ => true
  | .unknown _ => false

/-- The account cannot be in that class: another one, none, somebody else's record, or a parent. -/
def Said.rulesOut (klasseId : ℤ) (said : Said) : Bool :=
  said.evidence.rulesOut klasseId || said.shared || (said.kind = .parent && !said.locked)

/-- Under this version a sign-in of the account named that class, and neither it nor a later one ruled it out. -/
def Supported (username : String) (version : ℕ) (klasseId : ℤ) (log : List Said) : Prop :=
  ∃ later said earlier, log = later ++ said :: earlier ∧ said.username = username ∧ said.version = version ∧
    said.evidence.names klasseId = true ∧
    ∀ other ∈ said :: later, other.username = username → other.rulesOut klasseId = false

/-- Nobody is asked, or WebUntis does not tell, and no older account is on the same record. -/
def World.untold (w : World) (s : SignIn) (user : User) : Prop :=
  ∀ found, s.found = some found →
    found.kind ≠ .parent ∧ (∃ note, found.evidence = .unknown note) ∧
      w.sharesPupilRecord s.schoolId found.studentRecordId (some user) s.schoolYearStart = false

/-- A sign-in gives a class that WebUntis has named, keeps the role that was chosen, and takes away no class untold. -/
structure World.Follows (w : World) (s : SignIn) (w' : World) : Prop where
  named : ∀ user', w'.account s.username = some user' → s.found.isSome = true → user'.webuntisKlasseId ≠ 0 →
    Supported s.username w.version user'.webuntisKlasseId w'.log
  role : ∀ user, w.account s.username = some user → s.takesOver user = false →
    user.roleLocked = true ∨ user.role = .none →
    ∃ user', w'.account s.username = some user' ∧ user'.role = user.role
  confirmed : ∀ user, w.account s.username = some user → user.webuntisKlasseId ≠ 0 →
    user.classCheckVersion = w.version → w.untold s user →
    ∃ user', w'.account s.username = some user' ∧ user'.webuntisKlasseId = user.webuntisKlasseId
  others : ∀ username, username ≠ s.username → w'.account username = w.account username

/-- An admin chooses the account's role, or a sign-in takes it over. -/
def World.overrules (w : World) (username : String) : Move → Bool
  | .setRole other _ => other = username
  | .signIn s => s.username = username && (w.account username).any s.takesOver
  | _ => false

/-! ### The rules, as they are used -/

theorem normalizeAccountClass_klasseId {role : AccountRole} {klasseId : ℤ} {klasseName : String}
    (h : hasClassIdentity role = true) (hpos : 0 < klasseId) :
    (normalizeAccountClass role klasseId klasseName).klasseId = klasseId := by
  have hneg : ¬ klasseId ≤ 0 := by omega
  simp [normalizeAccountClass, h, hneg]

theorem normalizeAccountClass_pos {role : AccountRole} {klasseId : ℤ} {klasseName : String}
    (h : (normalizeAccountClass role klasseId klasseName).klasseId ≠ 0) :
    0 < klasseId ∧ (normalizeAccountClass role klasseId klasseName).klasseId = klasseId := by
  rcases lt_or_ge 0 klasseId with hpos | hneg
  · cases hrole : hasClassIdentity role with
    | true => exact ⟨hpos, normalizeAccountClass_klasseId hrole hpos⟩
    | false => simp [normalizeAccountClass, hrole] at h
  · simp [normalizeAccountClass, hneg] at h

variable {version : ℕ} {role : AccountRole} {evidence : ClassEvidence} {stored : Option StoredAccountClass}
  {shared : Bool} {otherwise : AccountClassDecision}

theorem keepClass_cases (version : ℕ) (role : AccountRole) (stored : Option StoredAccountClass)
    (otherwise : AccountClassDecision) :
    keepClass version role stored otherwise = otherwise ∨
      ∃ c, stored = some c ∧ c.checkVersion = version ∧ 0 < c.klasseId ∧ keepClass version role stored otherwise =
        ⟨normalizeAccountClass role c.klasseId c.klasseName, version, false, some .kept, none⟩ := by
  cases stored with
  | none => exact .inl rfl
  | some c =>
      by_cases h : c.checkVersion = version ∧ 0 < c.klasseId
      · exact .inr ⟨c, rfl, h.1, h.2, if_pos h⟩
      · exact .inl (if_neg h)

/-- A class that is kept was confirmed under these rules. -/
theorem keepClass_class (hnone : otherwise.klasseId = 0)
    (h : (keepClass version role stored otherwise).klasseId ≠ 0) :
    (keepClass version role stored otherwise).checkVersion = version ∧
      ∃ c, stored = some c ∧ c.checkVersion = version ∧
        c.klasseId = (keepClass version role stored otherwise).klasseId := by
  rcases keepClass_cases version role stored otherwise with heq | ⟨c, hc, hversion, hpos, heq⟩
  · rw [heq] at h
    exact absurd hnone h
  · rw [heq] at h ⊢
    exact ⟨rfl, c, hc, hversion, (normalizeAccountClass_pos h).2.symm⟩

/-- **A class is WebUntis' word, now or before.** -/
theorem decideAccountClass_class {d : AccountClassDecision} (hd : decideAccountClass version role evidence stored shared = d)
    (h : d.klasseId ≠ 0) :
    role = .student ∧ d.checkVersion = version ∧ shared = false ∧ evidence.rulesOut d.klasseId = false ∧
      (evidence.names d.klasseId = true ∨
        ∃ c, stored = some c ∧ c.checkVersion = version ∧ c.klasseId = d.klasseId) := by
  subst hd
  cases role with
  | parent | none => exact absurd rfl h
  | student =>
      cases evidence with
      | none note => exact absurd rfl h
      | klasse klasseId klasseName source =>
          cases shared with
          | true => exact absurd rfl h
          | false =>
              simp only [decideAccountClass, reduceCtorEq, if_false, Bool.false_eq_true] at h ⊢
              split at h
              · rename_i hpos
                obtain ⟨hid, hnamed⟩ := normalizeAccountClass_pos (Int.ne_of_gt hpos)
                rw [if_pos hpos]
                simp [ClassEvidence.rulesOut, ClassEvidence.names, hnamed, hid]
              · rename_i hpos
                have hid : klasseId ≤ 0 := by
                  by_contra hid
                  rw [normalizeAccountClass_klasseId rfl (by omega)] at hpos
                  omega
                rw [if_neg hpos]
                obtain ⟨hversion, hstored⟩ := keepClass_class rfl h
                exact ⟨trivial, hversion, trivial, by simp [ClassEvidence.rulesOut, hid], .inr hstored⟩
      | unknown note =>
          cases shared with
          | true => exact absurd rfl h
          | false =>
              simp only [decideAccountClass, reduceCtorEq, if_false, Bool.false_eq_true] at h ⊢
              obtain ⟨hversion, hstored⟩ := keepClass_class (by split <;> rfl) h
              exact ⟨trivial, hversion, trivial, rfl, .inr hstored⟩

/-- Untold, a class confirmed under these rules stays. -/
theorem decideAccountClass_kept {c : StoredAccountClass} (hversion : c.checkVersion = version) (hpos : 0 < c.klasseId)
    (note : ClassNote) :
    (decideAccountClass version .student (.unknown note) (some c) false).klasseId = c.klasseId := by
  have hid : (normalizeAccountClass .student c.klasseId c.klasseName).klasseId = c.klasseId :=
    normalizeAccountClass_klasseId rfl hpos
  simp [decideAccountClass, keepClass, hversion, hpos, hid]

/-- Without a class identity there is no class. -/
theorem decideAccountClass_none (h : hasClassIdentity role = false) :
    (decideAccountClass version role evidence stored shared).klasseId = 0 := by
  cases role with
  | student => cases h
  | parent | none => rfl

/-- A choice stays. -/
theorem decideAccountRole_kept {stored : StoredRole} (h : stored.roleLocked = true ∨ stored.role = .none)
    (kind : AccountKind) (claimed : AccountRole) : (decideAccountRole (some stored) kind claimed).1 = stored.role := by
  obtain ⟨role, roleLocked⟩ := stored
  cases roleLocked with
  | true => rfl
  | false => obtain rfl := h.resolve_left nofun; rfl

/-- A parent stays one. -/
theorem decideAccountRole_parent (roleLocked : Bool) (kind : AccountKind) (claimed : AccountRole) :
    (decideAccountRole (some ⟨.parent, roleLocked⟩) kind claimed).1 = .parent := by
  cases roleLocked <;> cases kind <;> rfl

/-- Who WebUntis calls a parent is a student by an admin's word alone. -/
theorem decideAccountRole_student {stored : Option StoredRole} {claimed : AccountRole}
    (h : (decideAccountRole stored .parent claimed).1 = .student) : stored.any (·.roleLocked) = true := by
  rcases stored with _ | ⟨role, roleLocked⟩
  · cases h
  · cases roleLocked with
    | true => rfl
    | false => cases role <;> cases h

/-- A student that WebUntis does not call a parent stays one. -/
theorem decideAccountRole_untold {kind : AccountKind} (h : kind ≠ .parent) (roleLocked : Bool) (claimed : AccountRole) :
    (decideAccountRole (some ⟨.student, roleLocked⟩) kind claimed).1 = .student := by
  cases roleLocked <;> cases kind <;> first | rfl | exact absurd rfl h

theorem syncUserClass_eq {user : User} (h : hasClassIdentity user.role = true) : syncUserClass user = user :=
  if_pos h

theorem syncUserClass_none {user : User} (h : hasClassIdentity user.role = false) :
    syncUserClass user = { user with webuntisKlasseId := 0, webuntisKlasseName := "" } :=
  if_neg (by simp [h])

@[simp] theorem username_syncUserClass (user : User) : (syncUserClass user).username = user.username := by
  cases h : hasClassIdentity user.role <;> simp [syncUserClass_eq, syncUserClass_none, h]

@[simp] theorem role_syncUserClass (user : User) : (syncUserClass user).role = user.role := by
  cases h : hasClassIdentity user.role <;> simp [syncUserClass_eq, syncUserClass_none, h]

@[simp] theorem isSelfRegistered_syncUserClass (user : User) : isSelfRegistered (syncUserClass user) = isSelfRegistered user := by
  cases h : hasClassIdentity user.role <;> simp [syncUserClass_eq, syncUserClass_none, h, isSelfRegistered]

/-- Whoever has a class afterwards has been left as they were. -/
theorem syncUserClass_of_class {user : User} (h : (syncUserClass user).webuntisKlasseId ≠ 0) : syncUserClass user = user := by
  cases hrole : hasClassIdentity user.role with
  | true => exact syncUserClass_eq hrole
  | false =>
      rw [syncUserClass_none hrole] at h
      exact absurd rfl h

theorem klasseId_syncUserClass {user : User} (h : hasClassIdentity user.role = false) :
    (syncUserClass user).webuntisKlasseId = 0 := by
  rw [syncUserClass_none h]

/-! ### Finding an account -/

variable {w w' : World} {username other : String}

theorem World.username_of_account {user : User} (h : w.account username = some user) : user.username = username := by
  simpa using List.find?_some h

theorem World.account_updateUser {change : User → User} (hchange : ∀ u, (change u).username = u.username) :
    (w.updateUser other change).account username =
      (w.account username).map fun u => if username = other then change u else u := by
  have hp : (fun u : User => decide (u.username = username)) ∘
      (fun u => if u.username = other then change u else u) = fun u => decide (u.username = username) := by
    funext u
    simp only [Function.comp_apply]
    split <;> simp [hchange]
  simp only [account, updateUser, List.find?_map, hp]
  cases h : w.users.find? (fun u => decide (u.username = username)) with
  | none => rfl
  | some u =>
      have hu : u.username = username := by simpa using List.find?_some h
      simp [hu]

theorem World.account_updateUser_other {change : User → User} (hchange : ∀ u, (change u).username = u.username)
    (hne : username ≠ other) : (w.updateUser other change).account username = w.account username := by
  rw [World.account_updateUser hchange]
  cases w.account username <;> simp [hne]

theorem World.account_map {change : User → User} (hchange : ∀ u, (change u).username = u.username) :
    World.account { w with users := w.users.map change } username = (w.account username).map change := by
  have hp : (fun u : User => decide (u.username = username)) ∘ change = fun u => decide (u.username = username) := by
    funext u
    simp [hchange]
  simp only [account, List.find?_map, hp]

theorem World.account_append (user : User) :
    World.account { w with users := w.users ++ [user] } username =
      (w.account username).or (if user.username = username then some user else none) := by
  simp only [account, List.find?_append]
  by_cases h : user.username = username <;> simp [h]

/-! ### What every move keeps -/

theorem Supported.cons {said : Said} {klasseId : ℤ} {log : List Said} (h : Supported username version klasseId log)
    (hsaid : said.username = username → said.rulesOut klasseId = false) :
    Supported username version klasseId (said :: log) := by
  obtain ⟨later, first, earlier, rfl, hname, hversion, hnames, hout⟩ := h
  refine ⟨said :: later, first, earlier, rfl, hname, hversion, hnames, fun s hs hsname => ?_⟩
  rcases List.mem_cons.mp hs with rfl | hs
  · exact hout s List.mem_cons_self hsname
  · rcases List.mem_cons.mp hs with rfl | hs
    · exact hsaid hsname
    · exact hout s (List.mem_cons_of_mem _ hs) hsname

theorem Supported.of_names {said : Said} {klasseId : ℤ} {log : List Said}
    (hnames : said.evidence.names klasseId = true) (hsaid : said.rulesOut klasseId = false) :
    Supported said.username said.version klasseId (said :: log) :=
  ⟨[], said, log, rfl, rfl, rfl, hnames, fun s hs _ => by rw [List.mem_singleton.mp hs]; exact hsaid⟩

theorem Supported.pos {klasseId : ℤ} {log : List Said} (h : Supported username version klasseId log) : 0 < klasseId := by
  obtain ⟨-, said, -, -, -, -, hnames, -⟩ := h
  cases hevidence : said.evidence with
  | klasse named klasseName source =>
      simp only [ClassEvidence.names, hevidence, Bool.and_eq_true, decide_eq_true_eq] at hnames
      rw [← hnames.1]
      exact hnames.2
  | none | unknown => simp [ClassEvidence.names, hevidence] at hnames

/-- **The invariant of an account.** -/
structure User.Backed (log : List Said) (user : User) : Prop where
  supported : user.webuntisKlasseId ≠ 0 → user.classCheckVersion ≠ 0 →
    Supported user.username user.classCheckVersion user.webuntisKlasseId log
  student : hasClassIdentity user.role = false → user.webuntisKlasseId = 0
  unchecked : isSelfRegistered user = true → user.classCheckVersion = 0

structure World.Kept (w : World) : Prop where
  version : w.version ≠ 0
  backed : ∀ username user, w.account username = some user → user.Backed w.log

/-- Without a class there is nothing to back. -/
theorem User.Backed.of_none {log : List Said} {user : User} (h : user.webuntisKlasseId = 0)
    (hunchecked : isSelfRegistered user = true → user.classCheckVersion = 0) : user.Backed log :=
  ⟨fun hne => absurd h hne, fun _ => h, hunchecked⟩

theorem User.Backed.setRole {log : List Said} {user : User} (h : user.Backed log) (role : AccountRole) :
    (setRole role user).Backed log := by
  unfold SignIns.setRole
  split
  · rename_i hrole
    by_cases hpending : user.role ≠ .student ∨ user.webuntisKlasseId = 0
    · simp only [hpending, if_true]
      exact ⟨fun _ hversion => absurd rfl hversion, fun hnone => absurd (hrole.symm.trans hnone) nofun, fun _ => rfl⟩
    · simp only [hpending, if_false]
      exact ⟨h.supported, fun hnone => absurd (hrole.symm.trans hnone) nofun, h.unchecked⟩
  · exact .of_none rfl h.unchecked

theorem User.Backed.recheckClass {log : List Said} {user : User} (h : user.Backed log) (version : ℕ) :
    (recheckClass version user).Backed log := by
  unfold SignIns.recheckClass
  split
  · exact .of_none rfl h.unchecked
  · exact h

theorem User.Backed.syncUserClass {log : List Said} {user : User}
    (hsupported : user.webuntisKlasseId ≠ 0 → user.classCheckVersion ≠ 0 →
      Supported user.username user.classCheckVersion user.webuntisKlasseId log)
    (hunchecked : isSelfRegistered user = true → user.classCheckVersion = 0) : (syncUserClass user).Backed log := by
  cases hrole : hasClassIdentity user.role with
  | true =>
      rw [syncUserClass_eq hrole]
      exact ⟨hsupported, fun hnone => absurd (hrole.symm.trans hnone) nofun, hunchecked⟩
  | false =>
      rw [syncUserClass_none hrole]
      exact .of_none rfl hunchecked

/-- A change of one account that leaves every account backed. -/
theorem World.Kept.updateUser (h : w.Kept) {change : User → User} (hchange : ∀ u, (change u).username = u.username)
    (hbacked : ∀ u : User, u.Backed w.log → (change u).Backed w.log) : (w.updateUser username change).Kept := by
  refine ⟨h.version, fun other u hu => ?_⟩
  rw [World.account_updateUser hchange, Option.map_eq_some_iff] at hu
  obtain ⟨u, hu, rfl⟩ := hu
  split
  · exact hbacked u (h.backed other u hu)
  · exact h.backed other u hu

/-- A new account. -/
theorem World.Kept.append (h : w.Kept) {user : User} (huser : user.Backed w.log) :
    World.Kept { w with users := w.users ++ [user] } := by
  refine ⟨h.version, fun other u hu => ?_⟩
  rw [World.account_append, Option.or_eq_some_iff] at hu
  rcases hu with hu | ⟨-, hu⟩
  · exact h.backed other u hu
  · split at hu
    · cases hu
      exact huser
    · cases hu

/-- What was said of another account changes nothing. -/
theorem User.Backed.cons {log : List Said} {user : User} (h : user.Backed log) {said : Said}
    (hne : said.username ≠ user.username) : user.Backed (said :: log) :=
  ⟨fun hklasse hversion => (h.supported hklasse hversion).cons fun heq => absurd heq hne, h.student, h.unchecked⟩

/-- **What a sign-in decides is backed by what it says and by what was said before.** -/
theorem supported_of_decision (said : Said) (log : List Said) {d : AccountClassDecision}
    (hd : decideAccountClass said.version role said.evidence stored said.shared = d)
    (hrole : said.kind = .parent → role = .student → said.locked = true)
    (hstored : ∀ c, stored = some c → c.klasseId ≠ 0 → c.checkVersion = said.version →
      Supported said.username said.version c.klasseId log)
    (h : d.klasseId ≠ 0) :
    d.checkVersion = said.version ∧ Supported said.username d.checkVersion d.klasseId (said :: log) := by
  obtain ⟨hstudent, hversion, hshared, hevidence, hword⟩ := decideAccountClass_class hd h
  have hout : said.rulesOut d.klasseId = false := by
    simp only [Said.rulesOut, hevidence, hshared, Bool.false_or, Bool.and_eq_false_iff, decide_eq_false_iff_not,
      Bool.not_eq_false']
    exact (em (said.kind = .parent)).elim (fun hparent => .inr (hrole hparent hstudent)) .inl
  rw [hversion]
  refine ⟨rfl, ?_⟩
  rcases hword with hnames | ⟨c, hc, hcversion, hcklasse⟩
  · exact .of_names hnames hout
  · have hbefore := hstored c hc (by rw [hcklasse]; exact h) hcversion
    rw [hcklasse] at hbefore
    exact hbefore.cons fun _ => hout

variable {s : SignIn} {user : User}

/-- The account of a sign-in, as it was and as the sign-in leaves it. -/
theorem World.account_signInTo {found : WebUntisFindings} (haccount : w.account s.username = some user)
    (hfound : s.found = some found) :
    ∃ role shared d,
      role = decideAccountRole (some ⟨user.role, user.roleLocked⟩) found.kind s.claimed ∧
      shared = w.sharesPupilRecord s.schoolId found.studentRecordId (some user) s.schoolYearStart ∧
      d = decideAccountClass w.version role.1 found.evidence
        (some ⟨⟨user.webuntisKlasseId, user.webuntisKlasseName⟩, user.classCheckVersion⟩) shared ∧
      (w.signInTo s user).log =
        ⟨s.username, w.version, found.kind, found.evidence, shared, user.roleLocked⟩ :: w.log ∧
      ∀ username, (w.signInTo s user).account username =
        if username = s.username then some (syncUserClass (user.decided role d found.studentRecordId s))
        else w.account username := by
  refine ⟨_, _, _, rfl, rfl, rfl, ?_, fun username => ?_⟩
  · simp only [signInTo, hfound]
  · simp only [signInTo, hfound]
    refine (World.account_updateUser fun u => ?_).trans ?_
    · exact username_syncUserClass _
    · by_cases h : username = s.username
      · subst h
        rw [haccount, if_pos rfl, Option.map_some, if_pos rfl]
      · rw [if_neg h]
        cases w.account username <;> simp [h]

@[simp] theorem World.version_signInTo (w : World) (s : SignIn) (user : User) :
    (w.signInTo s user).version = w.version := by
  unfold signInTo
  split <;> rfl

/-- A class after the sign-in of an account that was there is backed. -/
theorem World.Kept.decided (h : w.Kept) (haccount : w.account s.username = some user) {found : WebUntisFindings}
    {shared : Bool} {d : AccountClassDecision}
    (hd : decideAccountClass w.version
      (decideAccountRole (some ⟨user.role, user.roleLocked⟩) found.kind s.claimed).1 found.evidence
      (some ⟨⟨user.webuntisKlasseId, user.webuntisKlasseName⟩, user.classCheckVersion⟩) shared = d)
    (hne : d.klasseId ≠ 0) :
    d.checkVersion = w.version ∧ Supported s.username d.checkVersion d.klasseId
      (⟨s.username, w.version, found.kind, found.evidence, shared, user.roleLocked⟩ :: w.log) := by
  refine supported_of_decision ⟨s.username, w.version, found.kind, found.evidence, shared, user.roleLocked⟩ w.log
    hd ?_ ?_ hne
  · intro hparent hstudent
    have hkind : found.kind = .parent := hparent
    rw [hkind] at hstudent
    simpa using decideAccountRole_student hstudent
  · intro c hc hcne hcversion
    cases hc
    have hversion : user.classCheckVersion = w.version := hcversion
    have hsupported := (h.backed _ _ haccount).supported hcne (by rw [hversion]; exact h.version)
    rw [w.username_of_account haccount, hversion] at hsupported
    exact hsupported

theorem World.Kept.signInTo (h : w.Kept) (haccount : w.account s.username = some user) : (w.signInTo s user).Kept := by
  cases hfound : s.found with
  | none =>
      have heq : w.signInTo s user = w.updateUser s.username SignIns.syncUserClass := by simp only [World.signInTo, hfound]
      rw [heq]
      exact h.updateUser username_syncUserClass fun u hold => .syncUserClass hold.supported hold.unchecked
  | some found =>
      obtain ⟨role, shared, d, rfl, -, hd, hlog, haccounts⟩ := w.account_signInTo haccount hfound
      refine ⟨by rw [w.version_signInTo]; exact h.version, fun username u hu => ?_⟩
      rw [haccounts] at hu
      rw [hlog]
      split at hu
      · cases hu
        refine User.Backed.syncUserClass (fun hne _ => ?_) fun hself => ?_
        · have hname : user.username = s.username := w.username_of_account haccount
          simpa only [User.decided, hname] using (h.decided haccount hd.symm hne).2
        · simp [isSelfRegistered, User.decided] at hself
      · rename_i hne
        refine (h.backed username u hu).cons ?_
        rw [w.username_of_account hu]
        exact fun heq => hne heq.symm

/-- The account that a sign-in makes, among the others. -/
theorem World.account_signInNew (haccount : w.account s.username = none) :
    ∃ role shared d,
      role = decideAccountRole ((w.archivedChoice s.username).map fun a => ⟨a.role, true⟩)
        ((s.found.map (·.kind)).getD .unknown) s.claimed ∧
      d = decideAccountClass w.version role.1 ((s.found.map (·.evidence)).getD (.unknown .noSession)) none shared ∧
      (w.signInNew s).log = (s.found.map fun found => ⟨s.username, w.version, found.kind, found.evidence, shared,
        (w.archivedChoice s.username).isSome⟩).toList ++ w.log ∧
      ∀ username, (w.signInNew s).account username =
        if username = s.username then
          some (syncUserClass (s.newUser role (w.archivedChoice s.username).isSome d
            ((s.found.map (·.studentRecordId)).getD 0)))
        else w.account username := by
  refine ⟨_, _, _, rfl, rfl, rfl, fun username => (World.account_append _).trans ?_⟩
  rw [username_syncUserClass]
  by_cases h : username = s.username
  · rw [if_pos h, h, haccount, Option.none_or]
    exact if_pos rfl
  · have hne : ∀ role locked d recordId, (s.newUser role locked d recordId).username ≠ username :=
      fun _ _ _ _ heq => h heq.symm
    rw [if_neg h, if_neg (hne _ _ _ _), Option.or_none]

/-- A class of a new account is backed. -/
theorem World.supported_made {shared : Bool} {d : AccountClassDecision}
    (hd : decideAccountClass w.version
      (decideAccountRole ((w.archivedChoice s.username).map fun a => ⟨a.role, true⟩)
        ((s.found.map (·.kind)).getD .unknown) s.claimed).1
      ((s.found.map (·.evidence)).getD (.unknown .noSession)) none shared = d)
    (hne : d.klasseId ≠ 0) :
    d.checkVersion = w.version ∧ Supported s.username d.checkVersion d.klasseId
      ((s.found.map fun found => ⟨s.username, w.version, found.kind, found.evidence, shared,
        (w.archivedChoice s.username).isSome⟩).toList ++ w.log) := by
  cases hfound : s.found with
  | none =>
      -- nothing is asked: no class
      obtain ⟨-, -, -, -, hnames | ⟨c, hc, -⟩⟩ := decideAccountClass_class hd hne
      · rw [hfound] at hnames
        cases hnames
      · cases hc
  | some found =>
      simp only [hfound, Option.map_some, Option.getD_some] at hd
      refine supported_of_decision ⟨s.username, w.version, found.kind, found.evidence, shared,
        (w.archivedChoice s.username).isSome⟩ w.log hd ?_ nofun hne
      intro hparent hstudent
      have hkind : found.kind = .parent := hparent
      rw [hkind] at hstudent
      have hany := decideAccountRole_student hstudent
      cases hchoice : w.archivedChoice s.username with
      | none => simp [hchoice] at hany
      | some choice => rfl

theorem World.Kept.signInNew (h : w.Kept) (haccount : w.account s.username = none) : (w.signInNew s).Kept := by
  obtain ⟨role, shared, d, rfl, hd, hlog, haccounts⟩ := w.account_signInNew haccount
  refine ⟨h.version, fun username u hu => ?_⟩
  rw [haccounts] at hu
  rw [hlog]
  split at hu
  · cases hu
    refine User.Backed.syncUserClass (fun hne _ => (World.supported_made hd.symm hne).2) fun hself => ?_
    simp [isSelfRegistered, SignIn.newUser] at hself
  · rename_i hne
    cases s.found with
    | none => exact h.backed username u hu
    | some found =>
        refine (h.backed username u hu).cons ?_
        rw [w.username_of_account hu]
        exact fun heq => hne heq.symm

theorem World.Kept.takeOver (h : w.Kept) (schoolId : String) :
    (w.updateUser username (takeOverSelfRegistered schoolId)).Kept :=
  h.updateUser (fun _ => rfl) fun _ _ => .of_none rfl fun _ => rfl

/-- A sign-in that is not refused, by what it finds. -/
theorem completeWebUntisLogin_cases (h : w.completeWebUntisLogin s = .ok w') :
    w.account s.username = none ∧ w' = w.signInNew s ∨
      ∃ user, w.account s.username = some user ∧
        (s.takesOver user = true ∧
            w' = (w.updateUser s.username (takeOverSelfRegistered s.schoolId)).signInTo s
              (takeOverSelfRegistered s.schoolId user) ∨
          s.takesOver user = false ∧ w' = w.signInTo s user) := by
  unfold World.completeWebUntisLogin at h
  cases haccount : w.account s.username with
  | none =>
      rw [haccount] at h
      exact .inl ⟨rfl, (Except.ok.inj h).symm⟩
  | some user =>
      simp only [haccount] at h
      refine .inr ⟨user, rfl, ?_⟩
      split at h
      · split at h
        · cases h
        · rename_i htakes _
          exact .inl ⟨htakes, (Except.ok.inj h).symm⟩
      · split at h
        · cases h
        · rename_i htakes _
          exact .inr ⟨by simpa using htakes, (Except.ok.inj h).symm⟩

/-- The account that is taken over, as the sign-in then finds it. -/
theorem World.account_takeOver (haccount : w.account s.username = some user) :
    (w.updateUser s.username (takeOverSelfRegistered s.schoolId)).account s.username =
      some (takeOverSelfRegistered s.schoolId user) := by
  rw [@World.account_updateUser w s.username s.username (takeOverSelfRegistered s.schoolId) fun _ => rfl, haccount, Option.map_some, if_pos rfl]

theorem World.Kept.completeWebUntisLogin (hk : w.Kept) (h : w.completeWebUntisLogin s = .ok w') : w'.Kept := by
  rcases completeWebUntisLogin_cases h with ⟨hnone, rfl⟩ | ⟨user, haccount, ⟨-, rfl⟩ | ⟨-, rfl⟩⟩
  · exact hk.signInNew hnone
  · exact (hk.takeOver s.schoolId).signInTo (World.account_takeOver haccount)
  · exact hk.signInTo haccount

/-- **Every move keeps the invariant.** -/
theorem World.Kept.step (hk : w.Kept) {m : Move} (h : w.step m = some w') : w'.Kept := by
  cases m with
  | signIn s =>
      obtain rfl := Option.some.inj h
      cases hs : w.completeWebUntisLogin s with
      | error e => exact hk
      | ok w' => exact hk.completeWebUntisLogin hs
  | setRole username role =>
      obtain rfl := Option.some.inj h
      exact hk.updateUser (fun u => by unfold SignIns.setRole; split <;> rfl) fun u hold => hold.setRole role
  | unlockRole username =>
      obtain rfl := Option.some.inj h
      exact hk.updateUser (fun _ => rfl) fun u hold => ⟨hold.supported, hold.student, hold.unchecked⟩
  | setPassword username passwordHash =>
      obtain rfl := Option.some.inj h
      refine hk.updateUser (fun _ => rfl) fun u hold => ⟨hold.supported, hold.student, fun hself => ?_⟩
      -- an admin's password: the account is never taken over
      simp [isSelfRegistered] at hself
  | createUser username role webuntisKlasse passwordHash schoolId now =>
      simp only [World.step, Option.ite_none_left_eq_some, Option.some.injEq] at h
      obtain ⟨hnew, rfl⟩ := h
      refine hk.append ⟨fun _ hversion => absurd rfl hversion, fun hnone => ?_, fun _ => rfl⟩
      have hnone' : hasClassIdentity role = false := hnone
      simp [userByAdmin, hnone']
  | registerLocalAccount username passwordHash defaultSchoolId now =>
      simp only [World.step, Option.ite_none_left_eq_some, Option.some.injEq] at h
      obtain ⟨hnew, rfl⟩ := h
      exact hk.append (.of_none rfl fun _ => rfl)
  | setAdmins admins =>
      obtain rfl := Option.some.inj h
      exact ⟨hk.version, hk.backed⟩
  | setVersion version =>
      simp only [World.step, Option.ite_none_left_eq_some] at h
      obtain ⟨hpos, h⟩ := h
      split at h
      · obtain rfl := Option.some.inj h
        exact ⟨hpos, hk.backed⟩
      · obtain rfl := Option.some.inj h
        refine ⟨hpos, fun other u hu => ?_⟩
        have hname : ∀ u, (SignIns.recheckClass version u).username = u.username := fun u => by
          unfold SignIns.recheckClass
          split <;> rfl
        replace hu := (World.account_map hname).symm.trans hu
        rw [Option.map_eq_some_iff] at hu
        obtain ⟨u, hu, rfl⟩ := hu
        exact (hk.backed other u hu).recheckClass version

theorem World.Kept.run (hk : w.Kept) {moves : List Move} (h : run World.step w moves = some w') : w'.Kept :=
  run_invariant (P := World.Kept) (fun _ _ _ hk hstep => hk.step hstep) hk h

theorem kept_initial (archived : List ArchivedUser) (hversion : version ≠ 0) : (World.initial archived version).Kept :=
  ⟨hversion, fun username user huser => by simp [World.account, World.initial] at huser⟩

/-! ### A sign-in, and a parent -/

/-- The account after the sign-in of one that was there. -/
theorem World.account_signInTo_self (haccount : w.account s.username = some user) :
    ∃ user', (w.signInTo s user).account s.username = some user' ∧
      (user.roleLocked = true ∨ user.role = .none ∨ user.role = .parent → user'.role = user.role) ∧
      (hasClassIdentity user'.role = false → user'.webuntisKlasseId = 0) := by
  have hnone : ∀ u : User, hasClassIdentity (syncUserClass u).role = false → (syncUserClass u).webuntisKlasseId = 0 :=
    fun u h => klasseId_syncUserClass (by rwa [role_syncUserClass] at h)
  cases hfound : s.found with
  | none =>
      have heq : w.signInTo s user = w.updateUser s.username SignIns.syncUserClass := by simp only [World.signInTo, hfound]
      rw [heq, World.account_updateUser username_syncUserClass, haccount, Option.map_some, if_pos rfl]
      exact ⟨_, rfl, fun _ => role_syncUserClass user, hnone _⟩
  | some found =>
      obtain ⟨role, shared, d, hrole, -, hd, -, haccounts⟩ := w.account_signInTo haccount hfound
      rw [haccounts, if_pos rfl]
      refine ⟨_, rfl, fun hchosen => ?_, hnone _⟩
      have hkept : role.1 = user.role := by
        rw [hrole]
        rcases hchosen with hlocked | hnone | hparent
        · exact decideAccountRole_kept (.inl hlocked) _ _
        · exact decideAccountRole_kept (.inr hnone) _ _
        · rw [hparent]
          exact decideAccountRole_parent _ _ _
      rw [role_syncUserClass]
      exact hkept

theorem World.account_signInTo_other (haccount : w.account s.username = some user) (hne : username ≠ s.username) :
    (w.signInTo s user).account username = w.account username := by
  cases hfound : s.found with
  | none =>
      simp only [signInTo, hfound]
      exact World.account_updateUser_other username_syncUserClass hne
  | some found =>
      obtain ⟨_, _, _, -, -, -, -, haccounts⟩ := w.account_signInTo haccount hfound
      rw [haccounts, if_neg hne]

theorem World.account_takeOver_other (hne : username ≠ s.username) :
    (w.updateUser s.username (takeOverSelfRegistered s.schoolId)).account username = w.account username :=
  @World.account_updateUser_other w username s.username (takeOverSelfRegistered s.schoolId) (fun _ => rfl) hne

/-- The other accounts stay as they are. -/
theorem account_completeWebUntisLogin_other (h : w.completeWebUntisLogin s = .ok w') (hne : username ≠ s.username) :
    w'.account username = w.account username := by
  rcases completeWebUntisLogin_cases h with ⟨hnone, rfl⟩ | ⟨user, haccount, ⟨-, rfl⟩ | ⟨-, rfl⟩⟩
  · obtain ⟨_, _, _, -, -, -, haccounts⟩ := w.account_signInNew hnone
    rw [haccounts, if_neg hne]
  · rw [World.account_signInTo_other (World.account_takeOver haccount) hne, World.account_takeOver_other hne]
  · exact World.account_signInTo_other haccount hne

/-- A class after a sign-in that asked is one that WebUntis named. -/
theorem World.Kept.named_signInTo (h : w.Kept) (haccount : w.account s.username = some user) (hfound : s.found.isSome = true)
    {user' : User} (huser' : (w.signInTo s user).account s.username = some user') (hne : user'.webuntisKlasseId ≠ 0) :
    Supported s.username w.version user'.webuntisKlasseId (w.signInTo s user).log := by
  obtain ⟨found, hfound⟩ := Option.isSome_iff_exists.mp hfound
  obtain ⟨role, shared, d, rfl, -, hd, hlog, haccounts⟩ := w.account_signInTo haccount hfound
  rw [haccounts, if_pos rfl] at huser'
  cases huser'
  have hsame := syncUserClass_of_class hne
  rw [hsame] at hne ⊢
  obtain ⟨hversion, hword⟩ := h.decided haccount hd.symm hne
  rw [hversion] at hword
  rw [hlog]
  exact hword

/-- Untold, a class confirmed under the current rules stays. -/
theorem World.Kept.confirmed_signInTo (h : w.Kept) (haccount : w.account s.username = some user)
    (hne : user.webuntisKlasseId ≠ 0) (hversion : user.classCheckVersion = w.version) (huntold : w.untold s user) :
    ∃ user', (w.signInTo s user).account s.username = some user' ∧ user'.webuntisKlasseId = user.webuntisKlasseId := by
  have hpos : 0 < user.webuntisKlasseId :=
    ((h.backed _ _ haccount).supported hne (by rw [hversion]; exact h.version)).pos
  have hidentity : hasClassIdentity user.role = true := by
    by_contra hrole
    exact hne ((h.backed _ _ haccount).student (by simpa using hrole))
  cases hfound : s.found with
  | none =>
      have heq : w.signInTo s user = w.updateUser s.username SignIns.syncUserClass := by simp only [World.signInTo, hfound]
      rw [heq, World.account_updateUser username_syncUserClass, haccount, Option.map_some, if_pos rfl]
      exact ⟨_, rfl, by rw [syncUserClass_eq hidentity]⟩
  | some found =>
      obtain ⟨hkind, ⟨note, hevidence⟩, hshared⟩ := huntold found hfound
      obtain ⟨role, shared, d, hrole, hsh, hd, -, haccounts⟩ := w.account_signInTo haccount hfound
      have hstudent : user.role = .student := by
        cases hrole : user.role with
        | student => rfl
        | parent | none => rw [hrole] at hidentity; cases hidentity
      have hrole' : role.1 = .student := by
        rw [hrole, hstudent]
        exact decideAccountRole_untold hkind _ _
      have hd' : d.klasseId = user.webuntisKlasseId := by
        rw [hd, hrole', hevidence, hsh, hshared]
        exact decideAccountClass_kept hversion hpos note
      rw [haccounts, if_pos rfl]
      refine ⟨_, rfl, ?_⟩
      have hid : hasClassIdentity (user.decided role d found.studentRecordId s).role = true := by
        have heq : (user.decided role d found.studentRecordId s).role = .student := hrole'
        rw [heq]
        rfl
      rw [syncUserClass_eq hid]
      exact hd'

/-- What the invariant says of the next sign-in. -/
theorem World.Kept.follows (hk : w.Kept) (h : w.completeWebUntisLogin s = .ok w') : w.Follows s w' := by
  have hothers : ∀ username, username ≠ s.username → w'.account username = w.account username :=
    fun _ hne => account_completeWebUntisLogin_other h hne
  rcases completeWebUntisLogin_cases h with ⟨hnone, rfl⟩ | ⟨user, haccount, ⟨htakes, rfl⟩ | ⟨htakes, rfl⟩⟩
  · refine ⟨fun user' huser' hfound hne => ?_, fun u hu => ?_, fun u hu => ?_, hothers⟩
    · obtain ⟨role, shared, d, rfl, hd, hlog, haccounts⟩ := w.account_signInNew hnone
      rw [haccounts, if_pos rfl] at huser'
      cases huser'
      have hsame := syncUserClass_of_class hne
      rw [hsame] at hne ⊢
      obtain ⟨hversion, hword⟩ := World.supported_made hd.symm hne
      rw [hversion] at hword
      rw [hlog]
      exact hword
    · rw [hnone] at hu; cases hu
    · rw [hnone] at hu; cases hu
  · have hself : isSelfRegistered user = true := by
      simp only [SignIn.takesOver, Bool.and_eq_true] at htakes
      exact htakes.2
    refine ⟨fun user' huser' hfound hne => ?_, fun u hu hnot => ?_, fun u hu hne hversion => ?_, hothers⟩
    · exact (hk.takeOver s.schoolId).named_signInTo (World.account_takeOver haccount) hfound huser' hne
    · rw [haccount] at hu
      cases hu
      rw [htakes] at hnot
      cases hnot
    · -- a self-registered account has never been checked
      rw [haccount] at hu
      cases hu
      rw [(hk.backed _ _ haccount).unchecked hself] at hversion
      exact absurd hversion.symm hk.version
  · refine ⟨fun user' huser' hfound hne => ?_, fun u hu _ hchosen => ?_, fun u hu hne hversion huntold => ?_, hothers⟩
    · exact hk.named_signInTo haccount hfound huser' hne
    · rw [haccount] at hu
      cases hu
      obtain ⟨user', huser', hrole, -⟩ := World.account_signInTo_self haccount
      exact ⟨user', huser', hrole (hchosen.imp_right .inl)⟩
    · rw [haccount] at hu
      cases hu
      exact hk.confirmed_signInTo haccount hne hversion huntold

/-- The account is a parent, without a class. -/
def World.parent (w : World) (username : String) : Prop :=
  ∃ user, w.account username = some user ∧ user.role = .parent ∧ user.webuntisKlasseId = 0

theorem World.parent.completeWebUntisLogin (hp : w.parent username) (hnot : w.overrules username (.signIn s) = false)
    (h : w.completeWebUntisLogin s = .ok w') : w'.parent username := by
  obtain ⟨parent, haccount, hrole, hklasse⟩ := hp
  by_cases hne : username = s.username
  · subst hne
    rcases completeWebUntisLogin_cases h with ⟨hnone, -⟩ | ⟨user, huser, ⟨htakes, -⟩ | ⟨-, rfl⟩⟩
    · rw [haccount] at hnone
      cases hnone
    · simp [World.overrules, huser, htakes] at hnot
    · rw [huser] at haccount
      cases haccount
      obtain ⟨user', huser', hkept, hnone⟩ := World.account_signInTo_self huser
      have hrole' := hkept (.inr (.inr hrole))
      rw [hrole] at hrole'
      exact ⟨user', huser', hrole', hnone (by rw [hrole']; rfl)⟩
  · exact ⟨parent, (account_completeWebUntisLogin_other h hne).trans haccount, hrole, hklasse⟩

/-- A change that leaves a parent a parent. -/
theorem World.parent.updateUser (hp : w.parent username) {change : User → User}
    (hchange : ∀ u, (change u).username = u.username)
    (hparent : ∀ u : User, u.role = .parent → u.webuntisKlasseId = 0 →
      (change u).role = .parent ∧ (change u).webuntisKlasseId = 0) : (w.updateUser other change).parent username := by
  obtain ⟨parent, haccount, hrole, hklasse⟩ := hp
  refine ⟨_, (World.account_updateUser hchange).trans (congrArg _ haccount), ?_⟩
  split
  · exact hparent parent hrole hklasse
  · exact ⟨hrole, hklasse⟩

theorem World.parent.step (hp : w.parent username) {m : Move} (hnot : w.overrules username m = false)
    (h : w.step m = some w') : w'.parent username := by
  cases m with
  | signIn s =>
      obtain rfl := Option.some.inj h
      cases hs : w.completeWebUntisLogin s with
      | error e => exact hp
      | ok w' => exact hp.completeWebUntisLogin hnot hs
  | setRole name role =>
      obtain rfl := Option.some.inj h
      have hne : username ≠ name := fun heq => by simp [World.overrules, heq] at hnot
      obtain ⟨parent, haccount, hparent⟩ := hp
      refine ⟨parent, (World.account_updateUser_other (fun u => ?_) hne).trans haccount, hparent⟩
      unfold SignIns.setRole
      split <;> rfl
  | unlockRole name =>
      obtain rfl := Option.some.inj h
      exact hp.updateUser (fun _ => rfl) fun _ hrole hklasse => ⟨hrole, hklasse⟩
  | setPassword name passwordHash =>
      obtain rfl := Option.some.inj h
      exact hp.updateUser (fun _ => rfl) fun _ hrole hklasse => ⟨hrole, hklasse⟩
  | createUser | registerLocalAccount =>
      simp only [World.step, Option.ite_none_left_eq_some, Option.some.injEq] at h
      obtain ⟨-, rfl⟩ := h
      obtain ⟨parent, haccount, hparent⟩ := hp
      exact ⟨parent, by rw [World.account_append, haccount, Option.some_or], hparent⟩
  | setAdmins admins =>
      obtain rfl := Option.some.inj h
      exact hp
  | setVersion version =>
      simp only [World.step, Option.ite_none_left_eq_some] at h
      obtain ⟨-, h⟩ := h
      split at h
      · obtain rfl := Option.some.inj h
        exact hp
      · obtain rfl := Option.some.inj h
        obtain ⟨parent, haccount, hrole, hklasse⟩ := hp
        have hname : ∀ u, (SignIns.recheckClass version u).username = u.username := fun u => by
          unfold SignIns.recheckClass
          split <;> rfl
        refine ⟨SignIns.recheckClass version parent, (World.account_map hname).trans (congrArg _ haccount), ?_⟩
        unfold SignIns.recheckClass
        split
        · exact ⟨hrole, rfl⟩
        · exact ⟨hrole, hklasse⟩

/-- **A sign-in follows what WebUntis says, and a parent stays one**, for the admins' word and a takeover. -/
theorem sign_in_follows_webuntis {archived : List ArchivedUser} (hversion : version ≠ 0) {moves : List Move}
    (hrun : run World.step (.initial archived version) moves = some w) :
    (∀ s w', w.completeWebUntisLogin s = .ok w' → w.Follows s w') ∧
      ∀ username user, w.account username = some user → user.role = .parent →
        ∀ later w', Meets World.step (fun w m => w.overrules username m = false) w later →
          run World.step w later = some w' → w'.parent username := by
  have hk : w.Kept := (kept_initial archived hversion).run hrun
  refine ⟨fun s w' h => hk.follows h, fun username user haccount hrole later w' hmeets hlater => ?_⟩
  have hparent : w.parent username := ⟨user, haccount, hrole, (hk.backed _ _ haccount).student (by rw [hrole]; rfl)⟩
  exact run_invariant_of_meets (P := fun w => w.parent username) (fun _ _ _ hp hok hstep => hp.step hok hstep)
    hparent hmeets hlater

/-- Anna signs in as a pupil of class 5, and again when WebUntis does not answer. -/
def annaSignsIn (found : WebUntisFindings) : SignIn := ⟨"anna", some found, .student, "bb", false, 1, 0⟩

theorem sign_in_follows_webuntis_anna :
    ∃ w w' user', run World.step (.initial [] 2) [.signIn (annaSignsIn ⟨.student, .klasse 5 " 5A" .students, 7⟩)] = some w ∧
      w.completeWebUntisLogin (annaSignsIn ⟨.unknown, .unknown .webuntisUnavailable, 0⟩) = .ok w' ∧
      w.Follows (annaSignsIn ⟨.unknown, .unknown .webuntisUnavailable, 0⟩) w' ∧
      w'.account "anna" = some user' ∧ user'.webuntisKlasseId = 5 ∧ user'.classCheckVersion = 2 := by
  have hversion : 2 ≠ 0 := by decide
  refine ⟨_, _, _, rfl, rfl, ?_, rfl, rfl, rfl⟩
  exact (@sign_in_follows_webuntis 2 _ [] hversion
    [.signIn (annaSignsIn ⟨.student, .klasse 5 " 5A" .students, 7⟩)] rfl).1 _ _ rfl

/-- Ben registers; an admin makes the account a parent's, and then its name signs in with WebUntis. -/
def benTakenOver : List Move :=
  [.registerLocalAccount "ben" "hash" "bb" 1, .setRole "ben" .parent]

/-- WebUntis says that Ben is a pupil of class 5. -/
def benSignsIn : SignIn :=
  ⟨"ben", some ⟨.student, .klasse 5 "5A" .authenticate, 7⟩, .student, "bb", false, 3, 0⟩

theorem takeover_forgets_choice :
    ∃ w w' user user', run World.step (.initial [] 2) benTakenOver = some w ∧ w.completeWebUntisLogin benSignsIn = .ok w' ∧
      w.account "ben" = some user ∧ w'.account "ben" = some user' ∧
      user.roleLocked = true ∧ user.role = .parent ∧ user'.role = .student ∧ user'.webuntisKlasseId = 5 := by
  refine ⟨_, _, _, _, rfl, rfl, rfl, rfl, rfl, rfl, rfl, rfl⟩

end Pokyh.Account.SignIns

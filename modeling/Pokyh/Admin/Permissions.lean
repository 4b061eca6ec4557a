import Mathlib.Data.Finset.Insert
import Mathlib.Data.Finset.Filter
import Mathlib.Data.Finset.Dedup
import Mathlib.Data.Finset.Card
import Pokyh.Lib.Results
import Pokyh.Lib.Runs
import Pokyh.Lib.Tables

/-!
# Admin — Permissions

The permission model of the admin panel (`security/permissions.ts`): the catalog, what a list of stored
grants allows (`accessFrom`), the three readers of it (`can`, `permissionsIn`, `accessibleSchools`) and
the rules about passing rights on.

* `can_accessFrom`: what stored grants allow, grant by grant.
* `mem_permissionsIn_global`, `mem_permissionsIn_school`, `mem_accessibleSchools`: **the three readers
  agree**.
* `normalizeGrant_ok`, `mayGrant_ok`, `mayManageTarget_ok`: what a check that passes has found out.
-/

namespace Pokyh.Admin
open Pokyh.Lib

inductive PermissionScope where
  | school | global
  deriving DecidableEq, Repr

inductive Permission where
  | dashboardView | analyticsView | usersView | usersCreate | usersUpdate | usersDelete
  | sessionsView | sessionsRevoke | classesView | classesManage | todosView | todosManage
  | commentsView | commentsModerate | mensaView | mensaManage | popupsView | popupsManage
  | recapsView | recapsManage | requestsView | logsFrontendView | schoolSettingsView
  | schoolSettingsManage | adminsView | adminsManage | auditView | globalDashboard | schoolsView
  | schoolsManage | adminsGlobalManage | privacyView | subjectimagesManage | systemLogsView
  | systemMonitoringView | apikeysManage | backupsManage | clusterManage | schoolyearsManage
  deriving DecidableEq, Repr

structure PermissionSpec where
  key : String
  scope : PermissionScope
  label : String

/-- The catalog. -/
def Permission.spec : Permission → PermissionSpec
  | .dashboardView => ⟨"dashboard.view", .school, "Dashboard ansehen"⟩
  | .analyticsView => ⟨"analytics.view", .school, "Analytics ansehen"⟩
  | .usersView => ⟨"users.view", .school, "Nutzer ansehen"⟩
  | .usersCreate => ⟨"users.create", .school, "Nutzer anlegen"⟩
  | .usersUpdate => ⟨"users.update", .school, "Nutzer bearbeiten"⟩
  | .usersDelete => ⟨"users.delete", .school, "Nutzer löschen"⟩
  | .sessionsView => ⟨"sessions.view", .school, "Sitzungen ansehen"⟩
  | .sessionsRevoke => ⟨"sessions.revoke", .school, "Sitzungen beenden"⟩
  | .classesView => ⟨"classes.view", .school, "Klassen ansehen"⟩
  | .classesManage => ⟨"classes.manage", .school, "Klassen verwalten"⟩
  | .todosView => ⟨"todos.view", .school, "Todos & Erinnerungen ansehen"⟩
  | .todosManage => ⟨"todos.manage", .school, "Todos & Erinnerungen bearbeiten"⟩
  | .commentsView => ⟨"comments.view", .school, "Kommentare ansehen"⟩
  | .commentsModerate => ⟨"comments.moderate", .school, "Kommentare moderieren"⟩
  | .mensaView => ⟨"mensa.view", .school, "Speiseplan ansehen"⟩
  | .mensaManage => ⟨"mensa.manage", .school, "Speiseplan verwalten"⟩
  | .popupsView => ⟨"popups.view", .school, "Popups ansehen"⟩
  | .popupsManage => ⟨"popups.manage", .school, "Popups verwalten"⟩
  | .recapsView => ⟨"recaps.view", .school, "Recaps ansehen"⟩
  | .recapsManage => ⟨"recaps.manage", .school, "Recaps verwalten"⟩
  | .requestsView => ⟨"requests.view", .school, "Anfragen ansehen"⟩
  | .logsFrontendView => ⟨"logs.frontend.view", .school, "Frontend-Logs ansehen"⟩
  | .schoolSettingsView => ⟨"school.settings.view", .school, "Schuleinstellungen ansehen"⟩
  | .schoolSettingsManage => ⟨"school.settings.manage", .school, "Schuleinstellungen ändern"⟩
  | .adminsView => ⟨"admins.view", .school, "Admins ansehen"⟩
  | .adminsManage => ⟨"admins.manage", .school, "Admins verwalten"⟩
  | .auditView => ⟨"audit.view", .school, "Admin-Protokoll ansehen"⟩
  | .globalDashboard => ⟨"global.dashboard", .global, "Globales Dashboard"⟩
  | .schoolsView => ⟨"schools.view", .global, "Schulen ansehen"⟩
  | .schoolsManage => ⟨"schools.manage", .global, "Schulen verwalten"⟩
  | .adminsGlobalManage => ⟨"admins.global.manage", .global, "Globale Admins verwalten"⟩
  | .privacyView => ⟨"privacy.view", .global, "Datenschutz-Übersicht"⟩
  | .subjectimagesManage => ⟨"subjectimages.manage", .global, "Fachbilder verwalten"⟩
  | .systemLogsView => ⟨"system.logs.view", .global, "Backend-Logs ansehen"⟩
  | .systemMonitoringView => ⟨"system.monitoring.view", .global, "System & Performance"⟩
  | .apikeysManage => ⟨"apikeys.manage", .global, "API-Keys verwalten"⟩
  | .backupsManage => ⟨"backups.manage", .global, "Backups verwalten"⟩
  | .clusterManage => ⟨"cluster.manage", .global, "Cluster verwalten"⟩
  | .schoolyearsManage => ⟨"schoolyears.manage", .global, "Schuljahre verwalten"⟩

/-- Every permission, in the order of the catalog. -/
def ALL_PERMISSIONS : List Permission :=
  [.dashboardView, .analyticsView, .usersView, .usersCreate, .usersUpdate, .usersDelete,
   .sessionsView, .sessionsRevoke, .classesView, .classesManage, .todosView, .todosManage,
   .commentsView, .commentsModerate, .mensaView, .mensaManage, .popupsView, .popupsManage,
   .recapsView, .recapsManage, .requestsView, .logsFrontendView, .schoolSettingsView,
   .schoolSettingsManage, .adminsView, .adminsManage, .auditView, .globalDashboard, .schoolsView,
   .schoolsManage, .adminsGlobalManage, .privacyView, .subjectimagesManage, .systemLogsView,
   .systemMonitoringView, .apikeysManage, .backupsManage, .clusterManage, .schoolyearsManage]

theorem Permission.mem_all (p : Permission) : p ∈ ALL_PERMISSIONS := by
  cases p <;> simp [ALL_PERMISSIONS]

def isPermission (raw : String) : Option Permission :=
  ALL_PERMISSIONS.find? fun p => p.spec.key = raw

def Permission.isGlobalOnly (p : Permission) : Bool := p.spec.scope = .global

def SCHOOL_PERMISSIONS : List Permission := ALL_PERMISSIONS.filter fun p => p.spec.scope = .school

theorem keys_nodup : (ALL_PERMISSIONS.map fun p => p.spec.key).Nodup := by decide +kernel

/-- A permission is found again under the key it is stored with. -/
@[simp] theorem isPermission_key (p : Permission) : isPermission p.spec.key = some p := by
  have hinj : ∀ q ∈ ALL_PERMISSIONS, q.spec.key = p.spec.key → q = p := fun q hq h =>
    List.inj_on_of_nodup_map keys_nodup hq p.mem_all h
  obtain ⟨q, hq⟩ := Option.isSome_iff_exists.mp (List.find?_isSome (p := fun q => q.spec.key = p.spec.key)
    |>.mpr ⟨p, p.mem_all, by simp⟩)
  rw [isPermission, hq, hinj q (List.mem_of_find?_eq_some hq) (by simpa using List.find?_some hq)]

@[simp] theorem mem_SCHOOL_PERMISSIONS {p : Permission} :
    p ∈ SCHOOL_PERMISSIONS ↔ p.isGlobalOnly = false := by
  simp only [SCHOOL_PERMISSIONS, List.mem_filter, p.mem_all, true_and, decide_eq_true_eq,
    Permission.isGlobalOnly, decide_eq_false_iff_not]
  cases p.spec.scope <;> simp

/-! ### What a list of grants allows -/

/-- `GLOBAL_SCOPE`, or the id of a school. -/
inductive Scope where
  | global
  | school (id : String)
  deriving DecidableEq, Repr

structure GrantInput where
  scope : Scope
  permissions : List String

structure Access where
  owner : Bool
  /-- The permissions of the global grant. -/
  global : Finset Permission
  /-- The permissions of the school grants. -/
  schools : Table String (Finset Permission)
  schoolScoped : ∀ id rights, schools.lookup id = some rights → ∀ p ∈ rights, p.isGlobalOnly = false

namespace Access

/-- What the grant of one school gives. -/
def rights (a : Access) (id : String) : Finset Permission := (a.schools.lookup id).getD ∅

theorem schoolScoped_rights {a : Access} {id : String} {p : Permission} (hp : p ∈ a.rights id) :
    p.isGlobalOnly = false := by
  cases h : a.schools.lookup id with
  | none => simp [rights, h] at hp
  | some rights => exact a.schoolScoped id rights h p (by simpa [Access.rights, h] using hp)

def addGlobal (a : Access) (p : Permission) : Access := { a with global := insert p a.global }

def addSchool (a : Access) (id : String) (p : Permission) (hp : p.isGlobalOnly = false) : Access where
  owner := a.owner
  global := a.global
  schools := a.schools.insert id (insert p (a.rights id))
  schoolScoped id' rights h q hq := by
    rw [Table.lookup_insert_of] at h
    split at h
    · cases h
      rcases Finset.mem_insert.mp hq with rfl | hq
      · exact hp
      · exact schoolScoped_rights hq
    · exact a.schoolScoped id' rights h q hq

/-- One entry of a grant: an unknown key is dropped, and so is one that a school cannot have. -/
def add (a : Access) (scope : Scope) (raw : String) : Access :=
  match isPermission raw, scope with
  | none, _ => a
  | some p, .global => a.addGlobal p
  | some p, .school id => if hp : p.isGlobalOnly = false then a.addSchool id p hp else a

@[simp] theorem add_owner (a : Access) (scope : Scope) (raw : String) : (a.add scope raw).owner = a.owner := by
  unfold add
  split
  · rfl
  · rfl
  · split <;> rfl

theorem mem_add_global {a : Access} {scope : Scope} {raw : String} {p : Permission} :
    p ∈ (a.add scope raw).global ↔ p ∈ a.global ∨ scope = .global ∧ isPermission raw = some p := by
  unfold add
  split
  · next h => simp [h]
  · next q h => simp [h, addGlobal, or_comm, eq_comm]
  · split <;> simp [addSchool]

theorem mem_add_rights {a : Access} {scope : Scope} {raw : String} {p : Permission} {id : String} :
    p ∈ (a.add scope raw).rights id ↔
      p ∈ a.rights id ∨ scope = .school id ∧ isPermission raw = some p ∧ p.isGlobalOnly = false := by
  unfold add
  split
  · next h => simp [h]
  · simp [addGlobal, rights]
  · next q id' h =>
      by_cases hq : q.isGlobalOnly = false
      · by_cases hid : id = id'
        · subst hid
          simp only [hq, dif_pos, addSchool, rights, AList.lookup_insert, Option.getD_some,
            Finset.mem_insert, h, Option.some.injEq, true_and]
          constructor
          · rintro (rfl | hp)
            · exact .inr ⟨rfl, hq⟩
            · exact .inl hp
          · rintro (hp | ⟨rfl, -⟩)
            · exact .inr hp
            · exact .inl rfl
        · simp [hq, addSchool, rights, AList.lookup_insert_ne hid, Ne.symm hid]
      · simp only [hq, h, Option.some.injEq]
        refine ⟨.inl, ?_⟩
        rintro (hp | ⟨-, rfl, hp⟩)
        · exact hp
        · exact absurd hp hq

end Access

/-- Nothing but, perhaps, being an owner. -/
def Access.start (owner : Bool) : Access := ⟨owner, ∅, ∅, by simp⟩

def accessFrom (owner : Bool) (grants : List GrantInput) : Access :=
  grants.foldl (fun a g => g.permissions.foldl (fun a raw => a.add g.scope raw) a) (.start owner)

/-! ### The three readers -/

/-- May the holder use a permission: in one school, or, without a school, across the installation? -/
def can (a : Access) (p : Permission) (schoolId : Option String) : Bool :=
  a.owner || p ∈ a.global ||
    match schoolId with
    | none => false
    | some id => !p.isGlobalOnly && p ∈ a.rights id

/-- The permissions that hold in one scope. -/
def permissionsIn (a : Access) (scope : Scope) : Finset Permission :=
  if a.owner then if scope = .global then ALL_PERMISSIONS.toFinset else SCHOOL_PERMISSIONS.toFinset
  else match scope with
    | .global => a.global
    | .school id => SCHOOL_PERMISSIONS.toFinset.filter fun p => can a p (some id)

inductive Schools where
  | all
  | these (ids : List String)
  deriving DecidableEq, Repr

/-- Which schools the holder may open at all. -/
def accessibleSchools (a : Access) : Schools :=
  if a.owner then .all
  else if SCHOOL_PERMISSIONS.any fun p => p ∈ a.global then .all
  else .these ((a.schools.toList.filter fun e => e.2.card > 0).map Prod.fst)

def Schools.Has : Schools → String → Prop
  | .all, _ => True
  | .these ids, id => id ∈ ids

variable {a : Access} {p : Permission} {schoolId : Option String} {id : String}

theorem can_iff : can a p schoolId = true ↔
    a.owner = true ∨ p ∈ a.global ∨ ∃ id, schoolId = some id ∧ p ∈ a.rights id := by
  cases schoolId with
  | none => simp [can]
  | some id =>
      simp only [can, Bool.or_eq_true, decide_eq_true_eq, Bool.and_eq_true, Bool.not_eq_true',
        Option.some.injEq, exists_eq_left', or_assoc]
      refine or_congr_right (or_congr_right ⟨And.right, fun hp => ⟨a.schoolScoped_rights hp, hp⟩⟩)

/-- Globally, the permissions that hold are those that can be used across the installation. -/
theorem mem_permissionsIn_global : p ∈ permissionsIn a .global ↔ can a p none = true := by
  cases h : a.owner <;> simp [permissionsIn, can, h, p.mem_all]

/-- In a school, the permissions that hold are those that exist there and can be used there. -/
theorem mem_permissionsIn_school :
    p ∈ permissionsIn a (.school id) ↔ p.isGlobalOnly = false ∧ can a p (some id) = true := by
  cases h : a.owner <;> simp [permissionsIn, h, can]

/-- The schools that may be opened are those in which some permission can be used. -/
theorem mem_accessibleSchools :
    (accessibleSchools a).Has id ↔ ∃ p, p.isGlobalOnly = false ∧ can a p (some id) = true := by
  cases h : a.owner with
  | true => simpa [accessibleSchools, h, Schools.Has, can] using ⟨Permission.dashboardView, rfl⟩
  | false =>
      by_cases hg : ∃ p ∈ SCHOOL_PERMISSIONS, p ∈ a.global
      · obtain ⟨p, hp, hpg⟩ := hg
        have hany : (SCHOOL_PERMISSIONS.any fun p => decide (p ∈ a.global)) = true :=
          List.any_eq_true.mpr ⟨p, hp, decide_eq_true hpg⟩
        simp only [accessibleSchools, h, Bool.false_eq_true, if_false, hany, if_true, Schools.Has, true_iff]
        exact ⟨p, mem_SCHOOL_PERMISSIONS.mp hp, can_iff.mpr (.inr (.inl hpg))⟩
      · have hany : (SCHOOL_PERMISSIONS.any fun p => decide (p ∈ a.global)) = false := by
          simpa using hg
        simp only [accessibleSchools, h, Bool.false_eq_true, if_false, hany, Schools.Has, List.mem_map,
          List.mem_filter, decide_eq_true_eq, Finset.card_pos]
        constructor
        · rintro ⟨⟨id', rights⟩, ⟨hmem, p, hp⟩, rfl⟩
          have hr : p ∈ a.rights id' := by simpa [Access.rights, Table.mem_toList.mp hmem] using hp
          exact ⟨p, a.schoolScoped_rights hr, can_iff.mpr (.inr (.inr ⟨id', rfl, hr⟩))⟩
        · rintro ⟨p, hp, hcan⟩
          rcases can_iff.mp hcan with ho | hpg | ⟨_, ⟨⟩, hr⟩
          · exact absurd ho (by simp [h])
          · exact absurd ⟨p, mem_SCHOOL_PERMISSIONS.mpr hp, hpg⟩ hg
          · cases hl : a.schools.lookup id with
            | none => simp [Access.rights, hl] at hr
            | some rights =>
                exact ⟨(id, rights), ⟨Table.mem_toList.mpr hl, p, by simpa [Access.rights, hl] using hr⟩, rfl⟩

/-- Where a permission given in a scope can be used: everywhere, or, if it exists there, in the school. -/
def Scope.Covers (scope : Scope) (p : Permission) (schoolId : Option String) : Prop :=
  scope = .global ∨ p.isGlobalOnly = false ∧ ∃ id, schoolId = some id ∧ scope = .school id

/-- What one grant gives. -/
def GrantInput.Gives (g : GrantInput) (p : Permission) (schoolId : Option String) : Prop :=
  (∃ raw ∈ g.permissions, isPermission raw = some p) ∧ g.scope.Covers p schoolId

theorem mem_accessFrom_global {owner : Bool} {grants : List GrantInput} :
    p ∈ (accessFrom owner grants).global ↔
      ∃ g ∈ grants, g.scope = .global ∧ ∃ raw ∈ g.permissions, isPermission raw = some p := by
  have hgrant : ∀ (a : Access) (g : GrantInput),
      p ∈ (g.permissions.foldl (fun a raw => a.add g.scope raw) a).global ↔
        p ∈ a.global ∨ ∃ raw ∈ g.permissions, g.scope = .global ∧ isPermission raw = some p :=
    fun a g => foldl_iff_exists (P := fun a : Access => p ∈ a.global)
      (Q := fun raw => g.scope = .global ∧ isPermission raw = some p)
      (fun a raw => Access.mem_add_global) a g.permissions
  have h := foldl_iff_exists (P := fun a : Access => p ∈ a.global)
    (Q := fun g : GrantInput => ∃ raw ∈ g.permissions, g.scope = .global ∧ isPermission raw = some p)
    hgrant (.start owner) grants
  rw [accessFrom, h]
  simp only [Access.start, Finset.notMem_empty, false_or]
  constructor
  · rintro ⟨g, hg, raw, hraw, hs, hp⟩
    exact ⟨g, hg, hs, raw, hraw, hp⟩
  · rintro ⟨g, hg, hs, raw, hraw, hp⟩
    exact ⟨g, hg, raw, hraw, hs, hp⟩

theorem mem_accessFrom_rights {owner : Bool} {grants : List GrantInput} :
    p ∈ (accessFrom owner grants).rights id ↔ p.isGlobalOnly = false ∧
      ∃ g ∈ grants, g.scope = .school id ∧ ∃ raw ∈ g.permissions, isPermission raw = some p := by
  have hgrant : ∀ (a : Access) (g : GrantInput),
      p ∈ (g.permissions.foldl (fun a raw => a.add g.scope raw) a).rights id ↔
        p ∈ a.rights id ∨ ∃ raw ∈ g.permissions,
          g.scope = .school id ∧ isPermission raw = some p ∧ p.isGlobalOnly = false :=
    fun a g => foldl_iff_exists (P := fun a : Access => p ∈ a.rights id)
      (Q := fun raw => g.scope = .school id ∧ isPermission raw = some p ∧ p.isGlobalOnly = false)
      (fun a raw => Access.mem_add_rights) a g.permissions
  have h := foldl_iff_exists (P := fun a : Access => p ∈ a.rights id)
    (Q := fun g : GrantInput => ∃ raw ∈ g.permissions,
      g.scope = .school id ∧ isPermission raw = some p ∧ p.isGlobalOnly = false)
    hgrant (.start owner) grants
  rw [accessFrom, h]
  simp only [Access.start, Access.rights, AList.lookup_empty, Option.getD_none, Finset.notMem_empty, false_or]
  constructor
  · rintro ⟨g, hg, raw, hraw, hs, hp, hgl⟩
    exact ⟨hgl, g, hg, hs, raw, hraw, hp⟩
  · rintro ⟨hgl, g, hg, hs, raw, hraw, hp⟩
    exact ⟨g, hg, raw, hraw, hs, hp, hgl⟩

@[simp] theorem accessFrom_owner (owner : Bool) (grants : List GrantInput) :
    (accessFrom owner grants).owner = owner := by
  refine foldl_invariant (P := fun a : Access => a.owner = owner) (fun a g _ ha => ?_) rfl
  exact foldl_invariant (P := fun a : Access => a.owner = owner)
    (fun a raw _ ha => by simp [ha]) ha

/-- **What stored grants allow**: what one of them gives. -/
theorem can_accessFrom {owner : Bool} {grants : List GrantInput} :
    can (accessFrom owner grants) p schoolId = true ↔ owner = true ∨ ∃ g ∈ grants, g.Gives p schoolId := by
  simp only [can_iff, accessFrom_owner, mem_accessFrom_global, mem_accessFrom_rights, GrantInput.Gives,
    Scope.Covers]
  refine or_congr_right ⟨?_, ?_⟩
  · rintro (⟨g, hg, hs, hp⟩ | ⟨id, hid, hgl, g, hg, hs, hp⟩)
    · exact ⟨g, hg, hp, .inl hs⟩
    · exact ⟨g, hg, hp, .inr ⟨hgl, id, hid, hs⟩⟩
  · rintro ⟨g, hg, hp, hs | ⟨hgl, id, hid, hs⟩⟩
    · exact .inl ⟨g, hg, hs, hp⟩
    · exact .inr ⟨id, hid, hgl, g, hg, hs, hp⟩

/-- What holds in a scope can be used wherever the scope covers it. -/
theorem can_of_mem_permissionsIn {scope : Scope} (hp : p ∈ permissionsIn a scope)
    (hc : scope.Covers p schoolId) : can a p schoolId = true := by
  rcases hc with rfl | ⟨-, id, rfl, rfl⟩
  · rcases can_iff.mp (mem_permissionsIn_global.mp hp) with ho | hg | ⟨_, ⟨⟩, -⟩
    · exact can_iff.mpr (.inl ho)
    · exact can_iff.mpr (.inr (.inl hg))
  · exact (mem_permissionsIn_school.mp hp).2

/-! ### Passing rights on -/

/-- A refused request: its status and what the panel shows. -/
structure Refusal where
  status : ℕ
  error : String
  deriving DecidableEq, Repr

/-- One entry of a requested list: known, and not a global-only one for a school. -/
def readPermission (scope : Scope) (raw : String) : Except Refusal Permission :=
  match isPermission raw with
  | none => .error ⟨400, "Unbekannte Berechtigung: " ++ String.ofList (raw.toList.take 60)⟩
  | some p =>
      if scope ≠ .global ∧ p.isGlobalOnly then
        .error ⟨400, "„" ++ p.spec.label ++ "“ gibt es nur global, nicht für eine Schule"⟩
      else .ok p

/-- A requested list, checked, without duplicates and in the order of the catalog. -/
def normalizeGrant (scope : Scope) (requested : List String) : Except Refusal (List Permission) := do
  let out ← requested.mapM (readPermission scope)
  return ALL_PERMISSIONS.filter (· ∈ out)

/-- The right to manage administrators in a scope. -/
def managesAdminsIn (a : Access) : Scope → Bool
  | .global => can a .adminsGlobalManage none
  | .school id => can a .adminsManage (some id)

/-- May the actor give exactly these permissions in this scope? -/
def mayGrant (actor : Access) (scope : Scope) (permissions : List Permission) :
    Except Refusal (List Permission) :=
  if !managesAdminsIn actor scope then
    .error ⟨403, if scope = .global then "Keine Berechtigung, globale Admins zu verwalten"
      else "Keine Berechtigung, Admins dieser Schule zu verwalten"⟩
  else match permissions.filter (· ∉ permissionsIn actor scope) with
    | [] => .ok permissions
    | beyond => .error ⟨403, "Du kannst nur Rechte vergeben, die du selbst hast: " ++
        ", ".intercalate (beyond.map fun p => p.spec.label)⟩

def ownerRefusal : Refusal :=
  ⟨403, "Server-Admins (ADMIN_USERNAMES) werden in der .env verwaltet, nicht im Panel"⟩

/-- What the grants of one scope give. -/
def Access.held (a : Access) : Scope → Finset Permission
  | .global => a.global
  | .school id => a.rights id

/-- May the actor change or remove what the target holds in this scope? -/
def mayManageTarget (actor target : Access) (scope : Scope) : Except Refusal Unit :=
  if target.owner then .error ownerRefusal
  else if !managesAdminsIn actor scope then .error ⟨403, "Keine Berechtigung, Admins hier zu verwalten"⟩
  else if target.held scope ⊆ permissionsIn actor scope then .ok ()
  else .error ⟨403, "Dieser Admin hat hier Rechte, die du selbst nicht hast"⟩

variable {scope : Scope} {actor target : Access}

/-- What can be used is what the grant of some scope gives there. -/
theorem can_iff_held : can a p schoolId = true ↔
    a.owner = true ∨ ∃ scope, p ∈ a.held scope ∧ scope.Covers p schoolId := by
  rw [can_iff]
  refine or_congr_right ⟨?_, ?_⟩
  · rintro (hg | ⟨id, rfl, hr⟩)
    · exact ⟨.global, hg, .inl rfl⟩
    · exact ⟨.school id, hr, .inr ⟨a.schoolScoped_rights hr, id, rfl, rfl⟩⟩
  · rintro ⟨scope, hp, rfl | ⟨-, id, rfl, rfl⟩⟩
    · exact .inl hp
    · exact .inr ⟨id, rfl, hp⟩

theorem readPermission_ok {raw : String} (h : readPermission scope raw = .ok p) :
    scope = .global ∨ p.isGlobalOnly = false := by
  unfold readPermission at h
  split at h
  · cases h
  · split at h
    · cases h
    · next hc =>
        cases h
        by_cases hs : scope = .global
        · exact .inl hs
        · exact .inr (by simpa [hs] using hc)

theorem normalizeGrant_ok {requested : List String} {permissions : List Permission}
    (h : normalizeGrant scope requested = .ok permissions) :
    ∀ p ∈ permissions, scope = .global ∨ p.isGlobalOnly = false := by
  intro p hp
  cases hm : requested.mapM (readPermission scope) with
  | error e => simp [normalizeGrant, hm] at h
  | ok out =>
      rw [normalizeGrant, hm] at h
      cases Except.ok.inj h
      have hout : p ∈ out := by simpa using (List.mem_filter.mp hp).2
      obtain ⟨raw, -, hraw⟩ := mem_of_mapM_ok hm hout
      exact readPermission_ok hraw

theorem mayGrant_ok {permissions granted : List Permission}
    (h : mayGrant actor scope permissions = .ok granted) :
    granted = permissions ∧ managesAdminsIn actor scope = true ∧
      ∀ p ∈ permissions, p ∈ permissionsIn actor scope := by
  unfold mayGrant at h
  split at h
  · cases h
  · next hm =>
      split at h
      · next hnil =>
          cases h
          exact ⟨rfl, by simpa using hm, fun p hp => by simpa using List.filter_eq_nil_iff.mp hnil p hp⟩
      · cases h

theorem mayManageTarget_ok (h : mayManageTarget actor target scope = .ok ()) :
    target.owner = false ∧ managesAdminsIn actor scope = true ∧
      target.held scope ⊆ permissionsIn actor scope := by
  unfold mayManageTarget at h
  split at h
  · cases h
  · next ho =>
      split at h
      · cases h
      · next hm =>
          split at h
          · next hsub => exact ⟨by simpa using ho, by simpa using hm, hsub⟩
          · cases h

end Pokyh.Admin

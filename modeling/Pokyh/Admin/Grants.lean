import Pokyh.Admin.Permissions

/-!
# Admin — Grants

Giving and taking rights (`services/adminAccess.ts`): `setGrant`, the guard of every removal
(`assertMayRemoveAdmin`), and runs of both, by anybody who is not a server owner.

A user name is taken as it is compared everywhere: without the blanks around it and in lower case.

* `step_changes`: what a step changes, grant by grant.
* `rights_passed_on`: **rights can be passed on but not invented**.
-/

namespace Pokyh.Admin
open Pokyh.Lib

structure Config where
  adminUsernames : List String

/-- A starting point of the grant editor; a grant names the one it matches. -/
structure Preset where
  key : String
  scope : PermissionScope
  permissions : List Permission

/-- A row of `admin_grants`; its permissions are the strings of the stored list. -/
structure Grant where
  preset : String
  permissions : List String
  grantedBy : Option String

/-- An account, and whether there is an admin row behind it. -/
structure Account where
  schoolId : Option String
  isAdmin : Bool

structure World where
  accounts : Table String Account
  schools : List String
  presets : List Preset
  grants : Table (String × Scope) Grant

variable (c : Config)

def isOwner (username : String) : Bool := username ∈ c.adminUsernames

/-- The grants of an account. -/
def World.grantsOf (w : World) (username : String) : List GrantInput :=
  w.grants.toList.filterMap fun e => if e.1.1 = username then some ⟨e.1.2, e.2.permissions⟩ else none

def loadAccess (w : World) (username : String) : Access :=
  if isOwner c username then accessFrom true [] else accessFrom false (w.grantsOf username)

/-- The admin account a grant is for. -/
def adminTarget (w : World) (username : String) : Except Refusal Account :=
  if isOwner c username then .error ownerRefusal
  else match w.accounts.lookup username with
    | some account => if account.isAdmin then .ok account else .error ⟨404, "Kein Admin-Konto mit diesem Namen"⟩
    | none => .error ⟨404, "Kein Admin-Konto mit diesem Namen"⟩

def checkScope (w : World) : Scope → Except Refusal Unit
  | .global => .ok ()
  | .school id => if id ∈ w.schools then .ok () else .error ⟨422, "Unbekannte Schule"⟩

/-- May the actor hand rights in this scope to an account of that school? -/
def mayReach (actor : Access) (scope : Scope) (accountSchool : Option String) : Bool :=
  scope = .global || managesAdminsIn actor .global ||
    match scope with
    | .global => true
    | .school id => accountSchool = some id

/-- A preset and a list of rights in a scope are the same set. -/
def Preset.fits (preset : Preset) (scope : Scope) (permissions : List Permission) : Bool :=
  (decide (preset.scope = .global) == decide (scope = .global)) &&
    preset.permissions.length = permissions.length && preset.permissions.all (· ∈ permissions)

def presetFor (scope : Scope) (permissions : List Permission) (presets : List Preset) : String :=
  ((presets.find? fun preset => preset.fits scope permissions).map Preset.key).getD "custom"

/-- The preset a grant is said to be made from. -/
def presetOf (w : World) (scope : Scope) (permissions : List Permission) (presetKey : Option String) : String :=
  let chosen := presetKey.bind fun key => w.presets.find? fun preset => preset.key = key
  match chosen.filter fun preset => preset.fits scope permissions with
  | some preset => preset.key
  | none => presetFor scope permissions w.presets

structure GrantView where
  username : String
  scope : Scope
  preset : String
  permissions : List Permission
  grantedBy : Option String

/-- The check of a list as the request answers it. -/
def requestedGrant (scope : Scope) (requested : List String) : Except Refusal (List Permission) :=
  (normalizeGrant scope requested).mapError fun r => ⟨if r.status = 400 then 422 else 403, r.error⟩

/-- Sets what an account may do in a scope; an empty list removes the grant. -/
def setGrant (w : World) (actor target : String) (scope : Scope) (requested : List String)
    (presetKey : Option String) : Except Refusal (World × Option GrantView) := do
  let access := loadAccess c w actor
  refuseIf (actor = target) ⟨403, "Die eigenen Rechte kann nur ein anderer Admin ändern"⟩
  checkScope w scope
  let account ← adminTarget c w target
  refuseIf (!mayReach access scope account.schoolId) ⟨403, "Das Konto gehört zu einer anderen Schule"⟩
  let normalized ← requestedGrant scope requested
  let permissions ← mayGrant access scope normalized
  mayManageTarget access (loadAccess c w target) scope
  if permissions = [] then
    return ({ w with grants := w.grants.erase (target, scope) }, none)
  else
    let preset := presetOf w scope permissions presetKey
    let grant : Grant := ⟨preset, permissions.map fun p => p.spec.key, some actor⟩
    return ({ w with grants := w.grants.insert (target, scope) grant },
      some ⟨target, scope, preset, permissions, some actor⟩)

/-- The scopes in which an access gives anything. -/
def Access.scopes (a : Access) : List Scope :=
  (if a.global.card > 0 then [.global] else []) ++ a.schools.toList.map fun e => .school e.1

/-- May the actor manage the target as a whole? -/
def assertMayManageAdmin (w : World) (actor target : String) (targetSchool : Option String) :
    Except Refusal Unit := do
  let access := loadAccess c w actor
  refuseIf (isOwner c target) ownerRefusal
  let targetAccess := loadAccess c w target
  targetAccess.scopes.forM (mayManageTarget access targetAccess)
  let scope := (targetSchool.map Scope.school).getD .global
  refuseIf (targetAccess.scopes = [] ∧ !managesAdminsIn access scope ∧ !managesAdminsIn access .global)
    ⟨403, "Keine Berechtigung, Admins dieser Schule zu verwalten"⟩

def assertMayRemoveAdmin (w : World) (actor target : String) (targetSchool : Option String) :
    Except Refusal Unit := do
  refuseIf (actor = target) ⟨403, "Die eigene Admin-Berechtigung kann nur ein anderer Admin entziehen"⟩
  assertMayManageAdmin c w actor target targetSchool

/-- Ends the admin standing of an account: the admin row goes, and every grant with it. -/
def revokeAdmin (w : World) (actor target : String) : Except Refusal World :=
  match w.accounts.lookup target with
  | none => .error ⟨404, "User not found"⟩
  | some account => do
      assertMayRemoveAdmin c w actor target account.schoolId
      return { w with
        accounts := w.accounts.insert target { account with isAdmin := false }
        grants := w.grants.keep fun key _ => key.1 ≠ target }

/-! ### Runs -/

/-- What happens: a request of the panel, or accounts, schools and presets change. -/
inductive Move where
  | setGrant (actor target : String) (scope : Scope) (requested : List String) (presetKey : Option String)
  | revokeAdmin (actor target : String)
  | around (accounts : Table String Account) (schools : List String) (presets : List Preset)

/-- A refused request changes nothing; the requests of owners are left out. -/
def step (w : World) : Move → Option World
  | .setGrant actor target scope requested presetKey =>
      if isOwner c actor then none
      else match setGrant c w actor target scope requested presetKey with
        | .ok (w', _) => some w'
        | .error _ => some w
  | .revokeAdmin actor target =>
      if isOwner c actor then none
      else match revokeAdmin c w actor target with
        | .ok w' => some w'
        | .error _ => some w
  | .around accounts schools presets => some { w with accounts, schools, presets }

/-- Who makes the request. -/
def Move.actor : Move → Option String
  | .setGrant actor _ _ _ _ | .revokeAdmin actor _ => some actor
  | .around _ _ _ => none

/-! ### What stored grants give -/

variable {c} {w w' : World} {u actor target : String} {scope : Scope} {p : Permission}
  {schoolId : Option String}

theorem mem_grantsOf {g : GrantInput} :
    g ∈ w.grantsOf u ↔ ∃ grant, w.grants.lookup (u, g.scope) = some grant ∧ g.permissions = grant.permissions := by
  simp only [World.grantsOf, List.mem_filterMap]
  constructor
  · rintro ⟨⟨⟨name, sc⟩, grant⟩, hmem, hg⟩
    obtain ⟨rfl, ⟨⟩⟩ := Option.ite_none_right_eq_some.mp hg
    exact ⟨grant, Table.mem_toList.mp hmem, rfl⟩
  · rintro ⟨grant, hl, hp⟩
    exact ⟨((u, g.scope), grant), Table.mem_toList.mpr hl, by simp [← hp]⟩

/-- What the grant of a scope gives: nothing to an owner, who needs none. -/
theorem mem_held :
    p ∈ (loadAccess c w u).held scope ↔ isOwner c u = false ∧
      (scope = .global ∨ p.isGlobalOnly = false) ∧
      ∃ grant, w.grants.lookup (u, scope) = some grant ∧ ∃ raw ∈ grant.permissions, isPermission raw = some p := by
  by_cases ho : isOwner c u
  · cases scope <;> simp [loadAccess, ho, Access.held, mem_accessFrom_global, mem_accessFrom_rights]
  · have hgrants : ∀ sc : Scope, (∃ g ∈ w.grantsOf u, g.scope = sc ∧ ∃ raw ∈ g.permissions, isPermission raw = some p) ↔
        ∃ grant, w.grants.lookup (u, sc) = some grant ∧ ∃ raw ∈ grant.permissions, isPermission raw = some p := by
      intro sc
      constructor
      · rintro ⟨g, hg, rfl, raw, hraw, hp⟩
        obtain ⟨grant, hl, heq⟩ := mem_grantsOf.mp hg
        exact ⟨grant, hl, raw, heq ▸ hraw, hp⟩
      · rintro ⟨grant, hl, raw, hraw, hp⟩
        exact ⟨⟨sc, grant.permissions⟩, mem_grantsOf.mpr ⟨grant, hl, rfl⟩, rfl, raw, hraw, hp⟩
    cases scope with
    | global => simp [loadAccess, ho, Access.held, mem_accessFrom_global, hgrants]
    | school id => simp [loadAccess, ho, Access.held, mem_accessFrom_rights, hgrants]

theorem held_congr (h : w'.grants.lookup (u, scope) = w.grants.lookup (u, scope)) :
    p ∈ (loadAccess c w' u).held scope ↔ p ∈ (loadAccess c w u).held scope := by
  rw [mem_held, mem_held, h]

/-- The actor may change what the account holds in the scope, as far as this permission goes. -/
structure Entitled (c : Config) (w : World) (actor u : String) (scope : Scope) (p : Permission) : Prop where
  other : u ≠ actor
  notOwner : isOwner c u = false
  manages : managesAdminsIn (loadAccess c w actor) scope = true
  own : p ∈ permissionsIn (loadAccess c w actor) scope

theorem adminTarget_ok {account : Account} (h : adminTarget c w target = .ok account) :
    isOwner c target = false := by
  unfold adminTarget at h
  split at h
  · cases h
  · next ho => simpa using ho

/-- What a request to set a grant has changed, when it goes through. -/
theorem setGrant_changes {requested : List String} {presetKey : Option String} {view : Option GrantView}
    (h : setGrant c w actor target scope requested presetKey = .ok (w', view)) (u : String) (sc : Scope)
    (p : Permission) :
    (p ∈ (loadAccess c w' u).held sc ↔ p ∈ (loadAccess c w u).held sc) ∨
      sc = scope ∧ Entitled c w actor u sc p := by
  obtain ⟨⟨⟩, hne, h⟩ := bind_eq_ok.mp h
  obtain ⟨-, -, h⟩ := bind_eq_ok.mp h
  obtain ⟨account, htarget, h⟩ := bind_eq_ok.mp h
  obtain ⟨-, -, h⟩ := bind_eq_ok.mp h
  obtain ⟨normalized, hnorm, h⟩ := bind_eq_ok.mp h
  obtain ⟨permissions, hgrant, h⟩ := bind_eq_ok.mp h
  obtain ⟨⟨⟩, hmanage, hdone⟩ := bind_eq_ok.mp h
  obtain ⟨hsame, hm, hown⟩ := mayGrant_ok hgrant
  obtain ⟨-, -, hheld⟩ := mayManageTarget_ok hmanage
  have hne := refuseIf_eq_ok.mp hne
  by_cases hkey : (u, sc) = (target, scope)
  · obtain ⟨rfl, rfl⟩ := Prod.mk.inj hkey
    by_cases hp : p ∈ permissionsIn (loadAccess c w actor) sc
    · exact .inr ⟨rfl, Ne.symm hne, adminTarget_ok htarget, hm, hp⟩
    -- What the actor does not hold was not there before and is not given now.
    · refine .inl (iff_of_false (fun hp' => hp ?_) fun hp' => hp (hheld hp'))
      obtain ⟨-, -, grant, hl, raw, hraw, hkey⟩ := mem_held.mp hp'
      split at hdone
      · cases hdone
        simp at hl
      · cases hdone
        simp only [AList.lookup_insert, Option.some.injEq] at hl
        subst hl
        obtain ⟨q, hq, rfl⟩ := List.mem_map.mp hraw
        rw [isPermission_key] at hkey
        cases hkey
        exact hown _ (hsame ▸ hq)
  · refine .inl (held_congr ?_)
    split at hdone
    · cases hdone
      exact AList.lookup_erase_ne hkey
    · cases hdone
      exact AList.lookup_insert_ne hkey

/-- Every scope in which a permission is held is looked at before a removal. -/
theorem mem_scopes {a : Access} (h : p ∈ a.held scope) : scope ∈ a.scopes := by
  cases scope with
  | global =>
      have hcard : a.global.card > 0 := Finset.card_pos.mpr ⟨p, h⟩
      simp [Access.scopes, hcard]
  | school id =>
      cases hl : a.schools.lookup id with
      | none => simp [Access.held, Access.rights, hl] at h
      | some rights =>
          refine List.mem_append_right _ (List.mem_map.mpr ⟨(id, rights), Table.mem_toList.mpr hl, rfl⟩)

theorem revokeAdmin_changes (h : revokeAdmin c w actor target = .ok w') (u : String) (sc : Scope)
    (p : Permission) :
    (p ∈ (loadAccess c w' u).held sc ↔ p ∈ (loadAccess c w u).held sc) ∨ Entitled c w actor u sc p := by
  unfold revokeAdmin at h
  split at h
  · cases h
  · obtain ⟨⟨⟩, hguard, h⟩ := bind_eq_ok.mp h
    obtain ⟨⟨⟩, hne, hguard⟩ := bind_eq_ok.mp hguard
    obtain ⟨⟨⟩, ho, hguard⟩ := bind_eq_ok.mp hguard
    obtain ⟨⟨⟩, hscopes, -⟩ := bind_eq_ok.mp hguard
    have hne := refuseIf_eq_ok.mp hne
    have ho := refuseIf_eq_ok.mp ho
    cases h
    by_cases hu : u = target
    · subst hu
      by_cases hp : p ∈ (loadAccess c w u).held sc
      · obtain ⟨-, hm, hheld⟩ := mayManageTarget_ok (forM_eq_ok.mp hscopes sc (mem_scopes hp))
        exact .inr ⟨Ne.symm hne, by simpa using ho, hm, hheld hp⟩
      · refine .inl (iff_of_false (fun hp' => ?_) hp)
        obtain ⟨-, -, grant, hl, -⟩ := mem_held.mp hp'
        simpa using (Table.lookup_keep.mp hl).2
    · exact .inl (held_congr (Table.lookup_keep_of_pos fun _ _ => by simpa using hu))

/-- **What a step changes, grant by grant**: only what its actor holds and may manage. -/
theorem step_changes {m : Move} (h : step c w m = some w') (u : String) (sc : Scope) (p : Permission) :
    (p ∈ (loadAccess c w' u).held sc ↔ p ∈ (loadAccess c w u).held sc) ∨
      ∃ actor, m.actor = some actor ∧ isOwner c actor = false ∧ Entitled c w actor u sc p := by
  cases m with
  | setGrant actor target scope requested presetKey =>
      obtain ⟨hactor, h⟩ := Option.ite_none_left_eq_some.mp h
      split at h
      · next hset =>
          cases h
          exact (setGrant_changes hset u sc p).imp_right
            fun hc => ⟨actor, rfl, by simpa using hactor, hc.2⟩
      · cases h
        exact .inl Iff.rfl
  | revokeAdmin actor target =>
      obtain ⟨hactor, h⟩ := Option.ite_none_left_eq_some.mp h
      split at h
      · next hrev =>
          cases h
          exact (revokeAdmin_changes hrev u sc p).imp_right
            fun hc => ⟨actor, rfl, by simpa using hactor, hc⟩
      · cases h
        exact .inl Iff.rfl
  | around accounts schools presets =>
      cases h
      exact .inl (held_congr rfl)

/-! ### What can be used, and by whom -/

/-- Entitled to manage administrators in a school or, without one, across the installation. -/
def ManagesAt (a : Access) (schoolId : Option String) : Prop :=
  managesAdminsIn a .global = true ∨ ∃ id, schoolId = some id ∧ managesAdminsIn a (.school id) = true

/-- A permission that somebody who is not an owner can use there. -/
def InUse (c : Config) (w : World) (p : Permission) (schoolId : Option String) : Prop :=
  ∃ u, isOwner c u = false ∧ can (loadAccess c w u) p schoolId = true

/-- Rights are passed on, and taken, only by who has them. -/
structure PassedOn (c : Config) (w : World) (m : Move) (w' : World) : Prop where
  /-- Whoever gains or loses a permission, the actor can use it there itself, manages the admins
  there, and is somebody else; no owner gains or loses anything. -/
  own : ∀ u p schoolId, can (loadAccess c w' u) p schoolId ≠ can (loadAccess c w u) p schoolId →
    ∃ actor, m.actor = some actor ∧ isOwner c actor = false ∧ u ≠ actor ∧ isOwner c u = false ∧
      can (loadAccess c w actor) p schoolId = true ∧ ManagesAt (loadAccess c w actor) schoolId
  /-- A grant for one school gives what exists in a school, and in that school only. -/
  school : ∀ actor target id requested presetKey, m = .setGrant actor target (.school id) requested presetKey →
    ∀ u p schoolId, can (loadAccess c w u) p schoolId = false → can (loadAccess c w' u) p schoolId = true →
      p.isGlobalOnly = false ∧ schoolId = some id

/-- The three readers say the same about every permission that exists in the asked scope. -/
structure Agree (a : Access) : Prop where
  global : ∀ p, p ∈ permissionsIn a .global ↔ can a p none = true
  school : ∀ id p, p.isGlobalOnly = false → (p ∈ permissionsIn a (.school id) ↔ can a p (some id) = true)
  schools : ∀ id, (accessibleSchools a).Has id ↔ ∃ p, p.isGlobalOnly = false ∧ can a p (some id) = true

theorem agree (a : Access) : Agree a where
  global _ := mem_permissionsIn_global
  school _ _ hp := by rw [mem_permissionsIn_school]; exact and_iff_right hp
  schools _ := mem_accessibleSchools

@[simp] theorem loadAccess_owner : (loadAccess c w u).owner = isOwner c u := by
  cases h : isOwner c u <;> simp [loadAccess, h]

theorem Entitled.can (h : Entitled c w actor u scope p) (hc : scope.Covers p schoolId) :
    can (loadAccess c w actor) p schoolId = true ∧ ManagesAt (loadAccess c w actor) schoolId := by
  refine ⟨can_of_mem_permissionsIn h.own hc, ?_⟩
  rcases hc with rfl | ⟨-, id, rfl, rfl⟩
  · exact .inl h.manages
  · exact .inr ⟨id, rfl, h.manages⟩

/-- Where the answer of `can` changes, a grant has changed that covers the place. -/
theorem held_of_can_ne
    (h : can (loadAccess c w' u) p schoolId ≠ can (loadAccess c w u) p schoolId) :
    ∃ sc : Scope, sc.Covers p schoolId ∧
      ¬ (p ∈ (loadAccess c w' u).held sc ↔ p ∈ (loadAccess c w u).held sc) := by
  by_contra hall
  simp only [not_exists, not_and, not_not] at hall
  refine h (Bool.eq_iff_iff.mpr ?_)
  rw [can_iff_held, can_iff_held, loadAccess_owner, loadAccess_owner]
  refine or_congr_right (exists_congr fun sc => ?_)
  by_cases hsc : sc.Covers p schoolId
  · exact and_congr_left fun _ => hall sc hsc
  · simp [hsc]

theorem step_passedOn {m : Move} (h : step c w m = some w') : PassedOn c w m w' where
  own u p schoolId hne := by
    obtain ⟨sc, hsc, hheld⟩ := held_of_can_ne hne
    obtain ⟨actor, hm, ho, he⟩ := (step_changes h u sc p).resolve_left hheld
    exact ⟨actor, hm, ho, he.other, he.notOwner, he.can hsc⟩
  school := by
    rintro actor target id requested presetKey rfl u p schoolId hbefore hafter
    obtain ⟨sc, hsc, hheld⟩ := @held_of_can_ne c w w' u p schoolId (by simp [hafter, hbefore])
    obtain ⟨-, h⟩ := Option.ite_none_left_eq_some.mp h
    split at h
    · next hset =>
        cases h
        obtain ⟨rfl, -⟩ := (setGrant_changes hset u sc p).resolve_left hheld
        rcases hsc with hsc | ⟨hp, _, rfl, ⟨⟩⟩
        · cases hsc
        · exact ⟨hp, rfl⟩
    · cases h
      exact absurd Iff.rfl hheld

theorem step_inUse {m : Move} (h : step c w m = some w') (p : Permission) (schoolId : Option String)
    (hu : InUse c w' p schoolId) : InUse c w p schoolId := by
  obtain ⟨u, ho, hcan⟩ := hu
  by_cases hsame : can (loadAccess c w' u) p schoolId = can (loadAccess c w u) p schoolId
  · exact ⟨u, ho, hsame ▸ hcan⟩
  · obtain ⟨actor, -, hactor, -, -, hown, -⟩ := (step_passedOn h).own u p schoolId hsame
    exact ⟨actor, hactor, hown⟩

/-- A school with two admins: the first manages the admins there. -/
def staffed : World where
  accounts := .ofList [("anna", ⟨some "lbs", true⟩), ("bert", ⟨some "lbs", true⟩)]
  schools := ["lbs"]
  presets := []
  grants := .ofList [(("anna", .school "lbs"), ⟨"custom", ["admins.manage", "users.view", "cluster.manage"], none⟩)]

end Pokyh.Admin

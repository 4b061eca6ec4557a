import Mathlib.Data.List.Nodup
import Mathlib.Data.List.Sort
import Pokyh.Lib.Logs
import Pokyh.Lib.Runs

/-!
# Account — Sessions

An account's signed-in devices (`services/sessions.ts`): sign-ins with and without renewal, rotation,
revocation and the clean-up, each split at its database reads and writes.

* `Event.Holds`: a revoked row gets no refresh token, and a device that was signed out neither renews its
  sign-in nor rotates a token for `SESSION_IDLE_DAYS`, until the person signs in on it again.
* `signed_out_stays_out`: that holds in runs whose revocations find no sign-in of the session or the device
  under way, and whose renewals from a device signed out see a session of it.
* `forgotten_revocation`: a device that was last used long before it was signed out is let in again.
-/

namespace Pokyh.Account.Sessions
open Pokyh.Lib

/-- Milliseconds. -/
abbrev Time := ℕ

def DAY_MS : Time := 24 * 60 * 60 * 1000

structure Config where
  sessionIdleDays : ℕ
  refreshTokenExpiresInHours : ℕ
  sessionsPerAccountMax : ℕ

variable (x : Config)

/-- `SESSION_IDLE_DAYS` as a time span. -/
def Config.idle : Time := x.sessionIdleDays * DAY_MS

def idleCutoff (now : Time) : Time := now - x.idle

/-- What a request says of the device it comes from. -/
structure DeviceInfo where
  client : String
  platform : String
  browser : String
  deriving DecidableEq, Repr

def deviceColumns (d : DeviceInfo) : DeviceInfo := { d with browser := String.ofList (d.browser.toList.take 40) }

/-- A row of `refresh_tokens` of the account. -/
structure Row where
  id : String
  tokenHash : String
  expiresAt : Time
  deviceId : Option String
  device : DeviceInfo
  revokedAt : Option Time
  lastUsedAt : Time
  deriving DecidableEq, Repr

structure SignInContext where
  device : DeviceInfo
  deviceId : Option String
  /-- The hash of the refresh token the device holds. -/
  currentToken : Option String
  renewal : Bool
  deriving DecidableEq, Repr

structure RefreshToken where
  tokenHash : String
  expiresAt : Time
  deriving DecidableEq, Repr

/-- A call between two of its steps. -/
inductive Call where
  /-- No session for the held token; the device's is looked for. -/
  | findDeviceSession (ctx : SignInContext) (token : RefreshToken) (idle : Time)
  | continueSession (ctx : SignInContext) (token : RefreshToken) (id : String) (seen : Time)
  | createSession (ctx : SignInContext) (token : RefreshToken) (seen : Time)
  | trimSessions
  | rotateSession (ctx : SignInContext) (id tokenHash : String)
  /-- `ended` when the device list or an admin asked for it. -/
  | revokeSessionIds (ids : List String) (ended : Bool)
  deriving DecidableEq, Repr

/-- What a run is about, as it happens. -/
inductive Event where
  | token (id : String)
  | revoked (id : String)
  /-- Every session of the device has been ended. -/
  | signedOut (deviceId : String) (revokedAt : Time)
  /-- The person has signed in on the device. -/
  | signedIn (deviceId : String)
  | renewed (deviceId : String) (now : Time)
  | rotated (deviceId : String) (now : Time)
  deriving DecidableEq, Repr

/-- Since when the device has been signed out, if the person has not signed in on it again. -/
def signedOutAt (deviceId : String) : List Event → Option Time
  | [] => none
  | .signedOut d revokedAt :: log => if d = deviceId then some revokedAt else signedOutAt deviceId log
  | .signedIn d :: log => if d = deviceId then none else signedOutAt deviceId log
  | _ :: log => signedOutAt deviceId log

/-- What must be so of an event after what was before it. -/
def Event.Holds : Event → List Event → Prop
  | .token id, earlier => .revoked id ∉ earlier
  | .renewed deviceId now, earlier | .rotated deviceId now, earlier =>
      ∀ revokedAt, signedOutAt deviceId earlier = some revokedAt → revokedAt + x.idle ≤ now
  | _, _ => True

/-- The account's rows and the calls under way. -/
structure World where
  rows : List Row
  calls : List Call
  log : List Event
  clock : Time
  ids : List String
  deriving DecidableEq, Repr

def World.empty : World := ⟨[], [], [], 0, []⟩

def World.call (w : World) (c : Call) : World := { w with calls := c :: w.calls }

/-- A sign-in has got a token. -/
def signInEvents (ctx : SignInContext) (id : String) (now : Time) : List Event :=
  (ctx.deviceId.map fun d => if ctx.renewal then .renewed d now else .signedIn d).toList ++ [.token id]

/-- A rotation has got a token. -/
def rotationEvents (stored : Row) (now : Time) : List Event :=
  (stored.deviceId.map fun d => .rotated d now).toList ++ [.token stored.id]

/-- With the session found or none, what a sign-in does next. -/
def World.decideSession (w : World) (ctx : SignInContext) (token : RefreshToken) (now : Time) (found : Option Row) :
    World :=
  match found with
  | some r =>
      if r.revokedAt.isSome then if ctx.renewal then w else w.call (.createSession ctx token now)
      else w.call (.continueSession ctx token r.id now)
  | none => w.call (.createSession ctx token now)

/-- The sessions a device without a token of its own may have had. -/
def candidates (rows : List Row) (ctx : SignInContext) (idle : Time) : List Row :=
  match ctx.deviceId with
  | some d => rows.filter fun r => r.deviceId = some d && idle < r.lastUsedAt
  | none => rows.filter fun r => r.deviceId = none && r.revokedAt = none && idle < r.lastUsedAt &&
      r.device.client = ctx.device.client && r.device.platform = ctx.device.platform &&
      r.device.browser = (deviceColumns ctx.device).browser

/-- One of the latest of the rows, or none where there is none. -/
def isLatest (rows : List Row) : Option Row → Bool
  | some r => r ∈ rows && rows.all fun r' => r'.lastUsedAt ≤ r.lastUsedAt
  | none => rows.isEmpty

inductive Request where
  | openSession (ctx : SignInContext) (tokenHash : String)
  | rotateSession (tokenHash : String) (ctx : SignInContext)
  | revokeSession (sid : String)
  | revokeSessions (keepSid : Option String)
  | endSessionOfToken (tokenHash : String)
  | cleanupSessions
  deriving DecidableEq, Repr

/-- The first step of a request, at a time; `earlier` is when its cut-off was reckoned. -/
def World.begin (w : World) (earlier now : Time) : Request → World
  | .openSession ctx tokenHash =>
      let token : RefreshToken := ⟨tokenHash, earlier + x.refreshTokenExpiresInHours * 60 * 60 * 1000⟩
      match ctx.currentToken.bind fun hash => w.rows.find? fun r => r.tokenHash = hash with
      | some held => w.decideSession ctx token now (some held)
      | none => w.call (.findDeviceSession ctx token (idleCutoff x earlier))
  | .rotateSession tokenHash ctx =>
      match w.rows.find? fun r => r.tokenHash = tokenHash with
      | some stored =>
          if stored.revokedAt.isSome || stored.expiresAt < now then w
          else w.call (.rotateSession ctx stored.id stored.tokenHash)
      | none => w
  | .revokeSession sid =>
      if w.rows.any fun r => r.id = sid && r.revokedAt = none then w.call (.revokeSessionIds [sid] true) else w
  | .revokeSessions keepSid =>
      let ids := (w.rows.filter fun r => r.revokedAt = none && keepSid ≠ some r.id).map Row.id
      if ids = [] then w else w.call (.revokeSessionIds ids true)
  | .endSessionOfToken tokenHash =>
      match w.rows.find? fun r => r.tokenHash = tokenHash with
      | some r => if r.revokedAt.isSome then w else w.call (.revokeSessionIds [r.id] false)
      | none => w
  | .cleanupSessions =>
      { w with rows := w.rows.filter fun r => !(r.lastUsedAt < idleCutoff x earlier ||
          r.revokedAt.any (· < idleCutoff x earlier) ||
          (r.device.client = "" && r.expiresAt < earlier - 12 * 60 * 60 * 1000)) }

/-- What a step of a call reads besides the rows. -/
structure Reading where
  now : Time
  earlier : Time
  found : Option Row
  token : RefreshToken
  id : String
  deriving DecidableEq, Repr

/-- What a revocation writes. -/
def revokeRows (rows : List Row) (ids : List String) (revokedAt : Time) : List Row :=
  rows.map fun r => if r.id ∈ ids && r.revokedAt = none then { r with revokedAt := some revokedAt } else r

/-- The rows that a revocation ends. -/
def endedRows (rows : List Row) (ids : List String) : List Row := rows.filter fun r => r.id ∈ ids && r.revokedAt = none

/-- The devices that have lost a session and have none left. -/
def signedOutDevices (rows : List Row) (ids : List String) : List String :=
  ((endedRows rows ids).filterMap Row.deviceId).filter fun d =>
    rows.all fun r => r.deviceId ≠ some d || r.revokedAt.isSome || r.id ∈ ids

/-- The update of the session that a sign-in continues. -/
def continuedRow (ctx : SignInContext) (token : RefreshToken) (seen : Time) (r : Row) : Row :=
  { r with
    tokenHash := token.tokenHash
    expiresAt := token.expiresAt
    -- a request that names no device keeps what the device itself told
    device := if ctx.device.client ≠ "other" then deviceColumns ctx.device else r.device
    deviceId := ctx.deviceId.or r.deviceId
    lastUsedAt := seen }

def rotatedRow (ctx : SignInContext) (token : RefreshToken) (lastUsedAt : Time) (r : Row) : Row :=
  { r with
    tokenHash := token.tokenHash
    expiresAt := token.expiresAt
    device := if ctx.device.browser ≠ "" then deviceColumns ctx.device else r.device
    lastUsedAt := lastUsedAt }

/-- An update of the row with this id. -/
def updateRow (rows : List Row) (id : String) (data : Row → Row) : List Row :=
  rows.map fun r => if r.id = id then data r else r

/-- The next step of a call. -/
def World.goOn (w : World) (t : Reading) : Call → World
  | .findDeviceSession ctx token _ => w.decideSession ctx token t.now t.found
  | .continueSession ctx token id seen =>
      if w.rows.any fun r => r.id = id then
        { w with
          rows := updateRow w.rows id (continuedRow ctx token seen)
          log := signInEvents ctx id t.now ++ w.log }
      else w
  | .createSession ctx token seen =>
      { w with
        rows := w.rows ++ [⟨t.id, token.tokenHash, token.expiresAt, ctx.deviceId, deviceColumns ctx.device, none, seen⟩]
        calls := .trimSessions :: w.calls
        log := signInEvents ctx t.id t.now ++ w.log
        ids := t.id :: w.ids }
  | .trimSessions =>
      let active := (w.rows.filter fun r => r.revokedAt = none).insertionSort fun a b => b.lastUsedAt ≤ a.lastUsedAt
      let surplus := (active.drop x.sessionsPerAccountMax).map Row.id
      if surplus = [] then w else w.call (.revokeSessionIds surplus false)
  | .rotateSession ctx id tokenHash =>
      match w.rows.find? fun r => r.id = id && r.tokenHash = tokenHash && r.revokedAt = none with
      | some stored =>
          { w with
            rows := updateRow w.rows id (rotatedRow ctx t.token t.earlier)
            log := rotationEvents stored t.now ++ w.log }
      | none => w
  | .revokeSessionIds ids ended =>
      { w with
        rows := revokeRows w.rows ids t.earlier
        log := (if ended then (signedOutDevices w.rows ids).map (.signedOut · t.earlier) else []) ++
          ((endedRows w.rows ids).map (.revoked ·.id) ++ w.log) }

inductive Move where
  | begin (request : Request) (earlier now : Time)
  | goOn (call : Call) (t : Reading)
  | giveUp (call : Call)
  deriving DecidableEq, Repr

/-- What a lookup may find, and that a new id is new. -/
def World.allows (w : World) (t : Reading) : Call → Bool
  | .findDeviceSession ctx _ idle => isLatest (candidates w.rows ctx idle) t.found
  | .createSession _ _ _ => t.id ∉ w.ids
  | _ => true

def World.step (w : World) : Move → Option World
  | .begin request earlier now =>
      if w.clock ≤ now && earlier ≤ now then some ({ w with clock := now }.begin x earlier now request) else none
  | .goOn call t =>
      if call ∈ w.calls && w.clock ≤ t.now && t.earlier ≤ t.now && w.allows t call then
        some ({ w with calls := w.calls.erase call, clock := t.now }.goOn x t call)
      else none
  | .giveUp call => if call ∈ w.calls then some { w with calls := w.calls.erase call } else none

/-- The device is one that was signed out less than `SESSION_IDLE_DAYS` ago. -/
def World.isOut (w : World) (now : Time) (ctx : SignInContext) : Bool :=
  ctx.renewal && ctx.deviceId.any fun d => (signedOutAt d w.log).any fun revokedAt => now < revokedAt + x.idle

/-- A sign-in that has read its session, and does not have its token yet, of one of these sessions or, renewing, of
one of these devices. -/
def Call.isBetween (ids devices : List String) : Call → Bool
  | .continueSession ctx _ id _ => id ∈ ids || (ctx.renewal && ctx.deviceId.any (· ∈ devices))
  | .createSession ctx _ _ => ctx.renewal && ctx.deviceId.any (· ∈ devices)
  | _ => false

/-- A revocation finds no sign-in of a session or device that it ends between its read and its write.  A renewal from
a device that was signed out holds no token of a session that is signed in, and some session of the device was
used within `SESSION_IDLE_DAYS`. -/
def World.careful (w : World) : Move → Bool
  | .begin (.openSession ctx _) _ now =>
      !w.isOut x now ctx ||
        (ctx.currentToken.bind fun hash => w.rows.find? fun r => r.tokenHash = hash).all fun r => r.revokedAt.isSome
  | .goOn (.findDeviceSession ctx _ idle) t =>
      !w.isOut x t.now ctx || w.rows.any fun r => r.deviceId = ctx.deviceId && idle < r.lastUsedAt
  | .goOn (.revokeSessionIds ids ended) _ =>
      w.calls.all fun c => !c.isBetween ((endedRows w.rows ids).map Row.id) (if ended then signedOutDevices w.rows ids else [])
  | _ => true

/-! ### Since when a device is signed out -/

/-- The sign-in that a call is about to complete. -/
def Call.signIn : Call → Option SignInContext
  | .continueSession ctx _ _ _ | .createSession ctx _ _ => some ctx
  | _ => none

variable {x} {w w' : World} {d : String} {log : List Event}

@[simp] theorem signedOutAt_token {id : String} : signedOutAt d (.token id :: log) = signedOutAt d log := rfl

/-- A sign-in can only end that a device is signed out. -/
theorem signedOutAt_signIn {ctx : SignInContext} {id : String} {now revokedAt : Time}
    (h : signedOutAt d (signInEvents ctx id now ++ log) = some revokedAt) :
    signedOutAt d log = some revokedAt ∧ (ctx.deviceId = some d → ctx.renewal = true) := by
  cases hd : ctx.deviceId with
  | none => simpa [signInEvents, hd] using h
  | some d' =>
      by_cases hr : ctx.renewal = true
      · simpa [signInEvents, hd, hr, signedOutAt] using h
      · simp only [signInEvents, hd, hr, Option.map_some, Bool.false_eq_true, if_false, Option.toList_some,
          List.cons_append, List.nil_append, signedOutAt] at h
        obtain ⟨hne, hlog⟩ := Option.ite_none_left_eq_some.mp h
        exact ⟨hlog, fun heq => absurd (Option.some.inj heq) hne⟩

/-- Revocations say of no device that it is signed out. -/
theorem signedOutAt_revoked {rows : List Row} : signedOutAt d (rows.map (.revoked ·.id) ++ log) = signedOutAt d log := by
  induction rows with
  | nil => rfl
  | cons r rows ih => exact ih

theorem signedOutAt_devices {devices : List String} {revokedAt : Time} :
    signedOutAt d (devices.map (.signedOut · revokedAt) ++ log) =
      if d ∈ devices then some revokedAt else signedOutAt d log := by
  induction devices with
  | nil => simp
  | cons d' devices ih =>
      by_cases h : d' = d
      · simp [signedOutAt, h]
      · simp only [List.map_cons, List.cons_append, signedOutAt, h, if_false, ih, List.mem_cons, Ne.symm h, false_or]

/-! ### What every careful step keeps -/

/-- **The invariant of careful runs.** -/
structure Kept (x : Config) (w : World) : Prop where
  backed : Backed (Event.Holds x) w.log
  nodup : (w.rows.map Row.id).Nodup
  known : ∀ r ∈ w.rows, r.id ∈ w.ids
  named : ∀ id, .revoked id ∈ w.log → id ∈ w.ids
  revoked : ∀ r ∈ w.rows, .revoked r.id ∈ w.log → r.revokedAt.isSome = true
  /-- A device signed out has no session that is signed in. -/
  out : ∀ d revokedAt, signedOutAt d w.log = some revokedAt → w.clock < revokedAt + x.idle →
    ∀ r ∈ w.rows, r.deviceId = some d → r.revokedAt.isSome = true
  /-- A session about to be continued is signed in. -/
  continuing : ∀ ctx token id seen, .continueSession ctx token id seen ∈ w.calls →
    id ∈ w.ids ∧ ∀ r ∈ w.rows, r.id = id → r.revokedAt = none
  /-- A device about to renew is not signed out, or was long ago. -/
  renewing : ∀ c ∈ w.calls, ∀ ctx, c.signIn = some ctx → ctx.renewal = true → ∀ d, ctx.deviceId = some d →
    ∀ revokedAt, signedOutAt d w.log = some revokedAt → revokedAt + x.idle ≤ w.clock

theorem kept_empty : Kept x .empty where
  backed := trivial
  nodup := List.nodup_nil
  known := nofun
  named := nofun
  revoked := nofun
  out := nofun
  continuing := nofun
  renewing := nofun

/-- Time passes. -/
theorem Kept.tick (h : Kept x w) {now : Time} (hnow : w.clock ≤ now) : Kept x { w with clock := now } :=
  { h with
    out := fun d revokedAt hout hlt => h.out d revokedAt hout (Nat.lt_of_le_of_lt hnow hlt)
    renewing := fun c hc ctx hctx hr d hd revokedAt hout => Nat.le_trans (h.renewing c hc ctx hctx hr d hd revokedAt hout) hnow }

/-- Fewer calls are under way. -/
theorem Kept.erase (h : Kept x w) (c : Call) : Kept x { w with calls := w.calls.erase c } :=
  { h with
    continuing := fun ctx token id seen hmem => h.continuing ctx token id seen (List.mem_of_mem_erase hmem)
    renewing := fun c hc => h.renewing c (List.mem_of_mem_erase hc) }

/-- A call that is no sign-in. -/
theorem Kept.call (h : Kept x w) {c : Call} (hc : c.signIn = none) : Kept x (w.call c) :=
  { h with
    continuing := fun ctx token id seen hmem => (List.mem_cons.mp hmem).elim
      (fun heq => by rw [← heq] at hc; cases hc) (h.continuing ctx token id seen)
    renewing := fun c' hc' ctx hctx => (List.mem_cons.mp hc').elim
      (fun heq => by rw [heq, hc] at hctx; cases hctx) fun hold => h.renewing c' hold ctx hctx }

/-- A sign-in whose device is not signed out, or a session of whose is found that is. -/
theorem Kept.decideSession (h : Kept x w) {ctx : SignInContext} {token : RefreshToken} {now : Time}
    {found : Option Row} (hfound : ∀ r, found = some r → r ∈ w.rows)
    (hout : ctx.renewal = true → ∀ d, ctx.deviceId = some d → ∀ revokedAt, signedOutAt d w.log = some revokedAt →
      w.clock < revokedAt + x.idle → ∃ r, found = some r ∧ r.revokedAt.isSome = true) :
    Kept x (w.decideSession ctx token now found) := by
  have hcreate (hnone : ctx.renewal = true → ¬ ∃ r, found = some r ∧ r.revokedAt.isSome = true) :
      Kept x (w.call (.createSession ctx token now)) :=
    { h with
      continuing := fun ctx' token' id seen hmem => (List.mem_cons.mp hmem).elim nofun (h.continuing ctx' token' id seen)
      renewing := fun c hc ctx' hctx hr d hd revokedAt hsome => by
        rcases List.mem_cons.mp hc with rfl | hold
        · cases hctx
          by_contra hlt
          exact hnone hr (hout hr d hd revokedAt hsome (Nat.not_le.mp hlt))
        · exact h.renewing c hold ctx' hctx hr d hd revokedAt hsome }
  cases found with
  | none => exact hcreate fun _ ⟨_, hsome, _⟩ => nomatch hsome
  | some r =>
      simp only [World.decideSession]
      split
      case isTrue hrevoked =>
        split
        case isTrue => exact h
        case isFalse hr => exact hcreate fun hrenewal => absurd hrenewal hr
      case isFalse hsigned =>
        have hmem := hfound r rfl
        exact
          { h with
            continuing := fun ctx' token' id seen hcall => by
              rcases List.mem_cons.mp hcall with heq | hold
              · cases heq
                refine ⟨h.known r hmem, fun r' hr' hid => ?_⟩
                obtain rfl := List.inj_on_of_nodup_map h.nodup hr' hmem hid
                simpa using hsigned
              · exact h.continuing ctx' token' id seen hold
            renewing := fun c hc ctx' hctx hr d hd revokedAt hsome => by
              rcases List.mem_cons.mp hc with rfl | hold
              · cases hctx
                by_contra hlt
                obtain ⟨r', heq, hrevoked⟩ := hout hr d hd revokedAt hsome (Nat.not_le.mp hlt)
                cases heq
                exact hsigned hrevoked
              · exact h.renewing c hold ctx' hctx hr d hd revokedAt hsome }

/-- Rows are removed. -/
theorem Kept.filter (h : Kept x w) (keep : Row → Bool) : Kept x { w with rows := w.rows.filter keep } :=
  { h with
    nodup := h.nodup.sublist (List.filter_sublist.map _)
    known := fun r hr => h.known r (List.mem_of_mem_filter hr)
    revoked := fun r hr => h.revoked r (List.mem_of_mem_filter hr)
    out := fun d revokedAt hout hlt r hr => h.out d revokedAt hout hlt r (List.mem_of_mem_filter hr)
    continuing := fun ctx token id seen hmem =>
      ⟨(h.continuing ctx token id seen hmem).1, fun r hr =>
        (h.continuing ctx token id seen hmem).2 r (List.mem_of_mem_filter hr)⟩ }

theorem World.isOut_of_signedOutAt {ctx : SignInContext} {now revokedAt : Time} (hr : ctx.renewal = true)
    (hd : ctx.deviceId = some d) (hout : signedOutAt d w.log = some revokedAt) (hlt : now < revokedAt + x.idle) :
    w.isOut x now ctx = true := by
  rw [World.isOut, hr, hd, Bool.true_and, Option.any_some, hout, Option.any_some]
  exact decide_eq_true hlt

theorem Kept.begin (h : Kept x w) {earlier now : Time} (hnow : w.clock ≤ now) {request : Request}
    (hcareful : w.careful x (.begin request earlier now) = true) :
    Kept x ({ w with clock := now }.begin x earlier now request) := by
  have ht := h.tick hnow
  cases request with
  | openSession ctx tokenHash =>
      simp only [World.begin]
      split
      case h_1 held hheld =>
        refine ht.decideSession (fun r hr => ?_) fun hr d hd revokedAt hout hlt => ⟨held, rfl, ?_⟩
        · cases hr
          obtain ⟨hash, -, hfind⟩ := Option.bind_eq_some_iff.mp hheld
          exact List.mem_of_find?_eq_some hfind
        · have hisOut : w.isOut x now ctx = true := World.isOut_of_signedOutAt hr hd hout hlt
          simpa [World.careful, hisOut, hheld] using hcareful
      case h_2 => exact ht.call rfl
  | rotateSession tokenHash ctx =>
      simp only [World.begin]
      split
      · split
        · exact ht
        · exact ht.call rfl
      · exact ht
  | revokeSession sid =>
      simp only [World.begin]
      split
      · exact ht.call rfl
      · exact ht
  | revokeSessions keepSid =>
      simp only [World.begin]
      split
      · exact ht
      · exact ht.call rfl
  | endSessionOfToken tokenHash =>
      simp only [World.begin]
      split
      · split
        · exact ht
        · exact ht.call rfl
      · exact ht
  | cleanupSessions => exact ht.filter _

/-! ### Tokens are written -/

/-- The row's device is not signed out, or was long ago. -/
def Row.Free (x : Config) (now : Time) (log : List Event) (r : Row) : Prop :=
  ∀ d revokedAt, r.deviceId = some d → signedOutAt d log = some revokedAt → revokedAt + x.idle ≤ now

/-- Rows are written that are as revoked as before, or new. -/
theorem Kept.write (h : Kept x w) {rows : List Row} {ids : List String} {news : List Event}
    (hbacked : Backed (Event.Holds x) (news ++ w.log)) (hnews : ∀ id, .revoked id ∉ news)
    (hout : ∀ d revokedAt, signedOutAt d (news ++ w.log) = some revokedAt → signedOutAt d w.log = some revokedAt)
    (hids : ∀ id ∈ w.ids, id ∈ ids) (hnodup : (rows.map Row.id).Nodup) (hknown : ∀ r ∈ rows, r.id ∈ ids)
    (hrows : ∀ r' ∈ rows,
      (∃ r ∈ w.rows, r.id = r'.id ∧ r.revokedAt = r'.revokedAt ∧
        (r.deviceId = r'.deviceId ∨ r'.Free x w.clock (news ++ w.log))) ∨
      (r'.id ∉ w.ids ∧ r'.Free x w.clock (news ++ w.log))) :
    Kept x { w with rows := rows, log := news ++ w.log, ids := ids } := by
  have hold {id : String} (hmem : .revoked id ∈ news ++ w.log) : .revoked id ∈ w.log :=
    (List.mem_append.mp hmem).resolve_left (hnews id)
  exact
    { backed := hbacked
      nodup := hnodup
      known := hknown
      named := fun id hmem => hids id (h.named id (hold hmem))
      revoked := fun r' hr' hmem => by
        rcases hrows r' hr' with ⟨r, hr, hid, hrevoked, -⟩ | ⟨hnew, -⟩
        · rw [← hrevoked]
          exact h.revoked r hr (by rw [hid]; exact hold hmem)
        · exact absurd (h.named _ (hold hmem)) hnew
      out := fun d revokedAt hd hlt r' hr' hdevice => by
        rcases hrows r' hr' with ⟨r, hr, hid, hrevoked, hsame | hfree⟩ | ⟨-, hfree⟩
        · rw [← hrevoked]
          exact h.out d revokedAt (hout d revokedAt hd) hlt r hr (hsame.trans hdevice)
        · exact absurd hlt (Nat.not_lt.mpr (hfree d revokedAt hdevice hd))
        · exact absurd hlt (Nat.not_lt.mpr (hfree d revokedAt hdevice hd))
      continuing := fun ctx token id seen hmem => by
        obtain ⟨hin, hsigned⟩ := h.continuing ctx token id seen hmem
        refine ⟨hids id hin, fun r' hr' hid' => ?_⟩
        rcases hrows r' hr' with ⟨r, hr, hid, hrevoked, -⟩ | ⟨hnew, -⟩
        · rw [← hrevoked]
          exact hsigned r hr (hid.trans hid')
        · exact absurd (hid' ▸ hin) hnew
      renewing := fun c hc ctx hctx hr d hd revokedAt hsome =>
        h.renewing c hc ctx hctx hr d hd revokedAt (hout d revokedAt hsome) }

/-- A sign-in's events are backed: its row is not revoked, and its device is free to renew. -/
theorem backed_signIn {ctx : SignInContext} {id : String} {now : Time} (h : Backed (Event.Holds x) log)
    (hid : .revoked id ∉ log)
    (hfree : ctx.renewal = true → ∀ d, ctx.deviceId = some d → ∀ revokedAt, signedOutAt d log = some revokedAt →
      revokedAt + x.idle ≤ now) : Backed (Event.Holds x) (signInEvents ctx id now ++ log) := by
  have htoken : Backed (Event.Holds x) (.token id :: log) := ⟨hid, h⟩
  cases hd : ctx.deviceId with
  | none => simpa [signInEvents, hd] using htoken
  | some d =>
      by_cases hr : ctx.renewal = true
      · simp only [signInEvents, hd, hr, Option.map_some, if_true]
        exact ⟨fun revokedAt hout => hfree hr d hd revokedAt hout, htoken⟩
      · simp only [signInEvents, hd, hr, Option.map_some, Bool.false_eq_true, if_false]
        exact ⟨trivial, htoken⟩

theorem revoked_notMem_signInEvents {ctx : SignInContext} {id id' : String} {now : Time} :
    .revoked id' ∉ signInEvents ctx id now := by
  cases hd : ctx.deviceId with
  | none => simp [signInEvents, hd]
  | some d => cases hr : ctx.renewal <;> simp [signInEvents, hd, hr]

theorem map_id_updateRow {data : Row → Row} (hdata : ∀ r, (data r).id = r.id) (rows : List Row) (id : String) :
    (updateRow rows id data).map Row.id = rows.map Row.id := by
  rw [updateRow, List.map_map]
  refine List.map_congr_left fun r _ => ?_
  simp only [Function.comp_apply]
  split
  · exact hdata r
  · rfl

/-- A row that is signed in gets a token. -/
theorem Kept.update (h : Kept x w) {id : String} {data : Row → Row} {news : List Event}
    (hdata : ∀ r, (data r).id = r.id ∧ (data r).revokedAt = r.revokedAt)
    (hbacked : Backed (Event.Holds x) (news ++ w.log)) (hnews : ∀ id, .revoked id ∉ news)
    (hout : ∀ d revokedAt, signedOutAt d (news ++ w.log) = some revokedAt → signedOutAt d w.log = some revokedAt)
    (hdevice : ∀ r, r.deviceId = (data r).deviceId ∨ (data r).Free x w.clock (news ++ w.log)) :
    Kept x { w with rows := updateRow w.rows id data, log := news ++ w.log } := by
  have hids := map_id_updateRow (fun r => (hdata r).1) w.rows id
  refine h.write hbacked hnews hout (fun _ hmem => hmem) (by rw [hids]; exact h.nodup) (fun r' hr' => ?_) fun r' hr' => .inl ?_
  · obtain ⟨r, hr, hid⟩ := List.mem_map.mp (hids ▸ List.mem_map_of_mem hr' : r'.id ∈ w.rows.map Row.id)
    exact hid ▸ h.known r hr
  · obtain ⟨r, hr, rfl⟩ := List.mem_map.mp hr'
    refine ⟨r, hr, ?_⟩
    split
    · exact ⟨(hdata r).1.symm, (hdata r).2.symm, hdevice r⟩
    · exact ⟨rfl, rfl, .inl rfl⟩

/-- A row that is signed in was not revoked. -/
theorem Kept.notRevoked (h : Kept x w) {r : Row} (hr : r ∈ w.rows) (hsigned : r.revokedAt = none) :
    .revoked r.id ∉ w.log := fun hmem => by
  have hrevoked := h.revoked r hr hmem
  rw [hsigned] at hrevoked
  cases hrevoked

theorem Kept.continueSession (h : Kept x w) {ctx : SignInContext} {token : RefreshToken} {id : String} {seen : Time}
    {t : Reading} (hclock : w.clock = t.now) (hsigned : ∀ r ∈ w.rows, r.id = id → r.revokedAt = none)
    (hfree : ctx.renewal = true → ∀ d, ctx.deviceId = some d → ∀ revokedAt, signedOutAt d w.log = some revokedAt →
      revokedAt + x.idle ≤ w.clock) : Kept x (w.goOn x t (.continueSession ctx token id seen)) := by
  simp only [World.goOn]
  split
  case isFalse => exact h
  case isTrue hany =>
    obtain ⟨stored, hstored, hid⟩ := List.any_eq_true.mp hany
    obtain rfl : stored.id = id := by simpa using hid
    have hnotRevoked := h.notRevoked hstored (hsigned stored hstored rfl)
    have hbacked := backed_signIn h.backed hnotRevoked (hclock ▸ hfree)
    refine h.update (fun r => ⟨rfl, rfl⟩) hbacked (fun _ => revoked_notMem_signInEvents)
      (fun d revokedAt hout => (signedOutAt_signIn hout).1) fun r => ?_
    cases hdevice : ctx.deviceId with
    | none => exact .inl (by simp [continuedRow, hdevice])
    | some d =>
        refine .inr fun d' revokedAt hd' hout => ?_
        obtain rfl : d = d' := by simpa [continuedRow, hdevice] using hd'
        obtain ⟨hlog, hrenewal⟩ := signedOutAt_signIn hout
        exact hfree (hrenewal hdevice) d hdevice revokedAt hlog

theorem Kept.createSession (h : Kept x w) {ctx : SignInContext} {token : RefreshToken} {seen : Time}
    {t : Reading} (hclock : w.clock = t.now) (hnew : t.id ∉ w.ids)
    (hfree : ctx.renewal = true → ∀ d, ctx.deviceId = some d → ∀ revokedAt, signedOutAt d w.log = some revokedAt →
      revokedAt + x.idle ≤ w.clock) : Kept x (w.goOn x t (.createSession ctx token seen)) := by
  have hnotIn : t.id ∉ w.rows.map Row.id := fun hmem => by
    obtain ⟨r, hr, hid⟩ := List.mem_map.mp hmem
    exact hnew (hid ▸ h.known r hr)
  have hbacked := backed_signIn h.backed (fun hmem => hnew (h.named _ hmem)) (hclock ▸ hfree)
  refine Kept.call (h.write hbacked (fun _ => revoked_notMem_signInEvents)
    (fun d revokedAt hout => (signedOutAt_signIn hout).1) (fun _ => List.mem_cons_of_mem t.id) ?_ (fun r' hr' => ?_)
    fun r' hr' => ?_) (c := .trimSessions) rfl
  · rw [List.map_append, List.map_singleton]
    exact h.nodup.append (List.nodup_singleton _) (List.disjoint_singleton.mpr hnotIn)
  · rcases List.mem_append.mp hr' with hold | hone
    · exact List.mem_cons_of_mem _ (h.known r' hold)
    · rw [List.mem_singleton.mp hone]
      exact List.mem_cons_self
  · rcases List.mem_append.mp hr' with hold | hone
    · exact .inl ⟨r', hold, rfl, rfl, .inl rfl⟩
    · rw [List.mem_singleton.mp hone]
      refine .inr ⟨hnew, fun d revokedAt hd hout => ?_⟩
      obtain ⟨hlog, hrenewal⟩ := signedOutAt_signIn hout
      exact hfree (hrenewal hd) d hd revokedAt hlog

theorem Kept.rotateSession (h : Kept x w) {ctx : SignInContext} {id tokenHash : String} {t : Reading}
    (hclock : w.clock = t.now) : Kept x (w.goOn x t (.rotateSession ctx id tokenHash)) := by
  simp only [World.goOn]
  split
  case h_2 => exact h
  case h_1 stored hfind =>
    have hstored := List.mem_of_find?_eq_some hfind
    have hwhere := List.find?_some hfind
    simp only [Bool.and_eq_true, decide_eq_true_eq] at hwhere
    obtain ⟨⟨rfl, -⟩, hsigned⟩ := hwhere
    have htoken : Backed (Event.Holds x) (.token stored.id :: w.log) := ⟨h.notRevoked hstored hsigned, h.backed⟩
    refine h.update (fun r => ⟨rfl, rfl⟩) ?_ ?_ ?_ fun r => .inl rfl
    · cases hd : stored.deviceId with
      | none => simpa [rotationEvents, hd] using htoken
      | some d =>
          simp only [rotationEvents, hd, Option.map_some]
          refine ⟨fun revokedAt hout => ?_, htoken⟩
          by_contra hlt
          have hrevoked := h.out d revokedAt hout (by rw [hclock]; exact Nat.not_le.mp hlt) stored hstored hd
          rw [hsigned] at hrevoked
          cases hrevoked
    · cases hd : stored.deviceId <;> simp [rotationEvents, hd]
    · cases hd : stored.deviceId <;> simp [rotationEvents, hd, signedOutAt]

/-! ### Sessions are revoked -/

theorem mem_endedRows {rows : List Row} {ids : List String} {r : Row} :
    r ∈ endedRows rows ids ↔ r ∈ rows ∧ r.id ∈ ids ∧ r.revokedAt = none := by
  simp [endedRows]

theorem mem_revokeRows {rows : List Row} {ids : List String} {revokedAt : Time} {r' : Row}
    (h : r' ∈ revokeRows rows ids revokedAt) : ∃ r ∈ rows, r'.id = r.id ∧ r'.deviceId = r.deviceId ∧
      (r.revokedAt.isSome = true ∨ r.id ∈ ids → r'.revokedAt.isSome = true) ∧
      (r ∉ endedRows rows ids → r'.revokedAt = r.revokedAt) := by
  obtain ⟨r, hr, rfl⟩ := List.mem_map.mp h
  refine ⟨r, hr, ?_⟩
  split
  case isTrue hwhere =>
    simp only [Bool.and_eq_true, decide_eq_true_eq] at hwhere
    exact ⟨rfl, rfl, fun _ => rfl, fun hnot => absurd (mem_endedRows.mpr ⟨hr, hwhere⟩) hnot⟩
  case isFalse hwhere =>
    simp only [Bool.and_eq_true, decide_eq_true_eq, not_and] at hwhere
    refine ⟨rfl, rfl, fun hor => ?_, fun _ => rfl⟩
    rcases hor with hsome | hin
    · exact hsome
    · exact Option.isSome_iff_ne_none.mpr (hwhere hin)

theorem map_id_revokeRows {rows : List Row} {ids : List String} {revokedAt : Time} :
    (revokeRows rows ids revokedAt).map Row.id = rows.map Row.id := by
  rw [revokeRows, List.map_map]
  refine List.map_congr_left fun r _ => ?_
  simp only [Function.comp_apply]
  split <;> rfl

theorem mem_signedOutDevices {rows : List Row} {ids : List String} (h : d ∈ signedOutDevices rows ids) {r : Row}
    (hr : r ∈ rows) (hd : r.deviceId = some d) : r.revokedAt.isSome = true ∨ r.id ∈ ids := by
  have hall := List.all_eq_true.mp (List.mem_filter.mp h).2 r hr
  simpa [hd] using hall

/-- What the revocation may not find under way. -/
theorem Call.of_not_isBetween {c : Call} {ids devices : List String} (h : c.isBetween ids devices = false)
    {ctx : SignInContext} (hctx : c.signIn = some ctx) (hr : ctx.renewal = true) (hd : ctx.deviceId = some d) :
    d ∉ devices := by
  cases c with
  | continueSession ctx' token id seen =>
      cases hctx
      simp only [Call.isBetween, hr, hd, Bool.true_and, Option.any_some, Bool.or_eq_false_iff, decide_eq_false_iff_not] at h
      exact h.2
  | createSession ctx' token seen =>
      cases hctx
      simpa [Call.isBetween, hr, hd] using h
  | findDeviceSession | trimSessions | rotateSession | revokeSessionIds => cases hctx

theorem Kept.revokeSessionIds (h : Kept x w) {ids : List String} {ended : Bool} {t : Reading}
    (hbetween : ∀ c ∈ w.calls, c.isBetween ((endedRows w.rows ids).map Row.id)
      (if ended then signedOutDevices w.rows ids else []) = false) :
    Kept x (w.goOn x t (.revokeSessionIds ids ended)) := by
  have hdevices : ∀ d revokedAt, signedOutAt d
      ((if ended then (signedOutDevices w.rows ids).map (.signedOut · t.earlier) else []) ++
        ((endedRows w.rows ids).map (.revoked ·.id) ++ w.log)) = some revokedAt →
      d ∈ (if ended then signedOutDevices w.rows ids else []) ∨ signedOutAt d w.log = some revokedAt := by
    intro d revokedAt hout
    cases ended with
    | false => exact .inr (by simpa [signedOutAt_revoked] using hout)
    | true =>
        rw [if_pos rfl, signedOutAt_devices, signedOutAt_revoked] at hout
        split at hout
        · exact .inl ‹_›
        · exact .inr hout
  have hlog : ∀ id, .revoked id ∈ (if ended then (signedOutDevices w.rows ids).map (.signedOut · t.earlier) else []) ++
      ((endedRows w.rows ids).map (.revoked ·.id) ++ w.log) →
      (∃ r ∈ endedRows w.rows ids, r.id = id) ∨ .revoked id ∈ w.log := by
    intro id hmem
    cases ended <;> simpa using hmem
  exact
    { backed := by
        refine (h.backed.append (fun e he earlier => ?_)).append fun e he earlier => ?_
        · obtain ⟨r, -, rfl⟩ := List.mem_map.mp he
          trivial
        · cases ended with
          | false => cases he
          | true =>
              obtain ⟨d, -, rfl⟩ := List.mem_map.mp he
              trivial
      nodup := by
        rw [World.goOn, map_id_revokeRows]
        exact h.nodup
      known := fun r' hr' => by
        obtain ⟨r, hr, hid, -⟩ := mem_revokeRows hr'
        exact hid ▸ h.known r hr
      named := fun id hmem => by
        rcases hlog id hmem with ⟨r, hr, rfl⟩ | hold
        · exact h.known r (mem_endedRows.mp hr).1
        · exact h.named id hold
      revoked := fun r' hr' hmem => by
        obtain ⟨r, hr, hid, -, hrevoked, -⟩ := mem_revokeRows hr'
        rcases hlog _ hmem with ⟨r₀, hr₀, hid₀⟩ | hold
        · exact hrevoked (.inr (hid ▸ hid₀ ▸ (mem_endedRows.mp hr₀).2.1))
        · exact hrevoked (.inl (h.revoked r hr (hid ▸ hold)))
      out := fun d revokedAt hout hlt r' hr' hd => by
        obtain ⟨r, hr, -, hdevice, hrevoked, -⟩ := mem_revokeRows hr'
        rcases hdevices d revokedAt hout with hin | hold
        · cases ended with
          | false => cases hin
          | true => exact hrevoked (mem_signedOutDevices hin hr (hdevice ▸ hd))
        · exact hrevoked (.inl (h.out d revokedAt hold hlt r hr (hdevice ▸ hd)))
      continuing := fun ctx token id seen hmem => by
        obtain ⟨hin, hsigned⟩ := h.continuing ctx token id seen hmem
        refine ⟨hin, fun r' hr' hid' => ?_⟩
        obtain ⟨r, hr, hid, -, -, hsame⟩ := mem_revokeRows hr'
        have hnot := hbetween _ hmem
        simp only [Call.isBetween, Bool.or_eq_false_iff, decide_eq_false_iff_not] at hnot
        rw [hsame fun hended => hnot.1 (hid' ▸ hid ▸ List.mem_map_of_mem hended)]
        exact hsigned r hr (hid ▸ hid')
      renewing := fun c hc ctx hctx hr d hd revokedAt hout => by
        rcases hdevices d revokedAt hout with hin | hold
        · exact absurd hin (Call.of_not_isBetween (hbetween c hc) hctx hr hd)
        · exact h.renewing c hc ctx hctx hr d hd revokedAt hold }

theorem mem_candidates {rows : List Row} {ctx : SignInContext} {idle : Time} {r : Row} (h : r ∈ candidates rows ctx idle) :
    r ∈ rows ∧ ∀ d, ctx.deviceId = some d → r.deviceId = some d := by
  cases hd : ctx.deviceId with
  | none =>
      rw [candidates, hd] at h
      exact ⟨(List.mem_filter.mp h).1, nofun⟩
  | some d =>
      rw [candidates, hd] at h
      obtain ⟨hr, hwhere⟩ := List.mem_filter.mp h
      rw [Bool.and_eq_true, decide_eq_true_eq] at hwhere
      exact ⟨hr, fun d' hd' => hd' ▸ hwhere.1⟩

theorem mem_of_isLatest {rows : List Row} {found : Option Row} (h : isLatest rows found = true) {r : Row}
    (hr : found = some r) : r ∈ rows := by
  subst hr
  rw [isLatest, Bool.and_eq_true, decide_eq_true_eq] at h
  exact h.1

theorem Kept.findDeviceSession (h : Kept x w) {ctx : SignInContext} {token : RefreshToken} {idle : Time} {t : Reading}
    (hclock : w.clock = t.now) (hfound : isLatest (candidates w.rows ctx idle) t.found = true)
    (hseen : w.isOut x t.now ctx = true → ∃ r ∈ w.rows, r.deviceId = ctx.deviceId ∧ idle < r.lastUsedAt) :
    Kept x (w.goOn x t (.findDeviceSession ctx token idle)) := by
  refine h.decideSession (fun r hr => (mem_candidates (mem_of_isLatest hfound hr)).1) fun hr d hd revokedAt hout hlt => ?_
  obtain ⟨r, hmem, hdevice, hused⟩ := hseen (World.isOut_of_signedOutAt hr hd hout (hclock ▸ hlt))
  have hcandidate : r ∈ candidates w.rows ctx idle := by
    rw [candidates, hd]
    exact List.mem_filter.mpr ⟨hmem, by simp [hdevice, hd, hused]⟩
  cases hf : t.found with
  | none =>
      rw [hf, isLatest, List.isEmpty_iff] at hfound
      rw [hfound] at hcandidate
      cases hcandidate
  | some r' =>
      obtain ⟨hr', hdevice'⟩ := mem_candidates (mem_of_isLatest hfound hf)
      exact ⟨r', rfl, h.out d revokedAt hout hlt r' hr' (hdevice' d hd)⟩

theorem Kept.goOn (h : Kept x w) {c : Call} {t : Reading} (hc : c ∈ w.calls) (hclock : w.clock ≤ t.now)
    (hallows : w.allows t c = true) (hcareful : w.careful x (.goOn c t) = true) :
    Kept x ({ w with calls := w.calls.erase c, clock := t.now }.goOn x t c) := by
  have hk := (h.erase c).tick hclock
  have hfree : ∀ ctx, c.signIn = some ctx → ctx.renewal = true → ∀ d, ctx.deviceId = some d →
      ∀ revokedAt, signedOutAt d w.log = some revokedAt → revokedAt + x.idle ≤ t.now :=
    fun ctx hctx hr d hd revokedAt hout => Nat.le_trans (h.renewing c hc ctx hctx hr d hd revokedAt hout) hclock
  cases c with
  | findDeviceSession ctx token idle =>
      refine hk.findDeviceSession rfl hallows fun hisOut => ?_
      have hisOut : w.isOut x t.now ctx = true := hisOut
      rw [World.careful, hisOut, Bool.not_true, Bool.false_or] at hcareful
      obtain ⟨r, hr, hwhere⟩ := List.any_eq_true.mp hcareful
      rw [Bool.and_eq_true, decide_eq_true_eq, decide_eq_true_eq] at hwhere
      exact ⟨r, hr, hwhere⟩
  | continueSession ctx token id seen =>
      exact hk.continueSession rfl (h.continuing ctx token id seen hc).2 (hfree ctx rfl)
  | createSession ctx token seen => exact hk.createSession rfl (of_decide_eq_true hallows) (hfree ctx rfl)
  | trimSessions =>
      simp only [World.goOn]
      split
      · exact hk
      · exact hk.call rfl
  | rotateSession ctx id tokenHash => exact hk.rotateSession rfl
  | revokeSessionIds ids ended =>
      refine hk.revokeSessionIds fun c' hc' => ?_
      have hall := List.all_eq_true.mp hcareful c' (List.mem_of_mem_erase hc')
      simpa using hall

theorem Kept.step {m : Move} (h : Kept x w) (hcareful : w.careful x m = true) (hstep : w.step x m = some w') : Kept x w' := by
  cases m with
  | begin request earlier now =>
      obtain ⟨hnow, heq⟩ := Option.ite_none_right_eq_some.mp hstep
      cases heq
      rw [Bool.and_eq_true, decide_eq_true_eq] at hnow
      exact h.begin hnow.1 hcareful
  | goOn call t =>
      obtain ⟨hcond, heq⟩ := Option.ite_none_right_eq_some.mp hstep
      cases heq
      simp only [Bool.and_eq_true, decide_eq_true_eq] at hcond
      obtain ⟨⟨⟨hc, hclock⟩, -⟩, hallows⟩ := hcond
      exact h.goOn hc hclock hallows hcareful
  | giveUp call =>
      obtain ⟨-, heq⟩ := Option.ite_none_right_eq_some.mp hstep
      cases heq
      exact h.erase call

/-! ### A signed-out device stays signed out -/

/-- **A device that was signed out neither renews its sign-in nor rotates a token for `SESSION_IDLE_DAYS`, until the
person signs in on it, and a revoked row gets no token**, in every careful run. -/
theorem signed_out_stays_out {moves : List Move} (hrun : run (World.step x) .empty moves = some w)
    (hcareful : Meets (World.step x) (fun w m => w.careful x m = true) .empty moves) :
    Backed (Event.Holds x) w.log :=
  (run_invariant_of_meets (P := Kept x) (fun _ _ _ => Kept.step) kept_empty hcareful hrun).backed

/-- A day without use, tokens of two hours, two devices. -/
def shortSessions : Config := ⟨1, 2, 2⟩

def phone : DeviceInfo := ⟨"app", "ios", ""⟩

/-- The device's sign-ins. -/
def onPhone (currentToken : Option String) (renewal : Bool) : SignInContext := ⟨phone, some "D", currentToken, renewal⟩

/-- The person signs in on the device, at a time. -/
def signIn (now : Time) : List Move :=
  let token : RefreshToken := ⟨"hash:1", now + 2 * 60 * 60 * 1000⟩
  let ctx := onPhone none false
  [.begin (.openSession ctx "hash:1") now now,
    .goOn (.findDeviceSession ctx token (idleCutoff shortSessions now)) ⟨now, now, none, ⟨"", 0⟩, ""⟩,
    .goOn (.createSession ctx token now) ⟨now, now, none, ⟨"", 0⟩, "sid"⟩,
    .goOn .trimSessions ⟨now, now, none, ⟨"", 0⟩, ""⟩]

/-- The device is signed out from elsewhere, at a time. -/
def signOut (now : Time) : List Move :=
  [.begin (.revokeSession "sid") now now, .goOn (.revokeSessionIds ["sid"] true) ⟨now, now, none, ⟨"", 0⟩, ""⟩]

theorem signed_out_stays_out_refused : ∃ w, run (World.step shortSessions) .empty
    (signIn 1000 ++ signOut 2000 ++ [.begin (.openSession (onPhone (some "hash:1") true) "hash:2") 3000 3000]) = some w ∧
    signedOutAt "D" w.log = some 2000 ∧ w.calls = [] ∧ Backed (Event.Holds shortSessions) w.log := by
  have hgives : (run (World.step shortSessions) .empty
    (signIn 1000 ++ signOut 2000 ++ [.begin (.openSession (onPhone (some "hash:1") true) "hash:2") 3000 3000])).any
      (fun w => signedOutAt "D" w.log = some 2000 && w.calls = []) = true := by decide +kernel
  obtain ⟨w, hrun, hw⟩ := (Option.any_eq_true _ _).mp hgives
  rw [Bool.and_eq_true, decide_eq_true_eq, decide_eq_true_eq] at hw
  exact ⟨w, hrun, hw.1, hw.2, signed_out_stays_out hrun (by decide +kernel)⟩

/-- **A device that was last used long before it was signed out is let in again**: the renewal looks only for sessions
used lately, and finds none. -/
theorem forgotten_revocation : ∃ w, run (World.step shortSessions) .empty
    (signIn 1000 ++ signOut (3 * DAY_MS) ++
      [.begin (.openSession (onPhone none true) "hash:2") (3 * DAY_MS + 1) (3 * DAY_MS + 1),
        .goOn (.findDeviceSession (onPhone none true) ⟨"hash:2", 3 * DAY_MS + 1 + 2 * 60 * 60 * 1000⟩
          (idleCutoff shortSessions (3 * DAY_MS + 1))) ⟨3 * DAY_MS + 1, 0, none, ⟨"", 0⟩, ""⟩,
        .goOn (.createSession (onPhone none true) ⟨"hash:2", 3 * DAY_MS + 1 + 2 * 60 * 60 * 1000⟩ (3 * DAY_MS + 1))
          ⟨3 * DAY_MS + 1, 0, none, ⟨"", 0⟩, "sid2"⟩]) = some w ∧ ¬ Backed (Event.Holds shortSessions) w.log := by
  have hgives : (run (World.step shortSessions) .empty
    (signIn 1000 ++ signOut (3 * DAY_MS) ++
      [.begin (.openSession (onPhone none true) "hash:2") (3 * DAY_MS + 1) (3 * DAY_MS + 1),
        .goOn (.findDeviceSession (onPhone none true) ⟨"hash:2", 3 * DAY_MS + 1 + 2 * 60 * 60 * 1000⟩
          (idleCutoff shortSessions (3 * DAY_MS + 1))) ⟨3 * DAY_MS + 1, 0, none, ⟨"", 0⟩, ""⟩,
        .goOn (.createSession (onPhone none true) ⟨"hash:2", 3 * DAY_MS + 1 + 2 * 60 * 60 * 1000⟩ (3 * DAY_MS + 1))
          ⟨3 * DAY_MS + 1, 0, none, ⟨"", 0⟩, "sid2"⟩])).any (fun w => w.log.take 1 = [.renewed "D" (3 * DAY_MS + 1)] &&
            signedOutAt "D" w.log.tail = some (3 * DAY_MS)) = true := by decide +kernel
  obtain ⟨w, hrun, hw⟩ := (Option.any_eq_true _ _).mp hgives
  rw [Bool.and_eq_true, decide_eq_true_eq, decide_eq_true_eq] at hw
  refine ⟨w, hrun, fun hbacked => ?_⟩
  obtain ⟨earlier, hlog⟩ : ∃ earlier, w.log = .renewed "D" (3 * DAY_MS + 1) :: earlier := by
    cases hl : w.log with
    | nil => simp [hl] at hw
    | cons e earlier => exact ⟨earlier, by simpa [hl] using hw.1⟩
  rw [hlog] at hbacked hw
  have hlong := hbacked.1 _ hw.2
  exact absurd hlong (by decide +kernel)

end Pokyh.Account.Sessions

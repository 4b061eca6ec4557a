import Pokyh.Lib.Counting
import Pokyh.Lib.Json
import Pokyh.Lib.Runs

/-!
# Account — SessionProofs

Whose a WebUntis session is (`webuntis/sessionIdentity.ts`, with the rules of `identity.ts`): WebUntis is asked with the session, by at
most `MAX_IN_FLIGHT` callers at once, and what it has proven is kept for three minutes, or until the session's account signs out.

* `step`: a call starts, WebUntis answers one of its questions, a caller that was woken goes on, a slot is given back, a proof is
  forgotten, or time passes.
* `Queued`, `run_queued`: every run keeps the slots and the queue for them in order; nobody waits without a caller that will wake him.
* `proofs_bounded_and_fresh`: **never more lookups than slots, nobody forgotten, and no proof outlives a sign-out**, in runs in which
  nobody takes a slot that a woken caller is about to take and no lookup proves what was forgotten since it began.
* `seventeen_lookups`: both can happen.
-/

namespace Pokyh.Account.SessionProofs
open Pokyh.Lib

/-- Milliseconds. -/
abbrev Time := ℕ

/-! ### The rules -/

structure UntisSchool where
  loginName : Units
  server : Units
  deriving DecidableEq

/-- A WebUntis session and the account it is said to be of. -/
structure Session where
  school : UntisSchool
  sessionId : Units
  username : Units
  deriving DecidableEq

structure Request where
  session : Session
  expectedTenantId : Option Units
  deriving DecidableEq

inductive IdentityFailure where
  | untis_session_invalid
  | untis_identity_unverified
  | account_mismatch
  | tenant_mismatch
  | webuntis_unavailable
  deriving DecidableEq, Repr

/-- What Unicode and the hash make of a text, and what is read from a bearer token and from the app-data. -/
structure Reader where
  nfkc : Units → Units
  toLowerCase : Units → Units
  sha256 : Units → Units
  jwtClaims : Units → Option Json
  tenantIdOf : Units → Option Units
  extractPersonId : Json → ℕ

/-- A text's value, without the white space around it, if any is left. -/
def textOf : Option Json → Option Units
  | some (.string us) => if trimUnits us = [] then none else some (trimUnits us)
  | _ => none

def appUser (json : Json) : Option Json :=
  Json.orElse ((json.get "data").bind (·.get "user")) (Json.orElse (json.get "user") (Json.orElse (json.get "data") (some json)))

/-- The account's login name, where the app-data gives it. -/
def extractLoginName (json : Json) : Option Units :=
  let u := appUser json
  ((textOf (u.bind (·.get "name"))).or (textOf (u.bind (·.get "loginName")))).or (textOf (u.bind (·.get "userName")))

def NAME_CLAIMS : List String := ["username", "user_name", "userName", "preferred_username", "sub"]

/-- The login name that a bearer token names: the first name-like claim that is not a bare number. -/
def claimedLoginName (claims : Option Json) : Units :=
  (NAME_CLAIMS.findSome? fun key => (textOf (claims.bind (·.get key))).filter fun us => !us.all fun u => (digitOf u).isSome).getD []

/-- `/^[A-Za-z0-9._-]{8,200}$/` -/
def isSessionId (us : Units) : Bool :=
  us.all (fun u => (65 ≤ u && u ≤ 90) || (97 ≤ u && u ≤ 122) || (48 ≤ u && u ≤ 57) || u ∈ [46, 95, 45]) && 8 ≤ us.length && us.length ≤ 200

section
variable (x : Reader)

def normalizedLoginName (us : Units) : Units := x.toLowerCase (trimUnits (x.nfkc us))

/-- Whether a session is `username`'s; what speaks against it, if not. -/
def sessionIdentity (username appLoginName : Units) (claims : Option Json) (tenantId : Units) (expectedTenantId : Option Units) :
    Option IdentityFailure :=
  let expected := trimUnits (expectedTenantId.getD [])
  let tenant := trimUnits tenantId
  if expected ≠ [] ∧ tenant = [] then some .untis_identity_unverified
  else if expected ≠ [] ∧ tenant ≠ expected then some .tenant_mismatch
  else
    let fromAppData := normalizedLoginName x appLoginName
    let named := if fromAppData ≠ [] then fromAppData else normalizedLoginName x (claimedLoginName claims)
    if named = [] then some .untis_identity_unverified
    else if named ≠ normalizedLoginName x username then some .account_mismatch
    else none

def cacheKey (session : Session) : Units :=
  x.sha256 (session.school.server ++ [124] ++ x.toLowerCase session.school.loginName ++ [124] ++
    normalizedLoginName x session.username ++ [124] ++ session.sessionId)

end

/-! ### What WebUntis answers -/

inductive Bearer where
  | ok (token : Units)
  | invalid
  | unavailable
  deriving DecidableEq

/-- What `mintBearer` makes of WebUntis' status and text, or of none. -/
def mintBearer : Option (ℕ × Units) → Bearer
  | none => .unavailable
  | some (status, body) =>
    let text := trimUnits body
    if 500 ≤ status then .unavailable
    else if ¬(200 ≤ status ∧ status ≤ 299) ∨ text.head? = some 60 then .invalid
    else
      let opened := if text.head? = some 34 then text.drop 1 else text
      let bare := if opened.getLast? = some 34 then opened.dropLast else opened
      if bare.count 46 = 2 then .ok bare else .invalid

inductive AppDataLookup where
  | ok (json : Json)
  | expired
  | none
  | timeout

structure VerifiedSession where
  bearer : Units
  appData : Option Json
  personId : ℕ
  tenantId : Units
  /-- When the lookup began that proved it. -/
  began : ℕ

/-- What a call comes to. -/
inductive Outcome where
  | verified (result : VerifiedSession)
  | refused (code : IdentityFailure)
  | thrown

def Outcome.isVerified : Outcome → Bool
  | .verified _ => true
  | _ => false

/-- What the app-data says, with a bearer token, for a request whose lookup began at a step. -/
def verdict (x : Reader) (request : Request) (began : ℕ) (token : Units) (lookup : AppDataLookup) : Outcome :=
  let claims := x.jwtClaims token
  let tenantId := (x.tenantIdOf token).getD []
  let judge (json : Option Json) : Outcome :=
    match sessionIdentity x request.session.username ((json.bind extractLoginName).getD []) claims tenantId request.expectedTenantId with
    | some code => .refused code
    | none => .verified ⟨token, json, (json.map x.extractPersonId).getD 0, tenantId, began⟩
  match lookup with
  | .expired => .refused .untis_session_invalid
  | .ok json => judge (some json)
  | .none => judge none
  | .timeout => if claimedLoginName claims = [] then .refused .webuntis_unavailable else judge none

/-! ### The memory for what is proven -/

/-- Kept values, the one written longest ago first, each with when it ends. -/
abbrev TtlCache := List (Units × VerifiedSession × Time)

def TTL_MS : Time := 3 * 60 * 1000
def MAX_ENTRIES : ℕ := 5000

namespace TtlCache

def get (store : TtlCache) (key : Units) (now : Time) : Option VerifiedSession :=
  (store.find? (·.1 = key)).bind fun e => if now > e.2.2 then none else some e.2.1

def delete (store : TtlCache) (key : Units) : TtlCache := store.filter (·.1 ≠ key)

/-- The oldest ones go until there are few enough. -/
def shrink : TtlCache → TtlCache
  | [] => []
  | e :: rest => if rest.length + 1 > MAX_ENTRIES then shrink rest else e :: rest

def set (store : TtlCache) (key : Units) (value : VerifiedSession) (now : Time) : TtlCache :=
  shrink (delete store key ++ [(key, value, now + TTL_MS)])

end TtlCache

/-! ### Calls -/

def MAX_IN_FLIGHT : ℕ := 16

/-- Where a call stands, with the step at which its lookup began. -/
inductive Stage where
  | waiting
  /-- Told that there is a slot, but not yet on. -/
  | woken
  | bearer (began : ℕ)
  | appData (began : ℕ) (token : Units)
  /-- The lookup has ended; the slot is given back next. -/
  | leaving (outcome : Outcome)
  | done (outcome : Outcome)

namespace Stage

def isWaiting : Stage → Bool
  | .waiting => true
  | _ => false

def isWoken : Stage → Bool
  | .woken => true
  | _ => false

def isLookup : Stage → Bool
  | .bearer _ | .appData _ _ => true
  | _ => false

def isLeaving : Stage → Bool
  | .leaving _ => true
  | _ => false

def holdsSlot (stage : Stage) : Bool := stage.isLookup || stage.isLeaving

end Stage

structure Call where
  request : Request
  started : ℕ
  stage : Stage

/-- Steps are counted; a call is told by its place among all there were. -/
structure State where
  now : Time
  steps : ℕ
  inFlight : ℕ
  waiting : List ℕ
  verified : TtlCache
  calls : List Call
  /-- The keys that were forgotten, each with the step. -/
  forgets : List (Units × ℕ)

def State.start : State := ⟨0, 0, 0, [], [], [], []⟩

inductive Action where
  | verify (request : Request)
  /-- A woken caller goes on. -/
  | resume (i : ℕ)
  | bearer (i : ℕ) (response : Option (ℕ × Units))
  | appData (i : ℕ) (lookup : AppDataLookup)
  /-- What is done with an answer throws. -/
  | throw (i : ℕ)
  /-- The slot is given back, and the next caller that waits for one is woken. -/
  | leave (i : ℕ)
  | forget (session : Session)
  | tick (ms : Time)

namespace State

def call (s : State) (request : Request) (stage : Stage) : State := { s with calls := s.calls ++ [⟨request, s.steps, stage⟩] }

/-- A call goes to another stage. -/
def put (s : State) (i : ℕ) (stage : Stage) : State := { s with calls := s.calls.modify i fun c => { c with stage := stage } }

/-- What a lookup has proven is kept. -/
def keep (s : State) (key : Units) (result : VerifiedSession) : State := { s with verified := s.verified.set key result s.now }

def setInFlight (s : State) (n : ℕ) : State := { s with inFlight := n }

/-- A slot is taken. -/
def enter (s : State) : State := s.setInFlight (s.inFlight + 1)

/-- A slot is given back; the first one that waits is woken. -/
def release (s : State) : State :=
  match s.waiting with
  | [] => s.setInFlight (s.inFlight - 1)
  | j :: rest => { s.setInFlight (s.inFlight - 1) with waiting := rest }.put j .woken

end State

section
variable (x : Reader)

/-- What is known of a session, if it is good for the request. -/
def known (s : State) (request : Request) : Option VerifiedSession :=
  (s.verified.get (cacheKey x request.session) s.now).filter fun result =>
    request.expectedTenantId.getD [] = [] || request.expectedTenantId = some result.tenantId

def verifySessionIdentity (s : State) (request : Request) : State :=
  if isSessionId request.session.sessionId then
    match known x s request with
    | some result => s.call request (.done (.verified result))
    | none =>
      if MAX_IN_FLIGHT ≤ s.inFlight then { s.call request .waiting with waiting := s.waiting ++ [s.calls.length] }
      else (s.call request (.bearer s.steps)).enter
  else s.call request (.done (.refused .untis_session_invalid))

def forgetVerifiedSession (s : State) (session : Session) : State :=
  { s with
    verified := s.verified.delete (cacheKey x session)
    forgets := (cacheKey x session, s.steps) :: s.forgets }

/-- The app-data has come or not; what it proves is kept. -/
def onAppData (s : State) (i : ℕ) (request : Request) (outcome : Outcome) : State :=
  let s := s.put i (.leaving outcome)
  match outcome with
  | .verified result => s.keep (cacheKey x request.session) result
  | _ => s

def onBearer (s : State) (i began : ℕ) : Bearer → State
  | .ok token => s.put i (.appData began token)
  | .invalid => s.put i (.leaving (.refused .untis_session_invalid))
  | .unavailable => s.put i (.leaving (.refused .webuntis_unavailable))

/-- What an action does, if it is possible. -/
def act (s : State) : Action → Option State
  | .verify request => some (verifySessionIdentity x s request)
  | .resume i => s.calls[i]?.bind fun c =>
    match c.stage with
    | .woken => some (s.put i (.bearer s.steps)).enter
    | _ => none
  | .bearer i response => s.calls[i]?.bind fun c =>
    match c.stage with
    | .bearer began => some (onBearer s i began (mintBearer response))
    | _ => none
  | .appData i lookup => s.calls[i]?.bind fun c =>
    match c.stage with
    | .appData began token => some (onAppData x s i c.request (verdict x c.request began token lookup))
    | _ => none
  | .throw i => s.calls[i]?.bind fun c => if c.stage.isLookup then some (s.put i (.leaving .thrown)) else none
  | .leave i => s.calls[i]?.bind fun c =>
    match c.stage with
    | .leaving outcome => some (s.put i (.done outcome)).release
    | _ => none
  | .forget session => some (forgetVerifiedSession x s session)
  | .tick ms => some { s with now := s.now + ms }

/-- One step. -/
def step (s : State) (a : Action) : Option State := (act x s a).map fun t => { t with steps := s.steps + 1 }

end

/-! ### What a step does -/

variable {x : Reader} {s t : State} {a : Action} {i : ℕ} {c : Call} {stage : Stage}

/-- The stages of a lookup that goes on, or ends without a proof. -/
inductive Stage.Follows : Stage → Stage → Prop where
  | token (began : ℕ) (token : Units) : Follows (.bearer began) (.appData began token)
  | ended {stage : Stage} {outcome : Outcome} (h : stage.isLookup = true) (hout : outcome.isVerified = false) : Follows stage (.leaving outcome)

/-- A call finds a slot free. -/
def takesSlot (x : Reader) (s : State) (request : Request) : Bool :=
  isSessionId request.session.sessionId && (known x s request).isNone && s.inFlight < MAX_IN_FLIGHT

/-- All that an action can do. -/
inductive Acts (x : Reader) (s : State) : Action → State → Prop where
  | refused (request : Request) : Acts x s (.verify request) (s.call request (.done (.refused .untis_session_invalid)))
  | answered (request : Request) {result : VerifiedSession} (h : known x s request = some result) :
      Acts x s (.verify request) (s.call request (.done (.verified result)))
  | queued (request : Request) (hfull : MAX_IN_FLIGHT ≤ s.inFlight) :
      Acts x s (.verify request) { s.call request .waiting with waiting := s.waiting ++ [s.calls.length] }
  | entered (request : Request) (htakes : takesSlot x s request = true) : Acts x s (.verify request) (s.call request (.bearer s.steps)).enter
  | resumed {i : ℕ} {c : Call} (hi : s.calls[i]? = some c) (hc : c.stage = .woken) : Acts x s (.resume i) (s.put i (.bearer s.steps)).enter
  | moved (a : Action) {i : ℕ} {c : Call} {stage : Stage} (hi : s.calls[i]? = some c) (hstage : c.stage.Follows stage) : Acts x s a (s.put i stage)
  | proven {i began : ℕ} {c : Call} {token : Units} {lookup : AppDataLookup} {result : VerifiedSession} (hi : s.calls[i]? = some c)
      (hc : c.stage = .appData began token) (hv : verdict x c.request began token lookup = .verified result) :
      Acts x s (.appData i lookup) ((s.put i (.leaving (.verified result))).keep (cacheKey x c.request.session) result)
  | left {i : ℕ} {c : Call} {outcome : Outcome} (hi : s.calls[i]? = some c) (hc : c.stage = .leaving outcome) :
      Acts x s (.leave i) (s.put i (.done outcome)).release
  | forgot (session : Session) : Acts x s (.forget session) (forgetVerifiedSession x s session)
  | ticked (ms : Time) : Acts x s (.tick ms) { s with now := s.now + ms }

theorem verify_acts (x : Reader) (s : State) (request : Request) : Acts x s (.verify request) (verifySessionIdentity x s request) := by
  rw [verifySessionIdentity]
  cases hid : isSessionId request.session.sessionId with
  | false => exact .refused request
  | true =>
      cases hknown : known x s request with
      | some result => exact .answered request hknown
      | none =>
          rw [if_pos rfl]
          dsimp only
          split
          · rename_i hfull
            exact .queued request hfull
          · rename_i hfull
            exact .entered request (by rw [takesSlot, hid, hknown]; simpa using hfull)

theorem acts_of_act (h : act x s a = some t) : Acts x s a t := by
  cases a with
  | verify request =>
      obtain rfl := Option.some.inj h
      exact verify_acts x s request
  | forget session =>
      obtain rfl := Option.some.inj h
      exact .forgot session
  | tick ms =>
      obtain rfl := Option.some.inj h
      exact .ticked ms
  | resume i =>
      obtain ⟨c, hi, h⟩ := Option.bind_eq_some_iff.mp h
      cases hc : c.stage with
      | woken =>
          rw [hc] at h
          obtain rfl := Option.some.inj h
          exact .resumed hi hc
      | _ => rw [hc] at h; cases h
  | bearer i response =>
      obtain ⟨c, hi, h⟩ := Option.bind_eq_some_iff.mp h
      cases hc : c.stage with
      | bearer began =>
          rw [hc] at h
          obtain rfl := Option.some.inj h
          cases mintBearer response with
          | ok token => exact .moved _ hi (hc ▸ .token began token)
          | invalid => exact .moved _ hi (.ended (by rw [hc]; rfl) rfl)
          | unavailable => exact .moved _ hi (.ended (by rw [hc]; rfl) rfl)
      | _ => rw [hc] at h; cases h
  | appData i lookup =>
      obtain ⟨c, hi, h⟩ := Option.bind_eq_some_iff.mp h
      cases hc : c.stage with
      | appData began token =>
          rw [hc] at h
          obtain rfl := Option.some.inj h
          cases hv : verdict x c.request began token lookup with
          | verified result => exact .proven hi hc hv
          | refused code => exact .moved _ hi (.ended (by rw [hc]; rfl) rfl)
          | thrown => exact .moved _ hi (.ended (by rw [hc]; rfl) rfl)
      | _ => rw [hc] at h; cases h
  | throw i =>
      obtain ⟨c, hi, h⟩ := Option.bind_eq_some_iff.mp h
      obtain ⟨hc, h⟩ := Option.ite_none_right_eq_some.mp h
      obtain rfl := Option.some.inj h
      exact .moved _ hi (.ended hc rfl)
  | leave i =>
      obtain ⟨c, hi, h⟩ := Option.bind_eq_some_iff.mp h
      cases hc : c.stage with
      | leaving outcome =>
          rw [hc] at h
          obtain rfl := Option.some.inj h
          exact .left hi hc
      | _ => rw [hc] at h; cases h

/-- What every action keeps, counting aside, every step keeps. -/
theorem acts_of_step (h : step x s a = some t) : ∃ t', Acts x s a t' ∧ t = { t' with steps := s.steps + 1 } := by
  obtain ⟨t', h', rfl⟩ := Option.map_eq_some_iff.mp h
  exact ⟨t', acts_of_act h', rfl⟩

/-! ### Slots and their queue -/

namespace State

def lookups (s : State) : ℕ := s.calls.countP (·.stage.isLookup)
def woken (s : State) : ℕ := s.calls.countP (·.stage.isWoken)
def holders (s : State) : ℕ := s.calls.countP (·.stage.holdsSlot)

/-- The slots that are taken or about to be. -/
def load (s : State) : ℕ := s.inFlight + s.woken

end State

/-- The slots are counted right, and those who wait are in the queue, once each. -/
structure Ordered (s : State) : Prop where
  slots : s.inFlight = s.holders
  queue : ∀ i, i ∈ s.waiting ↔ ∃ c, s.calls[i]? = some c ∧ c.stage.isWaiting = true
  nodup : s.waiting.Nodup

structure Queued (s : State) : Prop extends Ordered s where
  /-- Whoever waits, waits for callers that are on or about to be. -/
  busy : s.waiting ≠ [] → MAX_IN_FLIGHT ≤ s.load

theorem countP_put (p : Stage → Bool) (hi : s.calls[i]? = some c) (stage : Stage) :
    (s.put i stage).calls.countP (p ·.stage) + (p c.stage).toNat = s.calls.countP (p ·.stage) + (p stage).toNat :=
  countP_modify (p ·.stage) (fun c => { c with stage := stage }) hi

theorem countP_call (p : Stage → Bool) (s : State) (request : Request) (stage : Stage) :
    (s.call request stage).calls.countP (p ·.stage) = s.calls.countP (p ·.stage) + (p stage).toNat := by
  show (s.calls ++ [_]).countP _ = _
  rw [List.countP_append, List.countP_singleton]
  cases p stage <;> rfl

/-- A call that waits goes to another stage, or is not one that waits. -/
theorem mem_waiting_put (h : Ordered s) (hi : s.calls[i]? = some c) (hwait : c.stage.isWaiting = false) (hwait' : stage.isWaiting = false)
    (j : ℕ) : j ∈ s.waiting ↔ ∃ c, (s.put i stage).calls[j]? = some c ∧ c.stage.isWaiting = true := by
  rw [h.queue j]
  by_cases hj : j = i
  · subst hj
    have hself := getElem?_modify_self (fun c : Call => { c with stage := stage }) hi
    constructor
    · rintro ⟨c', hc', hw⟩
      rw [hi] at hc'
      cases hc'
      rw [hwait] at hw
      cases hw
    · rintro ⟨c', hc', hw⟩
      obtain rfl := Option.some.inj (hself.symm.trans hc')
      rw [hwait'] at hw
      cases hw
  · show _ ↔ ∃ c, (s.calls.modify i _)[j]? = some c ∧ _
    rw [getElem?_modify_other _ hj]

/-- A call that does not wait goes on, and the slots are counted with it. -/
theorem Ordered.put (h : Ordered s) (hi : s.calls[i]? = some c) (hwait : c.stage.isWaiting = false) (hwait' : stage.isWaiting = false) {n : ℕ}
    (hn : n + c.stage.holdsSlot.toNat = s.inFlight + stage.holdsSlot.toNat) : Ordered ((s.put i stage).setInFlight n) where
  slots := by
    have hcount := countP_put Stage.holdsSlot hi stage
    have hslots := h.slots
    show n = (s.put i stage).calls.countP (·.stage.holdsSlot)
    rw [State.holders] at hslots
    omega
  queue := mem_waiting_put h hi hwait hwait'
  nodup := h.nodup

theorem load_put (hi : s.calls[i]? = some c) (stage : Stage) (n : ℕ) :
    ((s.put i stage).setInFlight n).load + c.stage.isWoken.toNat = n + s.woken + stage.isWoken.toNat := by
  have hcount := countP_put Stage.isWoken hi stage
  show n + (s.put i stage).calls.countP (·.stage.isWoken) + _ = n + s.calls.countP (·.stage.isWoken) + _
  omega

theorem getElem?_call {j : ℕ} {c : Call} {request : Request} : (s.call request stage).calls[j]? = some c ↔
    s.calls[j]? = some c ∨ (j = s.calls.length ∧ c = ⟨request, s.steps, stage⟩) := by
  show (s.calls ++ [_])[j]? = some c ↔ _
  rcases Nat.lt_trichotomy j s.calls.length with hlt | rfl | hgt
  · rw [List.getElem?_append_left hlt]
    constructor
    · exact .inl
    · rintro (h | ⟨h, -⟩)
      · exact h
      · omega
  · rw [List.getElem?_concat_length, List.getElem?_eq_none (le_refl _)]
    simp [eq_comm]
  · rw [List.getElem?_eq_none (by rw [List.length_append, List.length_singleton]; omega), List.getElem?_eq_none hgt.le]
    simp [hgt.ne']

/-- A new call that does not wait. -/
theorem Ordered.call (h : Ordered s) (request : Request) (hwait : stage.isWaiting = false) {n : ℕ}
    (hn : n = s.inFlight + stage.holdsSlot.toNat) : Ordered ((s.call request stage).setInFlight n) where
  slots := by
    show n = (s.call request stage).calls.countP (·.stage.holdsSlot)
    rw [countP_call, hn, h.slots]
    rfl
  queue j := by
    rw [show j ∈ ((s.call request stage).setInFlight n).waiting ↔ j ∈ s.waiting from Iff.rfl, h.queue j]
    constructor
    · rintro ⟨c, hc, hw⟩
      exact ⟨c, getElem?_call.mpr (.inl hc), hw⟩
    · rintro ⟨c, hc, hw⟩
      rcases getElem?_call.mp hc with hc | ⟨-, rfl⟩
      · exact ⟨c, hc, hw⟩
      · rw [hwait] at hw
        cases hw
  nodup := h.nodup

/-- A new call that waits. -/
theorem Ordered.call_waiting (h : Ordered s) (request : Request) :
    Ordered { s.call request .waiting with waiting := s.waiting ++ [s.calls.length] } where
  slots := by
    show s.inFlight = (s.call request .waiting).calls.countP (·.stage.holdsSlot)
    rw [countP_call, h.slots]
    rfl
  queue j := by
    rw [show j ∈ State.waiting { s.call request .waiting with waiting := s.waiting ++ [s.calls.length] } ↔ j ∈ s.waiting ++ [s.calls.length] from Iff.rfl,
      List.mem_append, List.mem_singleton, h.queue j]
    constructor
    · rintro (⟨c, hc, hw⟩ | rfl)
      · exact ⟨c, getElem?_call.mpr (.inl hc), hw⟩
      · exact ⟨_, getElem?_call.mpr (.inr ⟨rfl, rfl⟩), rfl⟩
    · rintro ⟨c, hc, hw⟩
      rcases getElem?_call.mp hc with hc | ⟨rfl, -⟩
      · exact .inl ⟨c, hc, hw⟩
      · exact .inr rfl
  nodup := by
    refine List.nodup_append.mpr ⟨h.nodup, List.pairwise_singleton _ _, fun j hj k hk => ?_⟩
    obtain ⟨c, hc, -⟩ := (h.queue j).mp hj
    rw [List.mem_singleton.mp hk]
    exact (List.getElem?_eq_some_iff.mp hc).1.ne

theorem load_call (s : State) (request : Request) (stage : Stage) (n : ℕ) :
    ((s.call request stage).setInFlight n).load = n + s.woken + stage.isWoken.toNat := by
  show n + (s.call request stage).calls.countP (·.stage.isWoken) = _
  rw [countP_call, ← Nat.add_assoc]
  rfl

/-- The first one that waits is woken. -/
theorem Ordered.wake (h : Ordered s) {j : ℕ} {rest : List ℕ} (hwaiting : s.waiting = j :: rest) :
    Ordered ({ s with waiting := rest }.put j .woken) ∧ State.load ({ s with waiting := rest }.put j .woken) = s.load + 1 := by
  obtain ⟨c, hj, hw⟩ := (h.queue j).mp (by rw [hwaiting]; exact List.mem_cons_self)
  have hc : c.stage = .waiting := by
    cases hc : c.stage with
    | waiting => rfl
    | _ => rw [hc] at hw; cases hw
  have hnodup := h.nodup
  rw [hwaiting, List.nodup_cons] at hnodup
  refine ⟨⟨?_, fun k => ?_, hnodup.2⟩, ?_⟩
  · have hcount := countP_put Stage.holdsSlot hj .woken
    rw [hc] at hcount
    exact h.slots.trans hcount.symm
  · show k ∈ rest ↔ ∃ c, (s.calls.modify j _)[k]? = some c ∧ _
    by_cases hk : k = j
    · subst hk
      refine iff_of_false hnodup.1 ?_
      rintro ⟨c', hc', hw'⟩
      obtain rfl := Option.some.inj ((getElem?_modify_self _ hj).symm.trans hc')
      cases hw'
    · rw [getElem?_modify_other _ hk, ← h.queue k, hwaiting, List.mem_cons]
      exact (or_iff_right hk).symm
  · have hcount := countP_put Stage.isWoken hj .woken
    rw [hc] at hcount
    show s.inFlight + (s.put j .woken).calls.countP (·.stage.isWoken) = s.inFlight + s.calls.countP (·.stage.isWoken) + 1
    rw [Nat.add_assoc]
    exact congrArg (s.inFlight + ·) hcount

/-- What is kept has nothing to do with slots. -/
theorem load_keep (s : State) (key : Units) (result : VerifiedSession) : (s.keep key result).load = s.load := by
  simp only [State.load, State.woken, State.keep]

theorem Ordered.keep (h : Ordered s) (key : Units) (result : VerifiedSession) : Ordered (s.keep key result) where
  slots := by
    simp only [State.keep, State.holders]
    exact h.slots
  queue := by
    simp only [State.keep]
    exact h.queue
  nodup := by
    simp only [State.keep]
    exact h.nodup

theorem release_nil (h : s.waiting = []) : s.release = s.setInFlight (s.inFlight - 1) := by
  rw [State.release, h]

theorem release_cons {j : ℕ} {rest : List ℕ} (h : s.waiting = j :: rest) :
    s.release = { s.setInFlight (s.inFlight - 1) with waiting := rest }.put j .woken := by
  rw [State.release, h]

/-- A slot that a call held is given back: it is free, or the next one's. -/
theorem Queued.release (h : Queued s) {outcome : Outcome} (hi : s.calls[i]? = some c) (hc : c.stage = .leaving outcome) :
    Queued (s.put i (.done outcome)).release ∧ (s.put i (.done outcome)).release.load ≤ s.load := by
  have hpos : 0 < s.inFlight := by
    rw [h.slots]
    exact List.countP_pos_iff.mpr ⟨c, List.mem_of_getElem? hi, by rw [hc]; rfl⟩
  have hwait : c.stage.isWaiting = false := by rw [hc]; rfl
  have hordered : Ordered ((s.put i (.done outcome)).setInFlight (s.inFlight - 1)) :=
    h.toOrdered.put hi hwait rfl (by rw [hc]; show s.inFlight - 1 + 1 = s.inFlight; omega)
  have hload : ((s.put i (.done outcome)).setInFlight (s.inFlight - 1)).load + 1 = s.load := by
    have hput := load_put hi (.done outcome) (s.inFlight - 1)
    rw [hc] at hput
    have hless : s.load = s.inFlight + s.woken := rfl
    simp only [Stage.isWoken, Bool.toNat_false, Nat.add_zero] at hput
    omega
  cases hwaiting : s.waiting with
  | nil =>
      rw [release_nil (s := s.put i (.done outcome)) hwaiting]
      exact ⟨⟨hordered, fun hne => absurd hwaiting hne⟩, (Nat.le_succ _).trans hload.le⟩
  | cons j rest =>
      rw [release_cons (s := s.put i (.done outcome)) hwaiting]
      obtain ⟨hwoken, hmore⟩ := hordered.wake hwaiting
      have hbusy := h.busy (by rw [hwaiting]; exact List.cons_ne_nil _ _)
      have heq := hmore.trans hload
      exact ⟨⟨hwoken, fun _ => hbusy.trans heq.ge⟩, heq.le⟩

/-- **An action keeps the queue in order**; only a call that finds a slot free adds to the load. -/
theorem Queued.acts (h : Queued s) (ha : Acts x s a t) :
    Queued t ∧ (t.load ≤ s.load ∨ ∃ request, a = .verify request ∧ takesSlot x s request = true ∧ t.load = s.load + 1) := by
  have hload : s.load = s.inFlight + s.woken := rfl
  cases ha with
  | refused request =>
      have hcall := load_call s request (.done (.refused .untis_session_invalid)) s.inFlight
      exact ⟨⟨h.toOrdered.call request rfl rfl, fun hne => (h.busy hne).trans hcall.ge⟩, .inl hcall.le⟩
  | @answered request result _ =>
      have hcall := load_call s request (.done (.verified result)) s.inFlight
      exact ⟨⟨h.toOrdered.call request rfl rfl, fun hne => (h.busy hne).trans hcall.ge⟩, .inl hcall.le⟩
  | queued request hfull =>
      have hcall := load_call s request .waiting s.inFlight
      exact ⟨⟨h.toOrdered.call_waiting request, fun _ => (hfull.trans (Nat.le_add_right _ _)).trans hcall.ge⟩, .inl hcall.le⟩
  | entered request htakes =>
      have hcall : (s.call request (.bearer s.steps)).enter.load = s.load + 1 := by
        refine (load_call s request (.bearer s.steps) (s.inFlight + 1)).trans ?_
        show s.inFlight + 1 + s.woken = s.inFlight + s.woken + 1
        omega
      exact ⟨⟨h.toOrdered.call request rfl rfl, fun hne => (h.busy hne).trans (hcall ▸ Nat.le_succ _)⟩, .inr ⟨request, rfl, htakes, hcall⟩⟩
  | @resumed i c hi hc =>
      have hput := load_put hi (.bearer s.steps) (s.inFlight + 1)
      rw [hc] at hput
      have heq : (s.put i (.bearer s.steps)).enter.load = s.load := by
        simp only [Stage.isWoken, Bool.toNat_true, Bool.toNat_false, Nat.add_zero] at hput
        exact Nat.add_right_cancel (hput.trans (by omega))
      exact ⟨⟨h.toOrdered.put hi (by rw [hc]; rfl) rfl (by rw [hc]; rfl), fun hne => (h.busy hne).trans heq.ge⟩, .inl heq.le⟩
  | @moved _ i c stage hi hstage =>
      have hsame : c.stage.isWaiting = false ∧ stage.isWaiting = false ∧ c.stage.isWoken = false ∧ stage.isWoken = false ∧
          c.stage.holdsSlot = true ∧ stage.holdsSlot = true := by
        generalize c.stage = old at hstage
        cases hstage with
        | token began token => exact ⟨rfl, rfl, rfl, rfl, rfl, rfl⟩
        | ended hlookup hout => cases old <;> first | exact ⟨rfl, rfl, rfl, rfl, rfl, rfl⟩ | cases hlookup
      obtain ⟨hwait, hwait', hwoken, hwoken', hslot, hslot'⟩ := hsame
      have hput := load_put hi stage s.inFlight
      rw [hwoken, hwoken'] at hput
      exact ⟨⟨h.toOrdered.put hi hwait hwait' (by rw [hslot, hslot']), fun hne => (h.busy hne).trans hput.ge⟩, .inl hput.le⟩
  | @proven i began c token lookup result hi hc hv =>
      have hput := load_put hi (.leaving (.verified result)) s.inFlight
      rw [hc] at hput
      have hordered : Ordered ((s.put i (.leaving (.verified result))).setInFlight s.inFlight) :=
        h.toOrdered.put hi (by rw [hc]; rfl) rfl (by rw [hc]; rfl)
      rw [load_keep]
      refine ⟨⟨hordered.keep _ _, fun hne => ?_⟩, .inl hput.le⟩
      rw [load_keep]
      simp only [State.keep] at hne
      exact (h.busy hne).trans hput.ge
  | left hi hc => exact ⟨(h.release hi hc).1, .inl (h.release hi hc).2⟩
  | forgot session => exact ⟨⟨⟨h.slots, h.queue, h.nodup⟩, h.busy⟩, .inl (le_refl _)⟩
  | ticked ms => exact ⟨⟨⟨h.slots, h.queue, h.nodup⟩, h.busy⟩, .inl (le_refl _)⟩

theorem queued_start : Queued .start := ⟨⟨rfl, fun i => by simp [State.start], List.nodup_nil⟩, fun h => absurd rfl h⟩

theorem Queued.step (h : Queued s) (hs : step x s a = some t) : Queued t := by
  obtain ⟨t', ha, rfl⟩ := acts_of_step hs
  have hq := (h.acts ha).1
  exact ⟨⟨hq.slots, hq.queue, hq.nodup⟩, hq.busy⟩

/-- A lookup holds a slot. -/
theorem Queued.lookups_le (h : Queued s) : s.lookups ≤ s.load := by
  have hslots : s.lookups ≤ s.holders :=
    List.countP_mono_left fun c _ hc => by rw [Stage.holdsSlot, hc]; rfl
  exact (hslots.trans h.slots.ge).trans (Nat.le_add_right _ _)

/-- **Nobody waits when nothing is under way.** -/
theorem Queued.nobody_waits (h : Queued s) (hidle : ∀ c ∈ s.calls, c.stage.isWoken = false ∧ c.stage.holdsSlot = false) :
    ∀ c ∈ s.calls, c.stage.isWaiting = false := by
  have hload : s.load = 0 := by
    have hwoken : s.woken = 0 := List.countP_eq_zero.mpr fun c hc => by rw [(hidle c hc).1]; exact Bool.false_ne_true
    have hslots : s.holders = 0 := List.countP_eq_zero.mpr fun c hc => by rw [(hidle c hc).2]; exact Bool.false_ne_true
    rw [State.load, h.slots, hwoken, hslots]
  intro c hc
  by_contra hwait
  obtain ⟨i, hi⟩ := List.getElem?_of_mem hc
  have hmem := (h.queue i).mpr ⟨c, hi, eq_true_of_ne_false hwait⟩
  have hfull := h.busy (List.ne_nil_of_mem hmem)
  rw [hload] at hfull
  exact absurd hfull (by decide)

/-! ### Proofs and what was forgotten -/

variable {key : Units} {result : VerifiedSession} {store : TtlCache}

theorem mem_shrink {e : Units × VerifiedSession × Time} (h : e ∈ store.shrink) : e ∈ store := by
  induction store with
  | nil => exact h
  | cons first rest ih =>
      rw [TtlCache.shrink] at h
      split at h
      · exact List.mem_cons_of_mem _ (ih h)
      · exact h

theorem mem_delete {e : Units × VerifiedSession × Time} (h : e ∈ store.delete key) : e ∈ store ∧ e.1 ≠ key := by
  obtain ⟨hmem, hne⟩ := List.mem_filter.mp h
  exact ⟨hmem, of_decide_eq_true hne⟩

theorem mem_set {e : Units × VerifiedSession × Time} {now : Time} (h : e ∈ store.set key result now) :
    e ∈ store ∨ e = (key, result, now + TTL_MS) := by
  rcases List.mem_append.mp (mem_shrink h) with h | h
  · exact .inl (mem_delete h).1
  · exact .inr (List.mem_singleton.mp h)

theorem mem_of_get {now : Time} (h : store.get key now = some result) : ∃ until', (key, result, until') ∈ store := by
  obtain ⟨e, he, h⟩ := Option.bind_eq_some_iff.mp h
  split at h
  · cases h
  · obtain rfl := Option.some.inj h
    obtain rfl : e.1 = key := by simpa using List.find?_some he
    exact ⟨e.2.2, List.mem_of_find?_eq_some he⟩

theorem mem_of_known {request : Request} (h : known x s request = some result) :
    ∃ until', (cacheKey x request.session, result, until') ∈ s.verified := mem_of_get (Option.filter_eq_some_iff.mp h).1

theorem verdict_began {request : Request} {began : ℕ} {token : Units} {lookup : AppDataLookup}
    (h : verdict x request began token lookup = .verified result) : result.began = began := by
  cases lookup with
  | expired => cases h
  | ok json =>
      simp only [verdict] at h
      split at h
      · cases h
      · cases h
        rfl
  | none =>
      simp only [verdict] at h
      split at h
      · cases h
      · cases h
        rfl
  | timeout =>
      simp only [verdict] at h
      split at h
      · cases h
      · split at h
        · cases h
        · cases h
          rfl

namespace Stage

/-- When the lookup that is under way began. -/
def began? : Stage → Option ℕ
  | .bearer began | .appData began _ => some began
  | _ => none

/-- What the call is answered with. -/
def result? : Stage → Option VerifiedSession
  | .leaving (.verified result) | .done (.verified result) => some result
  | _ => none

end Stage

/-- A proof is not older than the last time its key was forgotten before a step. -/
def NotForgotten (forgets : List (Units × ℕ)) (key : Units) (before : ℕ) (result : VerifiedSession) : Prop :=
  ∀ f ∈ forgets, f.1 = key → f.2 < before → f.2 ≤ result.began

/-- A call's lookup began after the call, and its answer was not forgotten before it. -/
structure Call.Timely (x : Reader) (forgets : List (Units × ℕ)) (steps : ℕ) (c : Call) : Prop where
  started : c.started < steps
  began : ∀ b, c.stage.began? = some b → c.started ≤ b
  result : ∀ result, c.stage.result? = some result → NotForgotten forgets (cacheKey x c.request.session) c.started result

structure Fresh (x : Reader) (s : State) : Prop where
  forgets : ∀ f ∈ s.forgets, f.2 < s.steps
  calls : ∀ c ∈ s.calls, c.Timely x s.forgets s.steps
  kept : ∀ e ∈ s.verified, NotForgotten s.forgets e.1 s.steps e.2.1

/-- A lookup ends with a proof of what was forgotten since it began. -/
def provesForgotten (x : Reader) (s : State) (i : ℕ) (lookup : AppDataLookup) : Bool :=
  match s.calls[i]? with
  | some ⟨request, _, .appData began token⟩ =>
    (verdict x request began token lookup).isVerified && s.forgets.any fun f => f.1 = cacheKey x request.session ∧ began < f.2
  | _ => false

/-- A lookup proves nothing that was forgotten since it began. -/
def Prompt (x : Reader) (s : State) : Action → Prop
  | .appData i lookup => provesForgotten x s i lookup = false
  | _ => True

/-- Nobody takes a slot that a woken caller is about to take. -/
def Patient (x : Reader) (s : State) : Action → Prop
  | .verify request => takesSlot x s request = true → s.load < MAX_IN_FLIGHT
  | _ => True

theorem mem_put_calls {P : Call → Prop} (h : ∀ c ∈ s.calls, P c) (hi : ∀ c, s.calls[i]? = some c → P { c with stage := stage }) :
    ∀ c ∈ (s.put i stage).calls, P c := by
  intro c hc
  obtain ⟨j, hj⟩ := List.getElem?_of_mem hc
  rcases getElem?_modify_cases hj with ⟨rfl, c', hc', rfl⟩ | ⟨-, hj⟩
  · exact hi c' hc'
  · exact h c (List.mem_of_getElem? hj)

theorem mem_call_calls {P : Call → Prop} {request : Request} (h : ∀ c ∈ s.calls, P c) (hnew : P ⟨request, s.steps, stage⟩) :
    ∀ c ∈ (s.call request stage).calls, P c := by
  intro c hc
  rcases List.mem_append.mp hc with hc | hc
  · exact h c hc
  · rw [List.mem_singleton.mp hc]
    exact hnew

theorem release_calls {P : Call → Prop} (h : ∀ c ∈ s.calls, P c) (hwoken : ∀ c ∈ s.calls, P { c with stage := .woken }) :
    ∀ c ∈ s.release.calls, P c := by
  cases hwaiting : s.waiting with
  | nil =>
      rw [release_nil hwaiting]
      exact h
  | cons j rest =>
      rw [release_cons hwaiting]
      exact mem_put_calls (s := { s.setInFlight (s.inFlight - 1) with waiting := rest }) h fun c hc => hwoken c (List.mem_of_getElem? hc)

/-- Giving back a slot has nothing to do with what is kept. -/
theorem release_memory (s : State) : s.release.verified = s.verified ∧ s.release.forgets = s.forgets := by
  rw [State.release]
  split <;> exact ⟨rfl, rfl⟩

variable {forgets : List (Units × ℕ)} {n m : ℕ}

theorem NotForgotten.later (h : NotForgotten forgets key n result) (hall : ∀ f ∈ forgets, f.2 < n) : NotForgotten forgets key m result :=
  fun f hf hkey _ => h f hf hkey (hall f hf)

theorem Call.Timely.later (h : c.Timely x forgets n) (hle : n ≤ m) : c.Timely x forgets m :=
  ⟨h.started.trans_le hle, h.began, h.result⟩

/-- A stage without a lookup and without an answer. -/
theorem Call.Timely.idle (h : c.Timely x forgets n) (hbegan : stage.began? = none) (hresult : stage.result? = none) :
    Call.Timely x forgets n { c with stage := stage } where
  started := h.started
  began b hb := by
    rw [show stage.began? = some b from hb] at hbegan
    cases hbegan
  result r hr := by
    rw [show stage.result? = some r from hr] at hresult
    cases hresult

/-- A step that forgets nothing. -/
theorem Fresh.next (h : Fresh x s) (hforgets : t.forgets = s.forgets) (hcalls : ∀ c ∈ t.calls, c.Timely x s.forgets (s.steps + 1))
    (hkept : ∀ e ∈ t.verified, NotForgotten s.forgets e.1 s.steps e.2.1) : Fresh x { t with steps := s.steps + 1 } where
  forgets f hf := (h.forgets f (hforgets ▸ hf)).trans (Nat.lt_succ_self _)
  calls c hc := by
    show c.Timely x t.forgets (s.steps + 1)
    rw [hforgets]
    exact hcalls c hc
  kept e he := by
    show NotForgotten t.forgets e.1 (s.steps + 1) e.2.1
    rw [hforgets]
    exact (hkept e he).later h.forgets

/-- What is proven when nothing was forgotten since the lookup began. -/
theorem Prompt.notForgotten {lookup : AppDataLookup} {began : ℕ} {token : Units} (hp : Prompt x s (.appData i lookup))
    (hi : s.calls[i]? = some c) (hc : c.stage = .appData began token) (hv : verdict x c.request began token lookup = .verified result) :
    NotForgotten s.forgets (cacheKey x c.request.session) n result := by
  intro f hf hkey _
  obtain ⟨request, started, stage⟩ := c
  obtain rfl : stage = _ := hc
  have hany : (s.forgets.any fun f => f.1 = cacheKey x request.session ∧ began < f.2) = false := by
    have hnot : provesForgotten x s i lookup = false := hp
    rw [provesForgotten, hi] at hnot
    simpa [hv, Outcome.isVerified] using hnot
  have hold : ¬ began < f.2 := by simpa [hkey] using List.any_eq_false.mp hany f hf
  rw [verdict_began hv]
  exact Nat.le_of_not_lt hold

/-- **A step proves nothing that was forgotten**, if it is prompt. -/
theorem Fresh.acts (h : Fresh x s) (hp : Prompt x s a) (ha : Acts x s a t) : Fresh x { t with steps := s.steps + 1 } := by
  have hold : ∀ c ∈ s.calls, c.Timely x s.forgets (s.steps + 1) := fun c hc => (h.calls c hc).later (Nat.le_succ _)
  have hat : ∀ (i : ℕ) (c : Call), s.calls[i]? = some c → c.Timely x s.forgets (s.steps + 1) := fun i c hi => hold c (List.mem_of_getElem? hi)
  have hnow : s.steps < s.steps + 1 := Nat.lt_succ_self _
  cases ha with
  | refused request => exact h.next rfl (mem_call_calls hold ⟨hnow, nofun, nofun⟩) h.kept
  | @answered request result hknown =>
      refine h.next rfl (mem_call_calls hold ⟨hnow, nofun, fun r hr => ?_⟩) h.kept
      obtain rfl := Option.some.inj hr
      obtain ⟨_, hmem⟩ := mem_of_known hknown
      exact h.kept _ hmem
  | queued request _ => exact h.next rfl (mem_call_calls hold ⟨hnow, nofun, nofun⟩) h.kept
  | entered request _ =>
      refine h.next rfl (mem_call_calls hold ⟨hnow, fun b hb => ?_, nofun⟩) h.kept
      exact (Option.some.inj hb).le
  | @resumed i c hi hc =>
      refine h.next rfl (mem_put_calls hold fun c' hc' => ⟨(hat i c' hc').started, fun b hb => ?_, nofun⟩) h.kept
      obtain rfl := Option.some.inj hb
      exact (h.calls c' (List.mem_of_getElem? hc')).started.le
  | @moved _ i c stage hi hstage =>
      refine h.next rfl (mem_put_calls hold fun c' hc' => ?_) h.kept
      obtain rfl := Option.some.inj (hi.symm.trans hc')
      have htimely := hat i c hi
      generalize hold' : c.stage = old at hstage
      cases hstage with
      | token began token =>
          refine ⟨htimely.started, fun b hb => htimely.began b ?_, nofun⟩
          rw [hold']
          exact hb
      | @ended _ outcome hlookup hout =>
          refine htimely.idle rfl ?_
          cases outcome with
          | verified r => cases hout
          | _ => rfl
  | @proven i began c token lookup result hi hc hv =>
      refine h.next rfl (mem_put_calls hold fun c' hc' => ?_) fun e he => ?_
      · obtain rfl := Option.some.inj (hi.symm.trans hc')
        refine ⟨(hat i c hi).started, nofun, fun r hr => ?_⟩
        obtain rfl := Option.some.inj hr
        -- the lookup began after the call, so after all that was forgotten before it
        intro f _ _ hbefore
        rw [verdict_began hv]
        exact hbefore.le.trans ((hat i c hi).began began (by rw [hc]; rfl))
      · rcases mem_set he with he | rfl
        · exact h.kept e he
        · exact hp.notForgotten hi hc hv
  | @left i c outcome hi hc =>
      have hput : ∀ c' ∈ (s.put i (.done outcome)).calls, c'.Timely x s.forgets (s.steps + 1) := by
        refine mem_put_calls hold fun c' hc' => ?_
        obtain rfl := Option.some.inj (hi.symm.trans hc')
        refine ⟨(hat i c hi).started, nofun, fun r hr => (hat i c hi).result r ?_⟩
        rw [hc]
        cases outcome with
        | verified _ => exact hr
        | _ => cases hr
      obtain ⟨hverified, hforgets⟩ := release_memory (s.put i (.done outcome))
      refine h.next hforgets (release_calls hput fun c' hc' => (hput c' hc').idle rfl rfl) fun e he => ?_
      rw [hverified] at he
      exact h.kept e he
  | forgot session =>
      refine ⟨fun f hf => ?_, fun c hc => ?_, fun e he f hf hkey _ => ?_⟩
      · rcases List.mem_cons.mp hf with rfl | hf
        · exact hnow
        · exact (h.forgets f hf).trans hnow
      · refine ⟨(hold c hc).started, (hold c hc).began, fun r hr f hf hkey hbefore => ?_⟩
        rcases List.mem_cons.mp hf with rfl | hf
        · exact absurd hbefore (h.calls c hc).started.le.not_gt
        · exact (hold c hc).result r hr f hf hkey hbefore
      · obtain ⟨hmem, hne⟩ := mem_delete he
        rcases List.mem_cons.mp hf with rfl | hf
        · exact absurd hkey.symm hne
        · exact h.kept e hmem f hf hkey (h.forgets f hf)
  | ticked ms => exact h.next rfl hold h.kept

theorem Fresh.step (h : Fresh x s) (hp : Prompt x s a) (hs : step x s a = some t) : Fresh x t := by
  obtain ⟨t', ha, rfl⟩ := acts_of_step hs
  exact h.acts hp ha

theorem fresh_start (x : Reader) : Fresh x .start := ⟨nofun, nofun, nofun⟩

/-! ### Whole runs -/

/-- The bound, the queue and the sign-outs: no more lookups run than there are slots; nobody waits while no lookup runs and no call is on
its way; and no call is answered from a proof whose lookup began before its key was forgotten, if the call came after that. -/
structure Kept (x : Reader) (s : State) : Prop where
  running : s.lookups ≤ MAX_IN_FLIGHT
  served : (∀ c ∈ s.calls, c.stage.isWoken = false ∧ c.stage.holdsSlot = false) → ∀ c ∈ s.calls, c.stage.isWaiting = false
  fresh : ∀ c ∈ s.calls, ∀ result, c.stage.result? = some result →
    ∀ f ∈ s.forgets, f.1 = cacheKey x c.request.session → f.2 < c.started → f.2 ≤ result.began

/-- Whoever comes finds no slot free that a woken caller is about to take, and no lookup proves what was forgotten since it began. -/
def Careful (x : Reader) (s : State) (a : Action) : Prop := Patient x s a ∧ Prompt x s a

instance (x : Reader) (s : State) (a : Action) : Decidable (Patient x s a) :=
  match a with
  | .verify request => inferInstanceAs (Decidable (takesSlot x s request = true → _))
  | .resume _ | .bearer _ _ | .appData _ _ | .throw _ | .leave _ | .forget _ | .tick _ => .isTrue trivial

instance (x : Reader) (s : State) (a : Action) : Decidable (Prompt x s a) :=
  match a with
  | .appData i lookup => inferInstanceAs (Decidable (provesForgotten x s i lookup = false))
  | .verify _ | .resume _ | .bearer _ _ | .throw _ | .leave _ | .forget _ | .tick _ => .isTrue trivial

instance (x : Reader) (s : State) (a : Action) : Decidable (Careful x s a) := inferInstanceAs (Decidable (_ ∧ _))

theorem patient_load (h : Queued s) (hload : s.load ≤ MAX_IN_FLIGHT) (hp : Patient x s a) (hs : step x s a = some t) :
    t.load ≤ MAX_IN_FLIGHT := by
  obtain ⟨t', ha, rfl⟩ := acts_of_step hs
  show t'.load ≤ MAX_IN_FLIGHT
  rcases (h.acts ha).2 with hle | ⟨request, rfl, htakes, heq⟩
  · exact hle.trans hload
  · exact heq.trans_le (hp htakes)

theorem run_queued (x : Reader) {actions : List Action} {s : State} (hrun : run (step x) .start actions = some s) : Queued s :=
  run_invariant (fun _ _ _ h hs => Queued.step h hs) queued_start hrun

/-- **In a careful run never more lookups run than there are slots, nobody waits for good, and no proof outlives a sign-out.** -/
theorem proofs_bounded_and_fresh (x : Reader) {actions : List Action} {s : State} (hcareful : Meets (step x) (Careful x) .start actions)
    (hrun : run (step x) .start actions = some s) : Kept x s := by
  have hqueued := run_queued x hrun
  have hall : Queued s ∧ s.load ≤ MAX_IN_FLIGHT ∧ Fresh x s :=
    run_invariant_of_meets (P := fun s => Queued s ∧ s.load ≤ MAX_IN_FLIGHT ∧ Fresh x s)
      (fun s a t h hok hs => ⟨h.1.step hs, patient_load h.1 h.2.1 hok.1 hs, h.2.2.step hok.2 hs⟩)
      ⟨queued_start, by decide, fresh_start x⟩ hcareful hrun
  obtain ⟨-, hload, hfresh⟩ := hall
  exact ⟨hqueued.lookups_le.trans hload, hqueued.nobody_waits, fun c hc => (hfresh.calls c hc).result⟩

/-- A reader for texts of ASCII, under keys that are not hashed. -/
def plainReader : Reader := ⟨id, List.map lowerUnit, id, fun _ => none, fun _ => none, fun _ => 0⟩

def anna : Session := ⟨⟨units "lbs-brixen", units "lbs-brixen.webuntis.com"⟩, units "ABCDEF0123456789", units "anna"⟩

/-- WebUntis names the account. -/
def annasAppData : AppDataLookup := .ok (.object [(units "user", .object [(units "name", .string (units "anna"))])])

def annasToken : Option (ℕ × Units) := some (200, units "a.b.c")

def request (session : Session) : Request := ⟨session, none⟩

/-- Seventeen callers come, the first one ends, and another comes before the one that waited goes on. -/
def crowded : List Action :=
  List.replicate 17 (.verify (request anna)) ++ [.bearer 0 none, .leave 0, .verify (request anna), .resume 16]

/-- A lookup is under way when the account signs out, and ends after it. -/
def signedOut : List Action :=
  [.verify (request anna), .bearer 0 annasToken, .forget anna, .appData 0 annasAppData, .leave 0, .verify (request anna)]

/-- **Seventeen lookups at once**, and an answer from a proof that began before the account signed out. -/
theorem seventeen_lookups : (∃ s, run (step plainReader) .start crowded = some s ∧ s.lookups = 17) ∧
    ∃ s, run (step plainReader) .start signedOut = some s ∧
      ∃ c ∈ s.calls, ∃ result, c.stage.result? = some result ∧ ∃ f ∈ s.forgets, f.1 = cacheKey plainReader c.request.session ∧
        f.2 < c.started ∧ ¬ f.2 ≤ result.began := by
  refine ⟨⟨_, rfl, by decide⟩, _, rfl, _, List.mem_of_getElem? (i := 1) rfl, _, rfl, _, List.mem_cons_self, ?_⟩
  decide

/-- The account signs out between two lookups. -/
def signedOutBetween : List Action :=
  [.verify (request anna), .bearer 0 annasToken, .appData 0 annasAppData, .leave 0, .forget anna, .verify (request anna),
    .bearer 1 annasToken, .appData 1 annasAppData, .leave 1]

theorem asked_again : ∃ s, run (step plainReader) .start signedOutBetween = some s ∧ Kept plainReader s := by
  have hcareful : Meets (step plainReader) (Careful plainReader) .start signedOutBetween := by decide
  exact ⟨_, rfl, proofs_bounded_and_fresh plainReader hcareful rfl⟩

end Pokyh.Account.SessionProofs

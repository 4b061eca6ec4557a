import Mathlib.Data.List.Basic
import Pokyh.Lib.Logs
import Pokyh.Lib.Runs

/-!
# Admin — Setup

How a WebUntis account becomes an admin (`services/adminLogin.ts`, the grant, revoke and login routes of
`routes/admin.ts`): a one-time password with a deadline, a setup ticket, a password of its own, the sweep of
lapsed grants.  Every call is split at its database reads and writes and may run on any node.

* `owed`: the rights an account was given since its admin row was last removed.
* `grants_kept`: **an account gets a password only with the current one-time password and in time, and has the
  rights it was given**, in runs where no deadline passes between a read and the write that goes with it and
  no rights are given while those of a removed row are still to be removed.
* `renewed_grant_lost`: a sweep that takes the rights of a new grant with it.
-/

namespace Pokyh.Admin.Setup
open Pokyh.Lib

/-- Milliseconds. -/
abbrev Time := ℕ

def ADMIN_SETUP_WINDOW_MS : Time := 15 * 60 * 1000

def SETUP_TICKET_SECONDS : ℕ := 10 * 60

/-- The row of `admins` of a WebUntis account. -/
structure AdminRow where
  passwordHash : Option String
  mustChangePassword : Bool
  setupExpiresAt : Option Time
  deriving DecidableEq, Repr

/-- Whether a pending grant has lapsed. -/
def adminSetupLapsed (admin : AdminRow) (now : Time) : Bool :=
  admin.mustChangePassword && admin.setupExpiresAt.any (· ≤ now)

/-- Whether the admin can sign in at all; the account needs a one-time password. -/
def adminCanSignIn (admin : AdminRow) : Bool := !admin.mustChangePassword && admin.passwordHash.any (· ≠ "")

/-- A signed ticket, tied to one one-time password. -/
structure Ticket where
  fp : String
  exp : Time
  deriving DecidableEq, Repr

/-- bcrypt's comparison of a password with a hash, and the SHA-256 of a hash, shortened. -/
structure Crypto where
  compare : String → String → Bool
  fingerprint : String → String

variable (x : Crypto)

/-- The rights of one grant. -/
structure GrantRequest where
  scope : String
  permissions : List String
  deriving DecidableEq, Repr

/-- A right in a scope. -/
abbrev Right := String × String

def GrantRequest.rights (g : GrantRequest) : List Right := g.permissions.map (g.scope, ·)

/-- The rights after `setGrant` has written. -/
def setRights (rights : List Right) (g : GrantRequest) : List Right :=
  rights.filter (fun r => r.1 ≠ g.scope) ++ g.rights

/-- A call between two of its steps. -/
inductive Call where
  | grantAdmin (grant : Option GrantRequest)
  | setGrant (grant : GrantRequest)
  | writeGrant (grant : GrantRequest)
  | beginPasswordSetup (hash : String) (setupExpiresAt : Option Time)
  | finishPasswordSetup (ticket : Ticket) (hash : String)
  | expireLapsed (now : Time)
  | clearGrants
  deriving DecidableEq, Repr

/-- What a run is about, as it happens. -/
inductive Event where
  /-- A ticket for a one-time password, whose deadline was this one when the ticket's owner was let in. -/
  | issued (ticket : Ticket) (hash : String) (now : Time) (deadline : Option Time)
  /-- A password of the account's own, in place of the one-time password and its deadline. -/
  | became (ticket : Ticket) (hash : String) (now : Time) (deadline : Option Time) (password : String)
  | given (grant : GrantRequest)
  | removed
  deriving DecidableEq, Repr

structure Setup where
  row : Option AdminRow
  rights : List Right
  calls : List Call
  tickets : List Ticket
  /-- Every hash that was ever stored; bcrypt salts each. -/
  hashes : List String
  log : List Event
  deriving DecidableEq, Repr

/-- An account like any other. -/
def Setup.initial : Setup := ⟨none, [], [], [], [], []⟩

def Setup.call (w : Setup) (c : Call) : Setup := { w with calls := c :: w.calls }

/-- The row is pending with this hash: the condition of the updates. -/
def AdminRow.pendingWith (r : AdminRow) (hash : String) : Bool := r.mustChangePassword && r.passwordHash = some hash

/-- The sign-in's lookup: the row, unless it lapsed, which starts a sweep. -/
def Setup.findAdminAccount (w : Setup) (now : Time) (found : AdminRow → Setup) : Setup :=
  match w.row with
  | some r => if adminSetupLapsed r now then w.call (.expireLapsed now) else found r
  | none => w

/-- What is asked of a node. -/
inductive Request where
  | grantAdmin (grant : Option GrantRequest)
  | setGrant (grant : GrantRequest)
  | login (password : String)
  | passwordSetup (ticket : Ticket) (newPassword : String)
  | expireLapsedAdminSetups
  | revokeAdmin
  deriving DecidableEq, Repr

/-- The first step of a request. -/
def Setup.begin (w : Setup) (now : Time) : Request → Setup
  | .grantAdmin grant =>
      if w.row.any adminCanSignIn then
        match grant with
        | some g => w.call (.setGrant g)
        | none => w
      else w.call (.grantAdmin grant)
  | .setGrant grant => w.call (.setGrant grant)
  | .login password =>
      w.findAdminAccount now fun r =>
        match r.passwordHash with
        | some hash =>
            if r.mustChangePassword && x.compare password hash then w.call (.beginPasswordSetup hash r.setupExpiresAt)
            else w
        | none => w
  | .passwordSetup ticket newPassword =>
      if ticket ∈ w.tickets && now < ticket.exp then
        w.findAdminAccount now fun r =>
          match r.passwordHash with
          | some hash =>
              if r.mustChangePassword && x.fingerprint hash = ticket.fp && !x.compare newPassword hash then
                w.call (.finishPasswordSetup ticket hash)
              else w
          | none => w
      else w
  | .expireLapsedAdminSetups => if w.row.any (adminSetupLapsed · now) then w.call (.expireLapsed now) else w
  | .revokeAdmin => { w with row := none, calls := .clearGrants :: w.calls, log := .removed :: w.log }

/-- What a step of a call reads of the world: the time of its write, earlier and later readings of the clock, and
the hash that it made. -/
structure Reading where
  now : Time
  earlier : Time
  later : Time
  hash : String
  deriving DecidableEq, Repr

/-- The next step of a call. -/
def Setup.goOn (w : Setup) (t : Reading) : Call → Setup
  | .grantAdmin grant =>
      { w with
        row := some ⟨some t.hash, true, some (t.earlier + ADMIN_SETUP_WINDOW_MS)⟩
        calls := (grant.map Call.setGrant).toList ++ w.calls
        hashes := t.hash :: w.hashes }
  | .setGrant grant => if w.row.isSome then w.call (.writeGrant grant) else w
  | .writeGrant grant => { w with rights := setRights w.rights grant, log := .given grant :: w.log }
  | .beginPasswordSetup hash setupExpiresAt =>
      let ticketEnd := t.earlier + SETUP_TICKET_SECONDS * 1000
      let ticket : Ticket := ⟨x.fingerprint hash, t.later + SETUP_TICKET_SECONDS * 1000⟩
      let extend := setupExpiresAt.all (· < ticketEnd)
      { w with
        row := w.row.map fun r => if extend && r.pendingWith hash then { r with setupExpiresAt := some ticketEnd } else r
        tickets := ticket :: w.tickets
        log := .issued ticket hash t.now ((w.row.filter (·.pendingWith hash)).bind AdminRow.setupExpiresAt) :: w.log }
  | .finishPasswordSetup ticket hash =>
      match w.row with
      | some r =>
          if r.pendingWith hash then
            { w with
              row := some ⟨some t.hash, false, none⟩
              hashes := t.hash :: w.hashes
              log := .became ticket hash t.now r.setupExpiresAt t.hash :: w.log }
          else w
      | none => w
  | .expireLapsed now =>
      if w.row.any (adminSetupLapsed · now) then
        { w with row := none, calls := .clearGrants :: w.calls, log := .removed :: w.log }
      else w
  | .clearGrants => { w with rights := [] }

inductive Move where
  | begin (request : Request) (now : Time)
  | goOn (call : Call) (t : Reading)
  /-- The node goes away. -/
  | giveUp (call : Call)
  deriving DecidableEq, Repr

def Setup.step (w : Setup) : Move → Option Setup
  | .begin request now => some (w.begin x now request)
  | .goOn call t =>
      if call ∈ w.calls && t.earlier ≤ t.now && t.now ≤ t.later && t.hash ∉ w.hashes then
        some ({ w with calls := w.calls.erase call }.goOn x t call)
      else none
  | .giveUp call => if call ∈ w.calls then some { w with calls := w.calls.erase call } else none

/-! ### What should hold -/

/-- What an account was given since its admin row was last removed. -/
def owed : List Event → List Right
  | [] => []
  | .given grant :: log => setRights (owed log) grant
  | .removed :: _ => []
  | _ :: log => owed log

/-- A password of the account's own is set in time, with a ticket for the one-time password stored then that was
itself issued in time. -/
def Event.InTime : Event → List Event → Prop
  | .became ticket hash now deadline _, earlier => (∃ d, deadline = some d ∧ now < d) ∧
      ∃ issuedAt d, .issued ticket hash issuedAt (some d) ∈ earlier ∧ issuedAt < d
  | _, _ => True

structure Granted (row : Option AdminRow) (rights : List Right) (log : List Event) : Prop where
  /-- An admin with a password of its own got it in place of a one-time password. -/
  password : ∀ r, row = some r → r.mustChangePassword = false →
    ∃ ticket hash now deadline password, r.passwordHash = some password ∧
      .became ticket hash now deadline password ∈ log
  inTime : Backed Event.InTime log
  /-- Rights are there until the row is removed. -/
  rights : ∀ right ∈ owed log, right ∈ rights

/-- Writes of a setup find a deadline that has not passed, and rights are given when none are left to be removed. -/
def Setup.careful (w : Setup) : Move → Bool
  | .goOn (.beginPasswordSetup hash _) t | .goOn (.finishPasswordSetup _ hash) t =>
      (w.row.filter (·.pendingWith hash)).all fun r => r.setupExpiresAt.any (t.now < ·)
  | .goOn (.writeGrant _) _ => .clearGrants ∉ w.calls
  | _ => true

/-! ### What every careful step keeps -/

/-- A deadline is found where the row is pending with the hash. -/
def Event.Known (hashes : List String) (row : Option AdminRow) : Event → Prop
  | .issued ticket hash now deadline => ticket.fp = x.fingerprint hash ∧ hash ∈ hashes ∧
      (deadline = none → ∀ r, row = some r → r.pendingWith hash = false) ∧ ∀ d, deadline = some d → now < d
  | _ => True

/-- **The invariant of careful runs.** -/
structure Kept (w : Setup) : Prop where
  granted : Granted w.row w.rights w.log
  stored : ∀ r hash, w.row = some r → r.passwordHash = some hash → hash ∈ w.hashes
  begun : ∀ hash d, .beginPasswordSetup hash d ∈ w.calls → hash ∈ w.hashes
  known : ∀ e ∈ w.log, e.Known x w.hashes w.row
  tickets : ∀ ticket ∈ w.tickets, ∃ hash now deadline, .issued ticket hash now deadline ∈ w.log
  finishing : ∀ ticket hash, .finishPasswordSetup ticket hash ∈ w.calls → ticket ∈ w.tickets ∧ x.fingerprint hash = ticket.fp
  clearing : .clearGrants ∈ w.calls → owed w.log = []

variable {x} {w w' : Setup}

theorem kept_initial : Kept x .initial where
  granted := ⟨nofun, trivial, nofun⟩
  stored := nofun
  begun := nofun
  known := nofun
  tickets := nofun
  finishing := nofun
  clearing := nofun

theorem Kept.erase (h : Kept x w) (c : Call) : Kept x { w with calls := w.calls.erase c } :=
  { h with
    begun := fun hash d hmem => h.begun hash d (List.mem_of_mem_erase hmem)
    finishing := fun ticket hash hmem => h.finishing ticket hash (List.mem_of_mem_erase hmem)
    clearing := fun hmem => h.clearing (List.mem_of_mem_erase hmem) }

/-- A further call is under way. -/
theorem Kept.call (h : Kept x w) {c : Call} (hbegun : ∀ hash d, c = .beginPasswordSetup hash d → hash ∈ w.hashes)
    (hfinishing : ∀ ticket hash, c = .finishPasswordSetup ticket hash → ticket ∈ w.tickets ∧ x.fingerprint hash = ticket.fp)
    (hclearing : c = .clearGrants → owed w.log = []) : Kept x (w.call c) :=
  { h with
    begun := fun hash d hmem => (List.mem_cons.mp hmem).elim (fun heq => hbegun hash d heq.symm) (h.begun hash d)
    finishing := fun ticket hash hmem =>
      (List.mem_cons.mp hmem).elim (fun heq => hfinishing ticket hash heq.symm) (h.finishing ticket hash)
    clearing := fun hmem => (List.mem_cons.mp hmem).elim (fun heq => hclearing heq.symm) h.clearing }

/-- Another row, which is pending with an old hash only where that one was. -/
theorem Event.Known.of_row {hashes hashes' : List String} {row row' : Option AdminRow} {e : Event}
    (h : e.Known x hashes row) (hhashes : ∀ hash ∈ hashes, hash ∈ hashes')
    (hrow : ∀ r, row' = some r → ∀ hash ∈ hashes, r.pendingWith hash = true →
      ∃ r', row = some r' ∧ r'.pendingWith hash = true) : e.Known x hashes' row' := by
  cases e with
  | issued ticket hash now deadline =>
      obtain ⟨hfp, hmem, hnone, hsome⟩ := h
      refine ⟨hfp, hhashes hash hmem, fun hd r hr => ?_, hsome⟩
      by_contra hpending
      obtain ⟨r', hr', hpending'⟩ := hrow r hr hash hmem (by simpa using hpending)
      rw [hnone hd r' hr'] at hpending'
      cases hpending'
  | became | given | removed => trivial

/-- The admin row is removed, and its rights are left to go. -/
theorem Kept.remove (h : Kept x w) :
    Kept x { w with row := none, calls := .clearGrants :: w.calls, log := .removed :: w.log } where
  granted := ⟨nofun, ⟨trivial, h.granted.inTime⟩, nofun⟩
  stored := nofun
  begun := fun hash d hmem => h.begun hash d (by simpa using hmem)
  known := fun e he => by
    rcases List.mem_cons.mp he with rfl | hold
    · trivial
    · exact (h.known e hold).of_row (fun _ => id) nofun
  tickets := fun ticket hmem => by
    obtain ⟨hash, now, deadline, hissued⟩ := h.tickets ticket hmem
    exact ⟨hash, now, deadline, List.mem_cons_of_mem _ hissued⟩
  finishing := fun ticket hash hmem => h.finishing ticket hash (by simpa using hmem)
  clearing := fun _ => rfl

theorem Kept.findAdminAccount (h : Kept x w) (now : Time) {found : AdminRow → Setup}
    (hfound : ∀ r, w.row = some r → Kept x (found r)) : Kept x (w.findAdminAccount now found) := by
  rw [Setup.findAdminAccount]
  split
  case h_1 r hr =>
    split
    · exact h.call nofun nofun nofun
    · exact hfound r hr
  case h_2 => exact h

theorem Kept.begin (h : Kept x w) (now : Time) (request : Request) : Kept x (w.begin x now request) := by
  cases request with
  | grantAdmin grant =>
      simp only [Setup.begin]
      split
      · split
        · exact h.call nofun nofun nofun
        · exact h
      · exact h.call nofun nofun nofun
  | setGrant grant => exact h.call nofun nofun nofun
  | login password =>
      refine h.findAdminAccount now fun r hr => ?_
      split
      case h_1 hash hhash =>
        split
        · refine h.call (fun hash' d heq => ?_) nofun nofun
          cases heq
          exact h.stored r _ hr hhash
        · exact h
      case h_2 => exact h
  | passwordSetup ticket newPassword =>
      simp only [Setup.begin]
      split
      case isTrue hticket =>
        rw [Bool.and_eq_true, decide_eq_true_eq] at hticket
        refine h.findAdminAccount now fun r hr => ?_
        split
        case h_1 hash hhash =>
          split
          case isTrue hfp =>
            simp only [Bool.and_eq_true, decide_eq_true_eq] at hfp
            refine h.call nofun (fun ticket' hash' heq => ?_) nofun
            cases heq
            exact ⟨hticket.1, hfp.1.2⟩
          case isFalse => exact h
        case h_2 => exact h
      case isFalse => exact h
  | expireLapsedAdminSetups =>
      simp only [Setup.begin]
      split
      · exact h.call nofun nofun nofun
      · exact h
  | revokeAdmin => exact h.remove

theorem mem_setRights {rights rights' : List Right} (hsub : ∀ right ∈ rights, right ∈ rights') (g : GrantRequest) :
    ∀ right ∈ setRights rights g, right ∈ setRights rights' g := by
  intro right hmem
  simp only [setRights, List.mem_append, List.mem_filter] at hmem ⊢
  exact hmem.imp (fun hold => ⟨hsub right hold.1, hold.2⟩) id

/-- The deadline that a careful write finds has not passed. -/
theorem deadline_of_careful {hash : String} {now : Time} {r : AdminRow} (hr : w.row = some r)
    (hpending : r.pendingWith hash = true)
    (hcareful : ((w.row.filter (·.pendingWith hash)).all fun r => r.setupExpiresAt.any (now < ·)) = true) :
    ∃ d, r.setupExpiresAt = some d ∧ now < d := by
  rw [hr, Option.filter_some, if_pos hpending, Option.all_some, Option.any_eq_true] at hcareful
  obtain ⟨d, hd, hlt⟩ := hcareful
  exact ⟨d, hd, of_decide_eq_true hlt⟩

theorem Kept.beginPasswordSetup (h : Kept x w) (t : Reading) (hash : String) (setupExpiresAt : Option Time)
    (hmem : hash ∈ w.hashes) (hcareful : w.careful (.goOn (.beginPasswordSetup hash setupExpiresAt) t) = true) :
    Kept x (w.goOn x t (.beginPasswordSetup hash setupExpiresAt)) := by
  -- The row keeps its password, and whether it is pending.
  have hrow {f : AdminRow → AdminRow} (hf : ∀ r, (f r).passwordHash = r.passwordHash ∧
      (f r).mustChangePassword = r.mustChangePassword) {r' : AdminRow} (hr' : w.row.map f = some r') :
      ∃ r, w.row = some r ∧ r'.passwordHash = r.passwordHash ∧ r'.mustChangePassword = r.mustChangePassword := by
    obtain ⟨r, hr, rfl⟩ := Option.map_eq_some_iff.mp hr'
    exact ⟨r, hr, hf r⟩
  have hkeeps (ticketEnd : Time) (extend : Bool) (r : AdminRow) :
      (if extend && r.pendingWith hash then { r with setupExpiresAt := some ticketEnd } else r).passwordHash =
        r.passwordHash ∧
      (if extend && r.pendingWith hash then { r with setupExpiresAt := some ticketEnd } else r).mustChangePassword =
        r.mustChangePassword := by
    split <;> exact ⟨rfl, rfl⟩
  refine ⟨⟨fun r' hr' hown => ?_, ⟨trivial, h.granted.inTime⟩, h.granted.rights⟩, fun r' hash' hr' hhash' => ?_, h.begun,
    fun e he => ?_, fun ticket hticket => ?_, fun ticket hash' hmem' => ?_, h.clearing⟩
  · obtain ⟨r, hr, hpassword, hmust⟩ := hrow (hkeeps _ _) hr'
    obtain ⟨ticket, hash', now, deadline, password, hpw, hlog⟩ := h.granted.password r hr (hmust ▸ hown)
    exact ⟨ticket, hash', now, deadline, password, hpassword ▸ hpw, List.mem_cons_of_mem _ hlog⟩
  · obtain ⟨r, hr, hpassword, -⟩ := hrow (hkeeps _ _) hr'
    exact h.stored r hash' hr (hpassword ▸ hhash')
  · have hpending {r' : AdminRow} (hr' : (w.goOn x t (.beginPasswordSetup hash setupExpiresAt)).row = some r')
        {hash' : String} (hp : r'.pendingWith hash' = true) : ∃ r, w.row = some r ∧ r.pendingWith hash' = true := by
      obtain ⟨r, hr, hpassword, hmust⟩ := hrow (hkeeps _ _) hr'
      exact ⟨r, hr, by rw [AdminRow.pendingWith, ← hpassword, ← hmust]; exact hp⟩
    rcases List.mem_cons.mp he with rfl | hold
    · refine ⟨rfl, hmem, fun hnone r' hr' => ?_, fun d hd => ?_⟩
      · by_contra hp
        obtain ⟨r, hr, hp'⟩ := hpending hr' (by simpa using hp)
        obtain ⟨d, hd, -⟩ := deadline_of_careful hr hp' hcareful
        simp [hr, hp', hd] at hnone
      · obtain ⟨r, hr, hd⟩ := Option.bind_eq_some_iff.mp hd
        obtain ⟨hr, hp⟩ := Option.filter_eq_some_iff.mp hr
        obtain ⟨d', hd', hlt⟩ := deadline_of_careful hr hp hcareful
        cases hd.symm.trans hd'
        exact hlt
    · exact (h.known e hold).of_row (fun _ => id) fun r' hr' hash' _ hp => hpending hr' hp
  · rcases List.mem_cons.mp hticket with rfl | hold
    · exact ⟨hash, t.now, _, List.mem_cons_self⟩
    · obtain ⟨hash', now, deadline, hissued⟩ := h.tickets ticket hold
      exact ⟨hash', now, deadline, List.mem_cons_of_mem _ hissued⟩
  · obtain ⟨hin, hfp⟩ := h.finishing ticket hash' hmem'
    exact ⟨List.mem_cons_of_mem _ hin, hfp⟩

theorem Kept.finishPasswordSetup (hfp : x.fingerprint.Injective) (h : Kept x w) (t : Reading) (ticket : Ticket) (hash : String)
    (hticket : ticket ∈ w.tickets) (hprint : x.fingerprint hash = ticket.fp)
    (hcareful : w.careful (.goOn (.finishPasswordSetup ticket hash) t) = true) :
    Kept x (w.goOn x t (.finishPasswordSetup ticket hash)) := by
  rw [Setup.goOn]
  split
  case h_1 r hr =>
    split
    case isTrue hpending =>
      refine ⟨⟨fun r' hr' _ => ?_, ⟨⟨deadline_of_careful hr hpending hcareful, ?_⟩, h.granted.inTime⟩, h.granted.rights⟩,
        fun r' hash' hr' hhash' => ?_, fun hash' d hmem => List.mem_cons_of_mem _ (h.begun hash' d hmem), fun e he => ?_,
        fun ticket' hmem => ?_, h.finishing, h.clearing⟩
      · cases hr'
        exact ⟨ticket, hash, t.now, r.setupExpiresAt, t.hash, rfl, List.mem_cons_self⟩
      · -- The ticket is for the one-time password that the row has, so it was issued in time.
        obtain ⟨hash', now, deadline, hissued⟩ := h.tickets ticket hticket
        obtain ⟨hprint', -, hnone, hsome⟩ := h.known _ hissued
        obtain rfl : hash = hash' := hfp (hprint.trans hprint')
        cases deadline with
        | none =>
            rw [hnone rfl r hr] at hpending
            cases hpending
        | some d => exact ⟨now, d, hissued, hsome d rfl⟩
      · cases hr'
        cases hhash'
        exact List.mem_cons_self
      · rcases List.mem_cons.mp he with rfl | hold
        · trivial
        · refine (h.known e hold).of_row (fun hash' => List.mem_cons_of_mem _) fun r' hr' hash' _ hp => ?_
          cases hr'
          cases hp
      · obtain ⟨hash', now, deadline, hissued⟩ := h.tickets ticket' hmem
        exact ⟨hash', now, deadline, List.mem_cons_of_mem _ hissued⟩
    case isFalse => exact h
  case h_2 => exact h

/-- **A careful step of a call keeps the invariant.** -/
theorem Kept.goOn (hfp : x.fingerprint.Injective) (h : Kept x w) (t : Reading) (c : Call) (hfresh : t.hash ∉ w.hashes)
    (hcareful : w.careful (.goOn c t) = true) (hbegun : ∀ hash d, c = .beginPasswordSetup hash d → hash ∈ w.hashes)
    (hfinishing : ∀ ticket hash, c = .finishPasswordSetup ticket hash →
      ticket ∈ w.tickets ∧ x.fingerprint hash = ticket.fp)
    (hclearing : c = .clearGrants → owed w.log = []) : Kept x (w.goOn x t c) := by
  cases c with
  | grantAdmin grant =>
      have hcalls {c : Call} (hmem : c ∈ (grant.map Call.setGrant).toList ++ w.calls) :
          c ∈ w.calls ∨ ∃ g, c = .setGrant g := by
        rcases List.mem_append.mp hmem with hnew | hold
        · obtain ⟨g, -, rfl⟩ := Option.map_eq_some_iff.mp (Option.mem_toList.mp hnew)
          exact .inr ⟨g, rfl⟩
        · exact .inl hold
      refine ⟨⟨fun r hr hown => ?_, h.granted.inTime, h.granted.rights⟩, fun r hash hr hhash => ?_, fun hash d hmem => ?_,
        fun e he => ?_, h.tickets, fun ticket hash hmem => ?_, fun hmem => ?_⟩
      · cases hr
        cases hown
      · cases hr
        cases hhash
        exact List.mem_cons_self
      · rcases hcalls hmem with hold | ⟨g, heq⟩
        · exact List.mem_cons_of_mem _ (h.begun hash d hold)
        · cases heq
      · refine (h.known e he).of_row (fun hash => List.mem_cons_of_mem _) fun r hr hash hold hpending => ?_
        cases hr
        have hnew : t.hash = hash := by simpa [AdminRow.pendingWith] using hpending
        exact absurd (hnew ▸ hold) hfresh
      · rcases hcalls hmem with hold | ⟨g, heq⟩
        · exact h.finishing ticket hash hold
        · cases heq
      · rcases hcalls hmem with hold | ⟨g, heq⟩
        · exact h.clearing hold
        · cases heq
  | setGrant grant =>
      rw [Setup.goOn]
      split
      · exact h.call nofun nofun nofun
      · exact h
  | writeGrant grant =>
      refine ⟨⟨fun r hr hown => ?_, ⟨trivial, h.granted.inTime⟩, mem_setRights h.granted.rights grant⟩, h.stored, h.begun,
        fun e he => ?_, fun ticket hmem => ?_, h.finishing, fun hmem => ?_⟩
      · obtain ⟨ticket, hash, now, deadline, password, hpassword, hlog⟩ := h.granted.password r hr hown
        exact ⟨ticket, hash, now, deadline, password, hpassword, List.mem_cons_of_mem _ hlog⟩
      · rcases List.mem_cons.mp he with rfl | hold
        · trivial
        · exact h.known e hold
      · obtain ⟨hash, now, deadline, hissued⟩ := h.tickets ticket hmem
        exact ⟨hash, now, deadline, List.mem_cons_of_mem _ hissued⟩
      · exact absurd hmem (of_decide_eq_true hcareful)
  | beginPasswordSetup hash setupExpiresAt => exact h.beginPasswordSetup t hash setupExpiresAt (hbegun _ _ rfl) hcareful
  | finishPasswordSetup ticket hash =>
      exact h.finishPasswordSetup hfp t ticket hash (hfinishing _ _ rfl).1 (hfinishing _ _ rfl).2 hcareful
  | expireLapsed now =>
      rw [Setup.goOn]
      split
      · exact h.remove
      · exact h
  | clearGrants =>
      refine { h with granted := ⟨h.granted.password, h.granted.inTime, fun right hmem => ?_⟩ }
      have hnone : right ∈ owed w.log := hmem
      rw [hclearing rfl] at hnone
      cases hnone

theorem Kept.step (hfp : x.fingerprint.Injective) (h : Kept x w) {m : Move} (hcareful : w.careful m = true)
    (hstep : w.step x m = some w') : Kept x w' := by
  cases m with
  | begin request now =>
      cases hstep
      exact h.begin now request
  | goOn c t =>
      obtain ⟨hallows, heq⟩ := Option.ite_none_right_eq_some.mp hstep
      cases heq
      simp only [Bool.and_eq_true, decide_eq_true_eq] at hallows
      obtain ⟨⟨⟨hmem, -⟩, -⟩, hfresh⟩ := hallows
      refine (h.erase c).goOn hfp t c hfresh ?_ (fun hash d hc => h.begun hash d (hc ▸ hmem))
        (fun ticket hash hc => h.finishing ticket hash (hc ▸ hmem)) fun hc => h.clearing (hc ▸ hmem)
      cases c with
      | writeGrant grant =>
          exact decide_eq_true fun hclear => of_decide_eq_true hcareful (List.mem_of_mem_erase hclear)
      | grantAdmin | setGrant | beginPasswordSetup | finishPasswordSetup | expireLapsed | clearGrants => exact hcareful
  | giveUp c =>
      obtain ⟨-, heq⟩ := Option.ite_none_right_eq_some.mp hstep
      cases heq
      exact h.erase c

/-- **An account becomes an admin only with the current one-time password and in time, and has every right it was given
since its admin row was last removed**, in runs whose writes find what was read still in time and which give no rights
while those of a removed row are left to go.  Fingerprints of hashes do not collide. -/
theorem grants_kept (hfp : x.fingerprint.Injective) {moves : List Move}
    (hrun : run (Setup.step x) .initial moves = some w)
    (hcareful : Meets (Setup.step x) (fun w m => w.careful m = true) .initial moves) :
    Granted w.row w.rights w.log :=
  (run_invariant_of_meets (P := Kept x) (fun _ _ _ h hok hstep => h.step hfp hok hstep) kept_initial hcareful hrun).granted

/-! ### A grant, lapsed and renewed -/

/-- A hash that tells its password. -/
def plainCrypto : Crypto where
  compare := fun password hash => "bcrypt:" ++ password = hash
  fingerprint := fun hash => "sha:" ++ hash

theorem plain_fingerprint_injective : plainCrypto.fingerprint.Injective := fun a b h => by
  have := congrArg String.toList h
  simp only [plainCrypto, String.toList_append] at this
  exact String.toList_inj.mp (List.append_cancel_left this)

def editor : GrantRequest := ⟨"global", ["mensa.manage"]⟩

/-- A grant at time 0 with the one-time password `first`, and one after it has lapsed with `second`. -/
def firstGrant : List Move :=
  [.begin (.grantAdmin (some editor)) 0, .goOn (.grantAdmin (some editor)) ⟨0, 0, 0, "bcrypt:first"⟩,
    .goOn (.setGrant editor) ⟨0, 0, 0, ""⟩, .goOn (.writeGrant editor) ⟨0, 0, 0, ""⟩]

def laterGrant (now : Time) : List Move :=
  [.begin (.grantAdmin (some editor)) now, .goOn (.grantAdmin (some editor)) ⟨now, now, now, "bcrypt:second"⟩,
    .goOn (.setGrant editor) ⟨now, now, now, ""⟩, .goOn (.writeGrant editor) ⟨now, now, now, ""⟩]

/-- The sweep comes and goes before the new grant, and the new admin sets a password. -/
def renewed : List Move :=
  firstGrant ++ [.begin .expireLapsedAdminSetups 1000000, .goOn (.expireLapsed 1000000) ⟨1000000, 1000000, 1000000, ""⟩,
    .goOn .clearGrants ⟨1000000, 1000000, 1000000, ""⟩] ++ laterGrant 1000001 ++
    [.begin (.login "second") 1000002, .goOn (.beginPasswordSetup "bcrypt:second" (some 1900001)) ⟨1000003, 1000003, 1000003, ""⟩,
      .begin (.passwordSetup ⟨"sha:bcrypt:second", 1600003⟩ "mine") 1000004,
      .goOn (.finishPasswordSetup ⟨"sha:bcrypt:second", 1600003⟩ "bcrypt:second") ⟨1000005, 1000005, 1000005, "bcrypt:mine"⟩]

theorem grants_kept_renewed : ∃ w, run (Setup.step plainCrypto) .initial renewed = some w ∧
    w.row.any adminCanSignIn = true ∧ ("global", "mensa.manage") ∈ owed w.log ∧ Granted w.row w.rights w.log := by
  have hgives : (run (Setup.step plainCrypto) .initial renewed).any
      (fun w => w.row.any adminCanSignIn && ("global", "mensa.manage") ∈ owed w.log) = true := by decide +kernel
  obtain ⟨w, hrun, hw⟩ := (Option.any_eq_true _ _).mp hgives
  rw [Bool.and_eq_true, decide_eq_true_eq] at hw
  exact ⟨w, hrun, hw.1, hw.2, grants_kept plain_fingerprint_injective hrun (by decide +kernel)⟩

/-- **The sweep takes the rights of a new grant**: it has removed the lapsed row, the account is granted again, and only
then the sweep removes the rights. -/
theorem renewed_grant_lost : ∃ w, run (Setup.step plainCrypto) .initial
    (firstGrant ++ [.begin .expireLapsedAdminSetups 1000000,
      .goOn (.expireLapsed 1000000) ⟨1000000, 1000000, 1000000, ""⟩] ++ laterGrant 1000001 ++
      [.goOn .clearGrants ⟨1000002, 1000002, 1000002, ""⟩]) = some w ∧ ¬ Granted w.row w.rights w.log := by
  have hgives : (run (Setup.step plainCrypto) .initial
    (firstGrant ++ [.begin .expireLapsedAdminSetups 1000000,
      .goOn (.expireLapsed 1000000) ⟨1000000, 1000000, 1000000, ""⟩] ++ laterGrant 1000001 ++
      [.goOn .clearGrants ⟨1000002, 1000002, 1000002, ""⟩])).any
        (fun w => ("global", "mensa.manage") ∈ owed w.log && ("global", "mensa.manage") ∉ w.rights) = true := by
    decide +kernel
  obtain ⟨w, hrun, hw⟩ := (Option.any_eq_true _ _).mp hgives
  rw [Bool.and_eq_true, decide_eq_true_eq, decide_eq_true_eq] at hw
  exact ⟨w, hrun, fun h => hw.2 (h.rights _ hw.1)⟩

end Pokyh.Admin.Setup

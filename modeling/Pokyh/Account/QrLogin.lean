import Mathlib.Data.List.Basic
import Pokyh.Lib.Logs
import Pokyh.Lib.Runs

/-!
# Account — QrLogin

Signing the website in with the app (`services/qrLogin.ts`, the QR routes of `routes/auth.ts` and
`routes/webuntis.ts`): one QR code, its approvals, the polls of the website and the clean-up, each split at its
awaits.

* `Event.Holds`: a poll gets past an approved code only before it expires or is finished, and **one poll signs the website
  in, as the account that approved**.
* `code_works_once`: that holds in runs whose polls do not overlap between finding the code approved and finishing it,
  and whose names still lead to the account that approved.
* `two_polls_sign_in`: two polls that do.
-/

namespace Pokyh.Account.QrLogin
open Pokyh.Lib

/-- Milliseconds. -/
abbrev Time := ℕ

structure User where
  stableUid : String
  username : String
  isUntisUser : Bool
  schoolId : Option String
  deriving DecidableEq, Repr

structure QrCredential where
  username : String
  password : Option String
  key : Option String
  school : Option String
  /-- The app's own WebUntis session. -/
  sessionId : Option String
  deriving DecidableEq, Repr

inductive Status where
  | pending
  | approved
  | done
  deriving DecidableEq, Repr

/-- The row of `qr_logins` of the code. -/
structure Row where
  status : Status
  stableUid : Option String
  credential : Option QrCredential
  expiresAt : Time
  deriving DecidableEq, Repr

/-- The schools that can be signed in to: the one a name stands for, and the default one. -/
structure Schools where
  parseSchool : String → Option String
  defaultSchool : String

variable (x : Schools)

/-- What the app sends along with its approval. -/
structure ApproveBody where
  username : Option String
  password : Option String
  key : Option String
  sessionId : Option String
  school : Option String
  deriving DecidableEq, Repr

/-- What an account hands over, unless its approval is refused. -/
def handedOver (user : User) (body : ApproveBody) : Option (Option QrCredential) :=
  if user.isUntisUser then
    if body.password.isNone && body.key.isNone && body.sessionId.isNone then none
    else if body.username ≠ some user.username then none
    else if body.school.any fun school => (x.parseSchool school).isNone then none
    else some (some ⟨user.username, if body.key.isSome then none else body.password, body.key, body.school, body.sessionId⟩)
  else some none

/-- A poll that has found the code approved, between two of its steps; `stableUid` is who approved. -/
inductive Poll where
  | findUser (stableUid : String)
  | finishThenSignIn (user : Option User)
  | signInLocalAccount (user : User)
  | adoptAppSession (stableUid : String) (handed : QrCredential)
  | signInWebsite (stableUid : String) (handed : QrCredential)
  | completeWebUntisLogin (stableUid username schoolId : String)
  /-- The account's session is open, and the answer on its way. -/
  | answer (stableUid : String)
  | finishQrLogin (answered : Bool)
  deriving DecidableEq, Repr

/-- A poll that may still sign the website in, or has and has not finished the code. -/
def Poll.isLive : Poll → Bool
  | .finishQrLogin answered => answered
  | _ => true

/-- What a run is about, as it happens. -/
inductive Event where
  | approved (stableUid : String) (now : Time)
  /-- A poll has found the code approved. -/
  | passed (now : Time)
  | finished
  /-- A poll has answered with a session of the account. -/
  | answered (stableUid : String)
  deriving DecidableEq, Repr

structure World where
  row : Option Row
  users : List User
  polls : List Poll
  /-- Approvals that have read their account. -/
  approvals : List (String × Option QrCredential)
  log : List Event
  clock : Time
  deriving DecidableEq, Repr

/-- The website shows a new code. -/
def World.started (users : List User) (expiresAt : Time) : World :=
  ⟨some ⟨.pending, none, none, expiresAt⟩, users, [], [], [], 0⟩

/-- The website asks. -/
def World.pollQrLogin (w : World) (now : Time) : World :=
  match w.row with
  | none => w
  | some r =>
      if r.status = .done || r.expiresAt ≤ now then w
      else
        match r.status, r.stableUid with
        | .approved, some stableUid =>
            if stableUid = "" then w
            else
              let next := match r.credential with
                | none => .findUser stableUid
                | some handed => .adoptAppSession stableUid handed
              { w with polls := next :: w.polls, log := .passed now :: w.log }
        | _, _ => w

/-- The app has confirmed. -/
def World.approveQrLogin (w : World) (stableUid : String) (credential : Option QrCredential) (now : Time) : World :=
  match w.row with
  | none => w
  | some r =>
      if r.status = .pending && now < r.expiresAt then
        { w with
          row := some { r with status := .approved, stableUid := some stableUid, credential := credential }
          log := .approved stableUid now :: w.log }
      else w

def World.finishQrLogin (w : World) : World :=
  { w with row := w.row.map fun r => { r with status := .done, credential := none }, log := .finished :: w.log }

/-- How WebUntis, or the database, answers. -/
inductive Outcome where
  | accepted
  | wantsCode
  | refused
  deriving DecidableEq, Repr

/-- What a step of a poll reads of the world around it. -/
structure Reading where
  adopted : Bool
  outcome : Outcome
  /-- The id that a new account would get. -/
  stableUid : String
  deriving DecidableEq, Repr

def World.next (w : World) (p : Poll) : World := { w with polls := p :: w.polls }

/-- The next step of a poll. -/
def World.goOn (w : World) (t : Reading) : Poll → World
  | .findUser stableUid => w.next (.finishThenSignIn (w.users.find? (·.stableUid = stableUid)))
  | .finishThenSignIn user =>
      match user with
      | none => w.finishQrLogin
      | some user => w.finishQrLogin.next (.signInLocalAccount user)
  | .signInLocalAccount user => { w with log := .answered user.stableUid :: w.log }
  | .adoptAppSession stableUid handed =>
      let adopted := handed.sessionId.isSome && t.adopted
      if !adopted && handed.key.isNone && handed.password.isNone then w.next (.finishQrLogin false)
      else w.next (.signInWebsite stableUid handed)
  | .signInWebsite stableUid handed =>
      let schoolId := (handed.school.bind x.parseSchool).getD x.defaultSchool
      match t.outcome with
      | .accepted => w.next (.completeWebUntisLogin stableUid handed.username schoolId)
      -- the code stays, for the website to ask again with the second factor
      | .wantsCode => w
      | .refused => w.next (.finishQrLogin false)
  | .completeWebUntisLogin _ username schoolId =>
      match w.users.find? (·.username = username) with
      | some user =>
          if user.schoolId.any (· ≠ schoolId) || t.outcome ≠ .accepted then w.next (.finishQrLogin false)
          else w.next (.answer user.stableUid)
      | none =>
          let created : User := ⟨t.stableUid, username, true, some schoolId⟩
          { w with users := w.users ++ [created] }.next (.answer created.stableUid)
  | .answer stableUid =>
      -- the account's session may fail to open
      if t.outcome ≠ .accepted then w.next (.finishQrLogin false)
      else { w with log := .answered stableUid :: w.log }.next (.finishQrLogin true)
  | .finishQrLogin _ => w.finishQrLogin

inductive Move where
  | poll (now : Time)
  | goOn (poll : Poll) (t : Reading)
  | approve (stableUid : String) (body : ApproveBody)
  | approveQrLogin (stableUid : String) (credential : Option QrCredential) (now : Time)
  | cleanupQrLogins (now : Time)
  /-- A request fails or its process ends. -/
  | giveUp (poll : Poll)
  | giveUpApproval (stableUid : String) (credential : Option QrCredential)
  /-- Other requests change the accounts. -/
  | accounts (users : List User)
  deriving DecidableEq, Repr

def World.step (w : World) : Move → Option World
  | .poll now => if w.clock ≤ now then some ({ w with clock := now }.pollQrLogin now) else none
  | .goOn poll t => if poll ∈ w.polls then some ({ w with polls := w.polls.erase poll }.goOn x t poll) else none
  | .approve stableUid body =>
      some (((w.users.find? (·.stableUid = stableUid)).bind (handedOver x · body)).elim w fun credential =>
        { w with approvals := (stableUid, credential) :: w.approvals })
  | .approveQrLogin stableUid credential now =>
      if (stableUid, credential) ∈ w.approvals && w.clock ≤ now then
        some ({ w with approvals := w.approvals.erase (stableUid, credential), clock := now }.approveQrLogin
          stableUid credential now)
      else none
  | .cleanupQrLogins now =>
      if w.clock ≤ now then some { w with clock := now, row := w.row.filter fun r => !(r.expiresAt < now) } else none
  | .giveUp poll => if poll ∈ w.polls then some { w with polls := w.polls.erase poll } else none
  | .giveUpApproval stableUid credential => some { w with approvals := w.approvals.erase (stableUid, credential) }
  | .accounts users => some { w with users := users }

/-! ### What should hold -/

/-- What must be so of an event after what was before it, for a code that expires then. -/
def Event.Holds (expiresAt : Time) : Event → List Event → Prop
  | .passed now, earlier => now < expiresAt ∧ .finished ∉ earlier ∧ ∃ stableUid at', .approved stableUid at' ∈ earlier
  | .answered stableUid, earlier =>
      (∀ other, .answered other ∉ earlier) ∧ (∃ now, .passed now ∈ earlier) ∧ ∃ now, .approved stableUid now ∈ earlier
  | _, _ => True

/-- A poll finds the code approved when no other one has, and has yet to answer or to finish the code; none that has
answered ends before that; and the name that was handed over still leads to the account that approved. -/
def World.careful (w : World) : Move → Bool
  | .poll now => w.row.all (fun r => r.status ≠ .approved || r.expiresAt ≤ now) || w.polls.all (!·.isLive)
  | .goOn (.completeWebUntisLogin stableUid username _) _ =>
      (w.users.find? (·.username = username)).any (·.stableUid = stableUid)
  | .giveUp poll => poll ≠ .finishQrLogin true
  | _ => true

/-! ### What every careful step keeps -/

/-- The account that a poll would sign in, or that approved. -/
def Poll.account : Poll → Option String
  | .findUser stableUid | .adoptAppSession stableUid _ | .signInWebsite stableUid _
  | .completeWebUntisLogin stableUid _ _ | .answer stableUid => some stableUid
  | .finishThenSignIn user => user.map User.stableUid
  | .signInLocalAccount user => some user.stableUid
  | .finishQrLogin _ => none

variable {x} {w w' : World} {expiresAt : Time}

/-- **The invariant of careful runs.** -/
structure Kept (expiresAt : Time) (w : World) : Prop where
  backed : Backed (Event.Holds expiresAt) w.log
  expires : ∀ r, w.row = some r → r.expiresAt = expiresAt
  approved : ∀ r, w.row = some r → r.status = .approved →
    ∃ stableUid now, r.stableUid = some stableUid ∧ .approved stableUid now ∈ w.log
  finished : .finished ∈ w.log → ∀ r, w.row = some r → r.status = .done
  accounts : ∀ p ∈ w.polls, ∀ stableUid, p.account = some stableUid →
    (∃ now, .passed now ∈ w.log) ∧ ∃ now, .approved stableUid now ∈ w.log
  /-- One poll at a time. -/
  alone : (w.polls.filter Poll.isLive).length ≤ 1
  once : ∀ p ∈ w.polls, p.isLive = true → p ≠ .finishQrLogin true → ∀ stableUid, .answered stableUid ∉ w.log
  used : ∀ stableUid, .answered stableUid ∈ w.log →
    (∀ r, w.row = some r → r.status = .done) ∨ .finishQrLogin true ∈ w.polls
  /-- A local account is signed in after the code is finished. -/
  signingIn : ∀ user, .signInLocalAccount user ∈ w.polls → .finished ∈ w.log

theorem kept_started (users : List User) (expiresAt : Time) : Kept expiresAt (.started users expiresAt) where
  backed := trivial
  expires := fun r hr => by cases hr; rfl
  approved := fun r hr hstatus => by cases hr; cases hstatus
  finished := nofun
  accounts := nofun
  alone := Nat.zero_le _
  once := nofun
  used := nofun
  signingIn := nofun

/-- Beside a live poll there is no other. -/
theorem Kept.alone_of_mem (h : Kept expiresAt w) {p : Poll} (hp : p ∈ w.polls) (hlive : p.isLive = true) :
    (w.polls.erase p).filter Poll.isLive = [] := by
  have hperm := (List.perm_cons_erase hp).filter Poll.isLive
  have hlength := hperm.length_eq
  rw [List.filter_cons_of_pos hlive, List.length_cons] at hlength
  exact List.eq_nil_of_length_eq_zero (by have := h.alone; omega)

/-- A poll that has ended, not before the code is finished where it has answered. -/
theorem Kept.erase (h : Kept expiresAt w) {p : Poll} (hp : p ≠ .finishQrLogin true ∨ .finished ∈ w.log) :
    Kept expiresAt { w with polls := w.polls.erase p } :=
  { h with
    accounts := fun q hq => h.accounts q (List.mem_of_mem_erase hq)
    alone := Nat.le_trans (List.Sublist.filter _ List.erase_sublist).length_le h.alone
    once := fun q hq => h.once q (List.mem_of_mem_erase hq)
    used := fun stableUid hmem => by
      rcases hp with hp | hfinished
      · exact (h.used stableUid hmem).imp_right fun hfinish => (List.mem_erase_of_ne (Ne.symm hp)).mpr hfinish
      · exact .inl (h.finished hfinished)
    signingIn := fun user hmem => h.signingIn user (List.mem_of_mem_erase hmem) }

/-- A live poll goes on, and is not yet to answer. -/
theorem Kept.goesOn (h : Kept expiresAt w) {p q : Poll} (hp : p ∈ w.polls) (hlive : p.isLive = true)
    (hopen : p ≠ .finishQrLogin true)
    (haccount : ∀ stableUid, q.account = some stableUid → p.account = some stableUid)
    (hq : ∀ user, q = .signInLocalAccount user → .finished ∈ w.log) (hqopen : q ≠ .finishQrLogin true) :
    Kept expiresAt { w with polls := q :: w.polls.erase p } :=
  { h with
    accounts := fun r hr stableUid hstableUid => by
      rcases List.mem_cons.mp hr with rfl | hold
      · exact h.accounts p hp stableUid (haccount stableUid hstableUid)
      · exact h.accounts r (List.mem_of_mem_erase hold) stableUid hstableUid
    alone := by
      rw [List.filter_cons, h.alone_of_mem hp hlive]
      split <;> simp
    once := fun r hr hrlive hropen => by
      rcases List.mem_cons.mp hr with rfl | hold
      · exact h.once p hp hlive hopen
      · exact h.once r (List.mem_of_mem_erase hold) hrlive hropen
    used := fun stableUid hmem => absurd hmem (h.once p hp hlive hopen stableUid)
    signingIn := fun user hmem => (List.mem_cons.mp hmem).elim (fun heq => hq user heq.symm) fun hold =>
      h.signingIn user (List.mem_of_mem_erase hold) }

/-- The code is finished. -/
theorem Kept.finishQrLogin (h : Kept expiresAt w) : Kept expiresAt w.finishQrLogin := by
  have hdone : ∀ r, w.finishQrLogin.row = some r → r.status = .done := fun r hr => by
    obtain ⟨r', -, rfl⟩ := Option.map_eq_some_iff.mp hr
    rfl
  exact
    { backed := ⟨trivial, h.backed⟩
      expires := fun r hr => by
        obtain ⟨r', hr', rfl⟩ := Option.map_eq_some_iff.mp hr
        exact h.expires r' hr'
      approved := fun r hr hstatus => by
        rw [hdone r hr] at hstatus
        cases hstatus
      finished := fun _ => hdone
      accounts := fun p hp stableUid haccount => by
        obtain ⟨⟨now, hpassed⟩, at', happroved⟩ := h.accounts p hp stableUid haccount
        exact ⟨⟨now, List.mem_cons_of_mem _ hpassed⟩, at', List.mem_cons_of_mem _ happroved⟩
      alone := h.alone
      once := fun p hp hlive hopen stableUid hmem =>
        h.once p hp hlive hopen stableUid ((List.mem_cons.mp hmem).resolve_left nofun)
      used := fun stableUid hmem => .inl hdone
      signingIn := fun user hmem => List.mem_cons_self }

/-- A poll that signs in: the only one that ever does. -/
theorem Kept.answered (h : Kept expiresAt w) {p : Poll} (hp : p ∈ w.polls) (hlive : p.isLive = true)
    (hopen : p ≠ .finishQrLogin true) {stableUid : String} (haccount : p.account = some stableUid) :
    Event.Holds expiresAt (.answered stableUid) w.log :=
  ⟨h.once p hp hlive hopen, h.accounts p hp stableUid haccount⟩

theorem Kept.signInLocalAccount (h : Kept expiresAt w) {user : User} (hp : .signInLocalAccount user ∈ w.polls) :
    Kept expiresAt
      { w with polls := w.polls.erase (.signInLocalAccount user), log := .answered user.stableUid :: w.log } := by
  have hfinished := h.signingIn user hp
  have hk := h.erase (p := .signInLocalAccount user) (.inl nofun)
  exact
    { hk with
      backed := ⟨h.answered hp rfl nofun rfl, h.backed⟩
      approved := fun r hr hstatus => by
        obtain ⟨stableUid, now, hstableUid, hmem⟩ := h.approved r hr hstatus
        exact ⟨stableUid, now, hstableUid, List.mem_cons_of_mem _ hmem⟩
      finished := fun _ => h.finished hfinished
      accounts := fun q hq stableUid haccount => by
        obtain ⟨⟨now, hpassed⟩, at', happroved⟩ := hk.accounts q hq stableUid haccount
        exact ⟨⟨now, List.mem_cons_of_mem _ hpassed⟩, at', List.mem_cons_of_mem _ happroved⟩
      once := fun q hq hlive => by
        have hmem : q ∈ (w.polls.erase (.signInLocalAccount user)).filter Poll.isLive := List.mem_filter.mpr ⟨hq, hlive⟩
        rw [h.alone_of_mem hp rfl] at hmem
        cases hmem
      used := fun _ _ => .inl (h.finished hfinished)
      signingIn := fun other hmem => List.mem_cons_of_mem _ (hk.signingIn other hmem) }

theorem Kept.answer (h : Kept expiresAt w) {stableUid : String} (hp : .answer stableUid ∈ w.polls) :
    Kept expiresAt
      { w with polls := .finishQrLogin true :: w.polls.erase (.answer stableUid), log := .answered stableUid :: w.log } := by
  have hk := h.erase (p := .answer stableUid) (.inl nofun)
  have hnone := h.alone_of_mem hp rfl
  exact
    { hk with
      backed := ⟨h.answered hp rfl nofun rfl, h.backed⟩
      approved := fun r hr hstatus => by
        obtain ⟨approver, now, hstableUid, hmem⟩ := h.approved r hr hstatus
        exact ⟨approver, now, hstableUid, List.mem_cons_of_mem _ hmem⟩
      finished := fun hmem => h.finished ((List.mem_cons.mp hmem).resolve_left nofun)
      accounts := fun q hq approver haccount => by
        rcases List.mem_cons.mp hq with rfl | hold
        · cases haccount
        · obtain ⟨⟨now, hpassed⟩, at', happroved⟩ := hk.accounts q hold approver haccount
          exact ⟨⟨now, List.mem_cons_of_mem _ hpassed⟩, at', List.mem_cons_of_mem _ happroved⟩
      alone := by
        rw [List.filter_cons, hnone]
        simp [Poll.isLive]
      once := fun q hq hlive hopen => by
        have hold := (List.mem_cons.mp hq).resolve_left hopen
        have hmem : q ∈ (w.polls.erase (.answer stableUid)).filter Poll.isLive := List.mem_filter.mpr ⟨hold, hlive⟩
        rw [hnone] at hmem
        cases hmem
      used := fun _ _ => .inr List.mem_cons_self
      signingIn := fun other hmem =>
        List.mem_cons_of_mem _ (hk.signingIn other ((List.mem_cons.mp hmem).resolve_left nofun)) }

theorem Kept.goOn (h : Kept expiresAt w) {p : Poll} (hp : p ∈ w.polls) (t : Reading)
    (hcareful : w.careful (.goOn p t) = true) : Kept expiresAt ({ w with polls := w.polls.erase p }.goOn x t p) := by
  cases p with
  | findUser stableUid =>
      refine h.goesOn hp rfl nofun (fun uid haccount => ?_) nofun nofun
      obtain ⟨user, huser, rfl⟩ := Option.map_eq_some_iff.mp haccount
      have hfound := List.find?_some huser
      rw [decide_eq_true_eq] at hfound
      exact congrArg some hfound.symm
  | finishThenSignIn user =>
      cases user with
      | none => exact (h.erase (p := .finishThenSignIn none) (.inl nofun)).finishQrLogin
      | some user =>
          refine h.finishQrLogin.goesOn hp rfl nofun (fun uid haccount => ?_) (fun _ _ => List.mem_cons_self) nofun
          cases haccount
          rfl
  | signInLocalAccount user => exact h.signInLocalAccount hp
  | adoptAppSession stableUid handed =>
      simp only [World.goOn]
      split
      · exact h.goesOn hp rfl nofun nofun nofun nofun
      · exact h.goesOn hp rfl nofun (fun _ haccount => haccount) nofun nofun
  | signInWebsite stableUid handed =>
      simp only [World.goOn]
      split
      · exact h.goesOn hp rfl nofun (fun _ haccount => haccount) nofun nofun
      · exact h.erase (.inl nofun)
      · exact h.goesOn hp rfl nofun nofun nofun nofun
  | completeWebUntisLogin stableUid username schoolId =>
      obtain ⟨user, huser, hsame⟩ := (Option.any_eq_true _ _).mp hcareful
      rw [decide_eq_true_eq] at hsame
      simp only [World.goOn, huser]
      split
      · exact h.goesOn hp rfl nofun nofun nofun nofun
      · refine h.goesOn hp rfl nofun (fun uid haccount => ?_) nofun nofun
        cases haccount
        exact congrArg some hsame.symm
  | answer stableUid =>
      simp only [World.goOn]
      split
      · exact h.goesOn hp rfl nofun nofun nofun nofun
      · exact h.answer hp
  | finishQrLogin answered => exact h.finishQrLogin.erase (.inr List.mem_cons_self)

theorem Kept.pollQrLogin (h : Kept expiresAt w) {now : Time} (hcareful : w.careful (.poll now) = true) :
    Kept expiresAt (w.pollQrLogin now) := by
  simp only [World.pollQrLogin]
  split
  case h_1 => exact h
  case h_2 r hr =>
    split
    case isTrue => exact h
    case isFalse hlive =>
      rw [Bool.or_eq_true, decide_eq_true_eq, decide_eq_true_eq, not_or, Nat.not_le] at hlive
      split
      case h_2 => exact h
      case h_1 stableUid hstatus hstableUid =>
        split
        case isTrue => exact h
        case isFalse =>
          obtain ⟨approver, at', happrover, happroved⟩ := h.approved r hr hstatus
          obtain rfl : stableUid = approver := Option.some.inj (hstableUid.symm.trans happrover)
          have hnotFinished : .finished ∉ w.log := fun hmem => hlive.1 (h.finished hmem r hr)
          have hothers : ∀ q ∈ w.polls, q.isLive = false := by
            intro q hq
            have hor : r.expiresAt ≤ now ∨ ∀ q ∈ w.polls, q.isLive = false := by
              simpa [World.careful, hr, hstatus] using hcareful
            exact hor.resolve_left (Nat.not_le.mpr hlive.2) q hq
          have hnotAnswered : ∀ uid, .answered uid ∉ w.log := fun uid hmem => by
            rcases h.used uid hmem with hdone | hfinish
            · exact hlive.1 (hdone r hr)
            · cases hothers _ hfinish
          have hnew : ∀ q, (r.credential = none → q = .findUser stableUid) →
              (∀ handed, r.credential = some handed → q = .adoptAppSession stableUid handed) →
              Kept expiresAt { w with polls := q :: w.polls, log := .passed now :: w.log } := by
            intro q hnone hsome
            have hkind : q.account = some stableUid ∧ q ≠ .finishQrLogin true ∧ ∀ user, q ≠ .signInLocalAccount user := by
              cases hcredential : r.credential with
              | none =>
                  rw [hnone hcredential]
                  exact ⟨rfl, nofun, nofun⟩
              | some handed =>
                  rw [hsome handed hcredential]
                  exact ⟨rfl, nofun, nofun⟩
            exact
              { backed := ⟨⟨h.expires r hr ▸ hlive.2, hnotFinished, stableUid, at', happroved⟩, h.backed⟩
                expires := h.expires
                approved := fun r' hr' hstatus' => by
                  obtain ⟨uid, at'', huid, hmem⟩ := h.approved r' hr' hstatus'
                  exact ⟨uid, at'', huid, List.mem_cons_of_mem _ hmem⟩
                finished := fun hmem => h.finished ((List.mem_cons.mp hmem).resolve_left nofun)
                accounts := fun q' hq' uid huid => by
                  rcases List.mem_cons.mp hq' with rfl | hold
                  · obtain rfl : stableUid = uid := Option.some.inj (hkind.1.symm.trans huid)
                    exact ⟨⟨now, List.mem_cons_self⟩, at', List.mem_cons_of_mem _ happroved⟩
                  · obtain ⟨⟨at₁, hpassed⟩, at₂, hmem⟩ := h.accounts q' hold uid huid
                    exact ⟨⟨at₁, List.mem_cons_of_mem _ hpassed⟩, at₂, List.mem_cons_of_mem _ hmem⟩
                alone := by
                  have hnil : w.polls.filter Poll.isLive = [] :=
                    List.filter_eq_nil_iff.mpr fun q' hq' hlive' => by
                      rw [hothers q' hq'] at hlive'
                      cases hlive'
                  rw [List.filter_cons, hnil]
                  split <;> simp
                once := fun _ _ _ _ uid hmem => hnotAnswered uid ((List.mem_cons.mp hmem).resolve_left nofun)
                used := fun uid hmem => absurd ((List.mem_cons.mp hmem).resolve_left nofun) (hnotAnswered uid)
                signingIn := fun user hmem => List.mem_cons_of_mem _ (h.signingIn user
                  ((List.mem_cons.mp hmem).resolve_left fun heq => hkind.2.2 user heq.symm)) }
          refine hnew _ (fun hnone => ?_) fun handed hsome => ?_
          · rw [hnone]
          · rw [hsome]

theorem Kept.approveQrLogin (h : Kept expiresAt w) (stableUid : String) (credential : Option QrCredential) (now : Time) :
    Kept expiresAt (w.approveQrLogin stableUid credential now) := by
  simp only [World.approveQrLogin]
  split
  case h_1 => exact h
  case h_2 r hr =>
    split
    case isFalse => exact h
    case isTrue hpending =>
      rw [Bool.and_eq_true, decide_eq_true_eq] at hpending
      have hnotDone : r.status ≠ .done := by rw [hpending.1]; nofun
      exact
        { backed := ⟨trivial, h.backed⟩
          expires := fun r' hr' => by
            cases hr'
            exact h.expires r hr
          approved := fun r' hr' _ => by
            cases hr'
            exact ⟨stableUid, now, rfl, List.mem_cons_self⟩
          finished := fun hmem => absurd (h.finished ((List.mem_cons.mp hmem).resolve_left nofun) r hr) hnotDone
          accounts := fun q hq uid huid => by
            obtain ⟨⟨at₁, hpassed⟩, at₂, hmem⟩ := h.accounts q hq uid huid
            exact ⟨⟨at₁, List.mem_cons_of_mem _ hpassed⟩, at₂, List.mem_cons_of_mem _ hmem⟩
          alone := h.alone
          once := fun q hq hlive hopen uid hmem => h.once q hq hlive hopen uid ((List.mem_cons.mp hmem).resolve_left nofun)
          used := fun uid hmem => by
            rcases h.used uid ((List.mem_cons.mp hmem).resolve_left nofun) with hdone | hfinish
            · exact absurd (hdone r hr) hnotDone
            · exact .inr hfinish
          signingIn := fun user hmem => List.mem_cons_of_mem _ (h.signingIn user hmem) }

theorem Kept.step {m : Move} (h : Kept expiresAt w) (hcareful : w.careful m = true) (hstep : w.step x m = some w') :
    Kept expiresAt w' := by
  cases m with
  | poll now =>
      obtain ⟨-, heq⟩ := Option.ite_none_right_eq_some.mp hstep
      cases heq
      exact Kept.pollQrLogin (w := { w with clock := now }) { h with } hcareful
  | goOn p t =>
      obtain ⟨hp, heq⟩ := Option.ite_none_right_eq_some.mp hstep
      cases heq
      exact h.goOn hp t hcareful
  | approve stableUid body =>
      cases hstep
      cases (w.users.find? (·.stableUid = stableUid)).bind (handedOver x · body) with
      | none => exact h
      | some credential => exact { h with }
  | approveQrLogin stableUid credential now =>
      obtain ⟨-, heq⟩ := Option.ite_none_right_eq_some.mp hstep
      cases heq
      have hk : Kept expiresAt { w with approvals := w.approvals.erase (stableUid, credential), clock := now } := { h with }
      exact hk.approveQrLogin stableUid credential now
  | cleanupQrLogins now =>
      obtain ⟨-, heq⟩ := Option.ite_none_right_eq_some.mp hstep
      cases heq
      have hrow : ∀ r, w.row.filter (fun r => !(r.expiresAt < now)) = some r → w.row = some r := fun r hr =>
        (Option.filter_eq_some_iff.mp hr).1
      exact
        { h with
          expires := fun r hr => h.expires r (hrow r hr)
          approved := fun r hr => h.approved r (hrow r hr)
          finished := fun hmem r hr => h.finished hmem r (hrow r hr)
          used := fun uid hmem => (h.used uid hmem).imp_left fun hdone r hr => hdone r (hrow r hr) }
  | giveUp p =>
      obtain ⟨-, heq⟩ := Option.ite_none_right_eq_some.mp hstep
      cases heq
      exact h.erase (.inl (of_decide_eq_true hcareful))
  | giveUpApproval stableUid credential =>
      cases hstep
      exact { h with }
  | accounts users =>
      cases hstep
      exact { h with }

/-! ### A code works once -/

/-- **A code signs in at most once, as the account that approved it, and only a poll that found it approved, not expired
and not finished**, in every careful run. -/
theorem code_works_once {users : List User} {moves : List Move} (hrun : run (World.step x) (.started users expiresAt) moves = some w)
    (hcareful : Meets (World.step x) (fun w m => w.careful m = true) (.started users expiresAt) moves) :
    Backed (Event.Holds expiresAt) w.log :=
  (run_invariant_of_meets (P := Kept expiresAt) (fun _ _ _ => Kept.step) (kept_started users expiresAt) hcareful hrun).backed

def oneSchool : Schools := ⟨fun name => some name, "tfo"⟩

def anna : User := ⟨"uid-anna", "anna", true, some "tfo"⟩

/-- What anna's app hands over. -/
def annaCredential : QrCredential := ⟨"anna", some "secret", none, none, none⟩

def annaApproves : List Move :=
  [.approve "uid-anna" ⟨some "anna", some "secret", none, none, none⟩,
    .approveQrLogin "uid-anna" (some annaCredential) 1000]

/-- A poll that WebUntis lets in, from its first step to its answer. -/
def signsIn (poll : Poll) : List Move :=
  let t : Reading := ⟨false, .accepted, ""⟩
  [.goOn poll t, .goOn (.signInWebsite "uid-anna" annaCredential) t,
    .goOn (.completeWebUntisLogin "uid-anna" "anna" "tfo") t, .goOn (.answer "uid-anna") t]

theorem code_works_once_anna : ∃ w, run (World.step oneSchool) (.started [anna] 120000)
    (annaApproves ++ [.poll 2000] ++ signsIn (.adoptAppSession "uid-anna" annaCredential) ++
      [.goOn (.finishQrLogin true) ⟨false, .accepted, ""⟩, .poll 3000]) = some w ∧
    .answered "uid-anna" ∈ w.log ∧ w.polls = [] ∧ Backed (Event.Holds 120000) w.log := by
  have hgives : (run (World.step oneSchool) (.started [anna] 120000)
    (annaApproves ++ [.poll 2000] ++ signsIn (.adoptAppSession "uid-anna" annaCredential) ++
      [.goOn (.finishQrLogin true) ⟨false, .accepted, ""⟩, .poll 3000])).any
        (fun w => .answered "uid-anna" ∈ w.log && w.polls = []) = true := by decide +kernel
  obtain ⟨w, hrun, hw⟩ := (Option.any_eq_true _ _).mp hgives
  rw [Bool.and_eq_true, decide_eq_true_eq, decide_eq_true_eq] at hw
  exact ⟨w, hrun, hw.1, hw.2, code_works_once hrun (by decide +kernel)⟩

/-- **Two polls sign in**: both find the code approved before one of them has finished it. -/
theorem two_polls_sign_in : ∃ w, run (World.step oneSchool) (.started [anna] 120000)
    (annaApproves ++ [.poll 2000, .poll 2500] ++ signsIn (.adoptAppSession "uid-anna" annaCredential) ++
      signsIn (.adoptAppSession "uid-anna" annaCredential)) = some w ∧ ¬ Backed (Event.Holds 120000) w.log := by
  have hgives : (run (World.step oneSchool) (.started [anna] 120000)
    (annaApproves ++ [.poll 2000, .poll 2500] ++ signsIn (.adoptAppSession "uid-anna" annaCredential) ++
      signsIn (.adoptAppSession "uid-anna" annaCredential))).any
        (fun w => w.log.take 2 = [.answered "uid-anna", .answered "uid-anna"]) = true := by decide +kernel
  obtain ⟨w, hrun, hw⟩ := (Option.any_eq_true _ _).mp hgives
  refine ⟨w, hrun, fun hbacked => ?_⟩
  rw [← List.take_append_drop 2 w.log, of_decide_eq_true hw] at hbacked
  exact hbacked.1.1 "uid-anna" List.mem_cons_self

end Pokyh.Account.QrLogin

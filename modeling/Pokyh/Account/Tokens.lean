import Mathlib.Algebra.Order.Round
import Mathlib.Data.Rat.Floor
import Mathlib.Logic.Function.Basic
import Mathlib.Tactic.Linarith
import Pokyh.Lib.Logs
import Pokyh.Lib.Runs

/-!
# Account — Tokens

Access tokens and what ends them early (`utils/revokedTokens.ts`, `middleware/auth.ts`): revocations of an account's
tokens and of a session, kept in the memory of a process for as long as a token may live, stored, and loaded
again after a restart.

* `Event.Admitted`: a token that is accepted was not revoked; `Event.Justified`: one that is refused as revoked was.
* `revoked_tokens_refused`: **nothing is refused without a revocation**, and no revoked token is accepted in runs
  whose lifetimes are read right, that load what is stored before they let anybody in, and whose grace times end
  before revocations are forgotten.
* `expired_token_accepted`: a revoked token that is accepted within its grace time.
-/

namespace Pokyh.Account.Tokens
open Pokyh.Lib

/-- Milliseconds. -/
abbrev Time := ℕ

/-! ### The lifetime of a token -/

/-- A white-space character of a regular expression's `\s`, and of `trim`. -/
def isSpace (c : Char) : Bool :=
  ('\t' ≤ c && c ≤ '\r') || c ∈ [' ', '\u00a0', '\u1680', '\u2028', '\u2029', '\u202f', '\u205f', '\u3000', '\ufeff'] ||
    ('\u2000' ≤ c && c ≤ '\u200a')

/-- The Kelvin sign is the only other character whose lower case is an ASCII letter. -/
def toLowerCase (c : Char) : Char := if c = '\u212a' then 'k' else c.toLower

def trim (text : List Char) : List Char := ((text.dropWhile isSpace).reverse.dropWhile isSpace).reverse

def UNIT_MS : List (List String × ℕ) :=
  [(["ms", "msec", "msecs", "millisecond", "milliseconds"], 1),
    (["s", "sec", "secs", "second", "seconds"], 1000),
    (["m", "min", "mins", "minute", "minutes"], 60000),
    (["h", "hr", "hrs", "hour", "hours"], 3600000),
    (["d", "day", "days"], 86400000),
    (["w", "week", "weeks"], 604800000),
    (["y", "yr", "yrs", "year", "years"], 31557600000)]

def unitMs (unit : List Char) : Option ℕ := (UNIT_MS.find? fun u => String.ofList unit ∈ u.1).map Prod.snd

def digitsValue (digits : List Char) : ℕ := digits.foldl (fun n c => 10 * n + (c.toNat - '0'.toNat)) 0

/-- What `\d+(?:\.\d+)?` matches at the beginning, and what is left. -/
def parseNumber (text : List Char) : Option (ℚ × List Char) :=
  let whole := text.takeWhile Char.isDigit
  if whole = [] then none
  else
    match text.dropWhile Char.isDigit with
    | '.' :: rest =>
        let fraction := rest.takeWhile Char.isDigit
        if fraction = [] then some (digitsValue whole, '.' :: rest)
        else some (digitsValue whole + digitsValue fraction / 10 ^ fraction.length, rest.dropWhile Char.isDigit)
    | rest => some (digitsValue whole, rest)

/-- The lifetime that a span of time names. -/
def tokenLifetimeMs (value : String) (fallbackMs : ℚ) : ℚ :=
  match parseNumber ((trim value.toList).map toLowerCase) with
  | some (n, []) => if 0 < n then n else fallbackMs
  | some (n, rest) =>
      match unitMs (rest.dropWhile isSpace) with
      | some unit => if 0 < n * unit then n * unit else fallbackMs
      | none => fallbackMs
  | none => fallbackMs

example : tokenLifetimeMs "2.5 Days" 0 = 216000000 := by decide +kernel

/-- The settings, and the milliseconds that the signing library reads a span as. -/
structure Config where
  jwtExpiresIn : String
  sessionMaxAgeMs : Time
  ms : String → Option ℚ

variable (x : Config)

def FALLBACK_LIFE_MS : ℚ := 24 * 60 * 60 * 1000

def Config.JWT_MAX_LIFE_MS : ℚ := tokenLifetimeMs x.jwtExpiresIn FALLBACK_LIFE_MS

def Config.SESSION_REVOCATION_LIFE_MS : ℚ := max x.JWT_MAX_LIFE_MS x.sessionMaxAgeMs

/-! ### The process, its memory and the database -/

structure JwtPayload where
  stableUid : String
  username : String
  klasseId : ℤ
  klasseName : String
  role : String
  sid : Option String
  deriving DecidableEq, Repr

/-- A signed token. -/
structure Token where
  aud : Option String
  payload : JwtPayload
  /-- In seconds, as `exp`. -/
  iat : ℕ
  exp : ℤ
  deriving DecidableEq, Repr

def APP_AUDIENCE : String := "pokyh-app"

/-- The session that a token names. -/
def Token.session (token : Token) : Option String := token.payload.sid.filter (· ≠ "")

structure Entry where
  revokedAtSec : ℕ
  expiresAt : ℚ
  deriving DecidableEq

/-- A call between two of its steps. -/
inductive Call where
  | persist (stableUid : String) (revokedAt : Time)
  | updateSessions (ids : List String) (revokedAt : Time)
  /-- Notes about sessions; `loaded` after a start. -/
  | noteSessions (rows : List (String × Time)) (loaded : Bool)
  | noteTokens (rows : List (String × Time))
  deriving DecidableEq, Repr

/-- What a run is about, as it happens. -/
inductive Event where
  | revokedTokens (stableUid : String) (revokedAt : Time)
  /-- With when it is noted. -/
  | revokedSession (sid : String) (revokedAt now : Time)
  | accepted (token : Token) (now : Time)
  /-- Refused, and only because it counts as revoked. -/
  | refused (token : Token) (now : Time)
  deriving DecidableEq, Repr

structure World where
  map : String → Option Entry
  revokedSessions : String → Option ℚ
  /-- Whether the stored revocations have been noted since the start. -/
  tokensLoaded : Bool
  sessionsLoaded : Bool
  calls : List Call
  /-- What has been signed. -/
  tokens : List Token
  /-- The table `token_revocations`. -/
  stored : List (String × Time)
  /-- The sessions and when they were revoked. -/
  sessions : List (String × Option Time)
  log : List Event
  clock : Time

/-- A process that has just started, with an empty database. -/
def World.empty : World := ⟨fun _ => none, fun _ => none, false, false, [], [], [], [], [], 0⟩

/-- One note about an account's tokens. -/
def World.noteTokenRevocation (w : World) (stableUid : String) (revokedAt now : Time) : World :=
  let expiresAt := revokedAt + x.JWT_MAX_LIFE_MS
  let revokedAtSec := revokedAt / 1000
  { w with
    map :=
      if stableUid = "" || expiresAt ≤ now || (w.map stableUid).any (revokedAtSec ≤ ·.revokedAtSec) then w.map
      else Function.update w.map stableUid (some ⟨revokedAtSec, expiresAt⟩)
    log := .revokedTokens stableUid revokedAt :: w.log }

def World.noteSessionRevocation (w : World) (sid : String) (revokedAt now : Time) : World :=
  let expiresAt := revokedAt + x.SESSION_REVOCATION_LIFE_MS
  { w with
    revokedSessions :=
      if sid = "" || expiresAt ≤ now then w.revokedSessions else Function.update w.revokedSessions sid (some expiresAt)
    log := .revokedSession sid revokedAt now :: w.log }

/-- Whether a token counts as revoked; a lapsed entry is dropped. -/
def World.isTokenRevoked (w : World) (stableUid : String) (issuedAtSec now : ℕ) : Bool × World :=
  match w.map stableUid with
  | none => (false, w)
  | some entry =>
      if entry.expiresAt < now then (false, { w with map := Function.update w.map stableUid none })
      else (issuedAtSec < entry.revokedAtSec, w)

def World.isSessionRevoked (w : World) (sid : Option String) (now : Time) : Bool × World :=
  match sid with
  | none => (false, w)
  | some sid =>
      match w.revokedSessions sid with
      | none => (false, w)
      | some expiresAt =>
          if expiresAt < now then (false, { w with revokedSessions := Function.update w.revokedSessions sid none })
          else (true, w)

/-- Whether a token, with a grace time after its expiry, is past it. -/
def Token.isExpired (token : Token) (graceSeconds : ℕ) (now : Time) : Bool := token.exp + graceSeconds ≤ (now / 1000 : ℕ)

/-- Whose requests a token is good for. -/
def World.verifyToken (w : World) (token : Token) (graceSeconds : ℕ) (now : Time) : Option JwtPayload × World :=
  if token.isExpired graceSeconds now then (none, w)
  else if token.aud.any (· ≠ APP_AUDIENCE) then (none, w)
  else if token.payload.stableUid = "" || token.payload.username = "" then (none, w)
  else
    let (tokenRevoked, w₁) := w.isTokenRevoked token.payload.stableUid token.iat now
    if tokenRevoked then (none, { w₁ with log := .refused token now :: w₁.log })
    else
      let (sessionRevoked, w₂) := w₁.isSessionRevoked token.session now
      if sessionRevoked then (none, { w₂ with log := .refused token now :: w₂.log })
      else (some { token.payload with sid := token.session }, { w₂ with log := .accepted token now :: w₂.log })

/-- A token signed now; the library rounds its expiry down to seconds. -/
def signJwt (payload : JwtPayload) (now : Time) : Option Token :=
  (x.ms x.jwtExpiresIn).map fun life => ⟨some APP_AUDIENCE, payload, now / 1000, ⌊((now / 1000 : ℕ) : ℚ) + life / 1000⌋⟩

/-- What is asked of the process, or happens to it. -/
inductive Request where
  | signJwt (payload : JwtPayload)
  | verifyToken (token : Token) (graceSeconds : ℕ)
  | revokeUserTokens (stableUid : String)
  | revokeSessionIds (ids : List String)
  /-- Another node's revocations arrive. -/
  | noteTokenRevocation (stableUid : String) (revokedAt : Time)
  | noteSessionRevocation (sid : String) (revokedAt : Time)
  /-- Sign-ins, clean-ups, deletions of accounts and other nodes change the tables. -/
  | database (stored : List (String × Time)) (sessions : List (String × Option Time))
  | restart
  | loadTokenRevocations
  | loadSessionRevocations
  deriving DecidableEq, Repr

def World.begin (w : World) (now : Time) : Request → World
  | .signJwt payload => { w with tokens := (signJwt x payload now).toList ++ w.tokens }
  | .verifyToken token graceSeconds => if token ∈ w.tokens then (w.verifyToken token graceSeconds now).2 else w
  | .revokeUserTokens stableUid =>
      let w' := w.noteTokenRevocation x stableUid now now
      { w' with calls := .persist stableUid now :: w'.calls }
  | .revokeSessionIds ids => if ids = [] then w else { w with calls := .updateSessions ids now :: w.calls }
  | .noteTokenRevocation stableUid revokedAt => w.noteTokenRevocation x stableUid revokedAt now
  | .noteSessionRevocation sid revokedAt => w.noteSessionRevocation x sid revokedAt now
  | .database stored sessions => { w with stored := stored, sessions := sessions }
  | .restart =>
      { w with
        map := fun _ => none, revokedSessions := fun _ => none
        tokensLoaded := false, sessionsLoaded := false, calls := [] }
  | .loadTokenRevocations =>
      { w with calls := .noteTokens (w.stored.filter fun r => now - x.JWT_MAX_LIFE_MS < r.2) :: w.calls }
  | .loadSessionRevocations =>
      let rows := w.sessions.filterMap fun r => r.2.map (r.1, ·)
      { w with calls := .noteSessions (rows.filter fun r => now - x.SESSION_REVOCATION_LIFE_MS < r.2) true :: w.calls }

/-- The next step of a call. -/
def World.goOn (w : World) (now : Time) : Call → World
  | .persist stableUid revokedAt => { w with stored := (stableUid, revokedAt) :: w.stored.filter (·.1 ≠ stableUid) }
  | .updateSessions ids revokedAt =>
      { w with
        sessions := w.sessions.map fun r => if r.1 ∈ ids && r.2 = none then (r.1, some revokedAt) else r
        calls := .noteSessions (ids.map (·, revokedAt)) false :: w.calls }
  | .noteSessions rows loaded =>
      let w' := rows.foldl (fun w r => w.noteSessionRevocation x r.1 r.2 now) w
      { w' with sessionsLoaded := loaded || w'.sessionsLoaded }
  | .noteTokens rows =>
      { rows.foldl (fun w r => w.noteTokenRevocation x r.1 r.2 now) w with tokensLoaded := true }

inductive Move where
  | begin (request : Request) (now : Time)
  | goOn (call : Call) (now : Time)
  /-- The query fails. -/
  | giveUp (call : Call)
  deriving DecidableEq, Repr

def World.step (w : World) : Move → Option World
  | .begin request now => if w.clock ≤ now then some ({ w with clock := now }.begin x now request) else none
  | .goOn call now =>
      if call ∈ w.calls && w.clock ≤ now then some ({ w with calls := w.calls.erase call, clock := now }.goOn x now call)
      else none
  | .giveUp call => if call ∈ w.calls then some { w with calls := w.calls.erase call } else none

/-! ### What should hold -/

/-- A token that is accepted is not of a session that was revoked, nor from an earlier second than a revocation of
its account. -/
def Event.Admitted : Event → List Event → Prop
  | .accepted token _, earlier =>
      (∀ sid revokedAt notedAt, token.session = some sid → .revokedSession sid revokedAt notedAt ∉ earlier) ∧
      ∀ revokedAt, .revokedTokens token.payload.stableUid revokedAt ∈ earlier → revokedAt / 1000 ≤ token.iat
  | _, _ => True

/-- A token that is refused as revoked is of a session that was revoked, or from an earlier second than a revocation
of its account. -/
def Event.Justified : Event → List Event → Prop
  | .refused token _, earlier =>
      (∃ sid revokedAt notedAt, token.session = some sid ∧ .revokedSession sid revokedAt notedAt ∈ earlier) ∨
      ∃ revokedAt, .revokedTokens token.payload.stableUid revokedAt ∈ earlier ∧ token.iat < revokedAt / 1000
  | _, _ => True

/-- When an account's tokens were revoked. -/
def revocationsOf (stableUid : String) (log : List Event) : List Time :=
  log.filterMap fun
    | .revokedTokens uid revokedAt => if uid = stableUid then some revokedAt else none
    | _ => none

/-- The notes about a session's revocation, each with when it was made. -/
def sessionNotes (sid : String) (log : List Event) : List (Time × Time) :=
  log.filterMap fun
    | .revokedSession s revokedAt now => if s = sid then some (revokedAt, now) else none
    | _ => none

/-- A note that is kept. -/
def noteMatters (n : Time × Time) : Bool := n.2 < n.1 + x.SESSION_REVOCATION_LIFE_MS

/-- When a session was revoked, as last noted; notes that came when they no longer mattered count where there are
no others. -/
def sessionRevokedAt (sid : String) (log : List Event) : Option Time :=
  (((sessionNotes sid log).filter (noteMatters x) ++ sessionNotes sid log).head?).map Prod.fst

/-- Every token from before the second of the revocation has expired. -/
def tokensLapsed (revokedAt now : Time) : Bool := (revokedAt / 1000 * 1000 : ℕ) + x.JWT_MAX_LIFE_MS ≤ now

def sessionLapsed (revokedAt now : Time) : Bool := revokedAt + x.SESSION_REVOCATION_LIFE_MS ≤ now

/-- The memory has the revocation of the account, or one of a later second. -/
def World.knowsTokens (w : World) (stableUid : String) (revokedAt now : Time) : Bool :=
  stableUid = "" || tokensLapsed x revokedAt now || (w.map stableUid).any (revokedAt / 1000 ≤ ·.revokedAtSec)

def World.knowsSession (w : World) (sid : String) (now : Time) : Bool :=
  (sessionRevokedAt x sid w.log).all fun revokedAt =>
    sid = "" || sessionLapsed x revokedAt now || (w.revokedSessions sid).isSome

/-- The account's revocations may end a token: the stored ones are loaded, and one of them is not forgotten before
the token ends. -/
def World.endsTokens (w : World) (token : Token) (graceSeconds : ℕ) (now : Time) : Bool :=
  let revocations := (revocationsOf token.payload.stableUid w.log).filter (token.iat < · / 1000)
  revocations = [] || (w.tokensLoaded && (graceSeconds = 0 || revocations.any fun revokedAt => !tokensLapsed x revokedAt now))

/-- The same of the revocation of its session, which a token that has no grace time must not be younger than. -/
def World.endsSession (w : World) (token : Token) (graceSeconds : ℕ) (now : Time) : Bool :=
  (token.session.bind (sessionRevokedAt x · w.log)).all fun revokedAt =>
    w.sessionsLoaded && (!sessionLapsed x revokedAt now || (graceSeconds = 0 && token.iat * 1000 ≤ revokedAt))

/-- The signing library reads the lifetime of a token as no longer than the revocations do.  What is loaded at a start has
every revocation that may still matter.  A token is looked at when that is loaded; with a grace time only while the
revocations that concern it are kept, and without one only if it was issued before its session was revoked. -/
def World.careful (w : World) : Move → Bool
  | .begin (.signJwt _) _ => (x.ms x.jwtExpiresIn).all (· ≤ x.JWT_MAX_LIFE_MS)
  | .begin (.verifyToken token graceSeconds) now =>
      token.isExpired graceSeconds now || (w.endsTokens x token graceSeconds now && w.endsSession x token graceSeconds now)
  | .goOn (.noteTokens rows) now =>
      w.log.all fun
        | .revokedTokens uid revokedAt =>
            w.knowsTokens x uid revokedAt now || rows.any fun r => r.1 = uid && revokedAt / 1000 ≤ r.2 / 1000
        | _ => true
  | .goOn (.noteSessions rows true) now =>
      w.log.all fun
        | .revokedSession sid _ _ => w.knowsSession x sid now || rows.any fun r => r.1 = sid && !sessionLapsed x r.2 now
        | _ => true
  | _ => true

/-! ### What the memory holds was noted -/

variable {x} {w w' : World} {log : List Event}

@[simp] theorem mem_revocationsOf {stableUid : String} {revokedAt : Time} :
    revokedAt ∈ revocationsOf stableUid log ↔ .revokedTokens stableUid revokedAt ∈ log := by
  simp only [revocationsOf, List.mem_filterMap]
  constructor
  · rintro ⟨e, he, heq⟩
    cases e with
    | revokedTokens uid at' =>
        obtain ⟨rfl, rfl⟩ := by simpa using heq
        exact he
    | revokedSession | accepted | refused => cases heq
  · exact fun he => ⟨_, he, by simp⟩

@[simp] theorem mem_sessionNotes {sid : String} {n : Time × Time} :
    n ∈ sessionNotes sid log ↔ .revokedSession sid n.1 n.2 ∈ log := by
  simp only [sessionNotes, List.mem_filterMap]
  constructor
  · rintro ⟨e, he, heq⟩
    cases e with
    | revokedSession s at' now =>
        obtain ⟨rfl, rfl⟩ := by simpa using heq
        exact he
    | revokedTokens | accepted | refused => cases heq
  · exact fun he => ⟨_, he, by simp⟩

theorem sessionRevokedAt_isSome {sid : String} {revokedAt notedAt : Time} (h : .revokedSession sid revokedAt notedAt ∈ log) :
    (sessionRevokedAt x sid log).isSome = true := by
  rw [sessionRevokedAt, Option.isSome_map, List.isSome_head?]
  intro hnil
  have hnotes := (List.append_eq_nil_iff.mp hnil).2
  have hmem : (revokedAt, notedAt) ∈ sessionNotes sid log := mem_sessionNotes.mpr h
  rw [hnotes] at hmem
  cases hmem

/-- **What the memory holds was noted**, in every run. -/
structure Noted (x : Config) (w : World) : Prop where
  map : ∀ uid e, w.map uid = some e → ∃ revokedAt : Time, .revokedTokens uid revokedAt ∈ w.log ∧
    e.revokedAtSec = revokedAt / 1000 ∧ e.expiresAt = revokedAt + x.JWT_MAX_LIFE_MS
  sessions : ∀ sid e, w.revokedSessions sid = some e → sid ≠ "" ∧
    ∃ n, ((sessionNotes sid w.log).filter (noteMatters x)).head? = some n ∧ e = n.1 + x.SESSION_REVOCATION_LIFE_MS
  justified : Backed Event.Justified w.log

theorem Noted.noteTokenRevocation (h : Noted x w) (uid : String) (revokedAt now : Time) :
    Noted x (w.noteTokenRevocation x uid revokedAt now) where
  map := fun uid' e he => by
    have hold : ∀ e, w.map uid' = some e → ∃ at', .revokedTokens uid' at' ∈ .revokedTokens uid revokedAt :: w.log ∧
        e.revokedAtSec = at' / 1000 ∧ e.expiresAt = at' + x.JWT_MAX_LIFE_MS := fun e he => by
      obtain ⟨at', hmem, hrest⟩ := h.map uid' e he
      exact ⟨at', List.mem_cons_of_mem _ hmem, hrest⟩
    simp only [World.noteTokenRevocation] at he
    split at he
    · exact hold e he
    · by_cases huid : uid' = uid
      · subst huid
        rw [Function.update_self] at he
        cases he
        exact ⟨revokedAt, List.mem_cons_self, rfl, rfl⟩
      · rw [Function.update_of_ne huid] at he
        exact hold e he
  sessions := h.sessions
  justified := ⟨trivial, h.justified⟩

/-- The notes about a session, with one more of some session. -/
theorem sessionNotes_cons {sid sid' : String} {revokedAt now : Time} :
    sessionNotes sid' (.revokedSession sid revokedAt now :: log) =
      if sid = sid' then (revokedAt, now) :: sessionNotes sid' log else sessionNotes sid' log := by
  by_cases h : sid = sid' <;> simp [sessionNotes, h]

theorem noteMatters_iff {revokedAt now : Time} :
    noteMatters x (revokedAt, now) = true ↔ ¬ (revokedAt : ℚ) + x.SESSION_REVOCATION_LIFE_MS ≤ now := by
  rw [noteMatters, decide_eq_true_eq, not_le]

theorem Noted.noteSessionRevocation (h : Noted x w) (sid : String) (revokedAt now : Time) :
    Noted x (w.noteSessionRevocation x sid revokedAt now) where
  map := fun uid e he => by
    obtain ⟨at', hmem, hrest⟩ := h.map uid e he
    exact ⟨at', List.mem_cons_of_mem _ hmem, hrest⟩
  sessions := fun sid' e he => by
    simp only [World.noteSessionRevocation] at he ⊢
    rw [sessionNotes_cons]
    by_cases hsid : sid = sid'
    · subst hsid
      rw [if_pos rfl, List.filter_cons]
      split at he
      case isTrue hno =>
        obtain ⟨hne, hrest⟩ := h.sessions sid e he
        rw [Bool.or_eq_true, decide_eq_true_eq, decide_eq_true_eq] at hno
        rw [if_neg fun hmatters => noteMatters_iff.mp hmatters (hno.resolve_left hne)]
        exact ⟨hne, hrest⟩
      case isFalse hno =>
        rw [Bool.or_eq_true, decide_eq_true_eq, decide_eq_true_eq, not_or] at hno
        rw [Function.update_self] at he
        cases he
        rw [if_pos (noteMatters_iff.mpr hno.2)]
        exact ⟨hno.1, _, rfl, rfl⟩
    · rw [if_neg hsid]
      refine h.sessions sid' e ?_
      split at he
      · exact he
      · rwa [Function.update_of_ne (Ne.symm hsid)] at he
  justified := ⟨trivial, h.justified⟩

/-- Lapsed entries have been dropped. -/
structure Forgets (now : Time) (w w' : World) : Prop where
  map : ∀ uid, w'.map uid = w.map uid ∨ (w'.map uid = none ∧ ∃ e, w.map uid = some e ∧ e.expiresAt < now)
  sessions : ∀ sid, w'.revokedSessions sid = w.revokedSessions sid ∨
    (w'.revokedSessions sid = none ∧ ∃ e, w.revokedSessions sid = some e ∧ e < now)
  rest : w' = { w with map := w'.map, revokedSessions := w'.revokedSessions }

theorem Forgets.refl {now : Time} : Forgets now w w := ⟨fun _ => .inl rfl, fun _ => .inl rfl, rfl⟩

theorem forgets_isTokenRevoked (w : World) (uid : String) (iat now : ℕ) : Forgets now w (w.isTokenRevoked uid iat now).2 := by
  rw [World.isTokenRevoked]
  split
  case h_1 => exact .refl
  case h_2 e he =>
    split
    case isFalse => exact .refl
    case isTrue hlapsed =>
      refine ⟨fun uid' => ?_, fun _ => .inl rfl, rfl⟩
      by_cases huid : uid' = uid
      · subst huid
        exact .inr ⟨Function.update_self .., e, he, hlapsed⟩
      · exact .inl (Function.update_of_ne huid ..)

theorem forgets_isSessionRevoked (w : World) (sid : Option String) (now : Time) :
    Forgets now w (w.isSessionRevoked sid now).2 := by
  simp only [World.isSessionRevoked]
  split
  case h_1 => exact .refl
  case h_2 sid =>
    split
    case h_1 => exact .refl
    case h_2 e he =>
      split
      case isFalse => exact .refl
      case isTrue hlapsed =>
        refine ⟨fun _ => .inl rfl, fun sid' => ?_, rfl⟩
        by_cases hsid : sid' = sid
        · subst hsid
          exact .inr ⟨Function.update_self .., e, he, hlapsed⟩
        · exact .inl (Function.update_of_ne hsid ..)

theorem Forgets.trans {now : Time} {w₁ w₂ w₃ : World} (h : Forgets now w₁ w₂) (h' : Forgets now w₂ w₃) : Forgets now w₁ w₃ where
  map := fun uid => by
    rcases h'.map uid with heq | ⟨hnone, e, he, hlapsed⟩
    · rw [heq]
      exact h.map uid
    · rcases h.map uid with heq | ⟨hnone', hrest⟩
      · exact .inr ⟨hnone, e, heq ▸ he, hlapsed⟩
      · exact .inr ⟨hnone, hrest⟩
  sessions := fun sid => by
    rcases h'.sessions sid with heq | ⟨hnone, e, he, hlapsed⟩
    · rw [heq]
      exact h.sessions sid
    · rcases h.sessions sid with heq | ⟨hnone', hrest⟩
      · exact .inr ⟨hnone, e, heq ▸ he, hlapsed⟩
      · exact .inr ⟨hnone, hrest⟩
  rest := by rw [h'.rest, h.rest]

theorem isTokenRevoked_eq_true {uid : String} {iat now : ℕ} (h : (w.isTokenRevoked uid iat now).1 = true) :
    ∃ e, w.map uid = some e ∧ iat < e.revokedAtSec := by
  rw [World.isTokenRevoked] at h
  split at h
  case h_1 => cases h
  case h_2 e he =>
    split at h
    · cases h
    · exact ⟨e, he, of_decide_eq_true h⟩

theorem isTokenRevoked_eq_false {uid : String} {iat now : ℕ} (h : (w.isTokenRevoked uid iat now).1 = false) {e : Entry}
    (he : w.map uid = some e) (hlive : ¬ e.expiresAt < now) : e.revokedAtSec ≤ iat := by
  rw [World.isTokenRevoked, he] at h
  simp only [hlive, if_false, decide_eq_false_iff_not, not_lt] at h
  exact h

theorem isSessionRevoked_eq_true {sid : Option String} {now : ℕ} (h : (w.isSessionRevoked sid now).1 = true) :
    ∃ s e, sid = some s ∧ w.revokedSessions s = some e := by
  simp only [World.isSessionRevoked] at h
  split at h
  case h_1 => cases h
  case h_2 s =>
    split at h
    case h_1 => cases h
    case h_2 e he => exact ⟨s, e, rfl, he⟩

theorem isSessionRevoked_eq_false {sid : String} {now : ℕ} (h : (w.isSessionRevoked (some sid) now).1 = false) {e : ℚ}
    (he : w.revokedSessions sid = some e) : e < now := by
  simp only [World.isSessionRevoked, he] at h
  split at h
  · assumption
  · cases h

/-- **What a look at a token can do**: lapsed entries are dropped, and it is noted whether the token was let in or
refused as revoked. -/
theorem verifyToken_cases (w : World) (token : Token) (graceSeconds : ℕ) (now : Time) :
    ∃ w₁, Forgets now w w₁ ∧
      ((w.verifyToken token graceSeconds now).2 = w₁ ∨
      ((w.verifyToken token graceSeconds now).2 = { w₁ with log := .refused token now :: w₁.log } ∧
        ((∃ e, w.map token.payload.stableUid = some e ∧ token.iat < e.revokedAtSec) ∨
          ∃ sid e, token.session = some sid ∧ w.revokedSessions sid = some e)) ∨
      ((w.verifyToken token graceSeconds now).2 = { w₁ with log := .accepted token now :: w₁.log } ∧
        token.isExpired graceSeconds now = false ∧ token.payload.stableUid ≠ "" ∧
        (∀ e, w.map token.payload.stableUid = some e → ¬ e.expiresAt < now → e.revokedAtSec ≤ token.iat) ∧
        ∀ sid e, token.session = some sid → w.revokedSessions sid = some e → e < now)) := by
  simp only [World.verifyToken]
  split
  case isTrue => exact ⟨w, .refl, .inl rfl⟩
  case isFalse hexpired =>
    split
    case isTrue => exact ⟨w, .refl, .inl rfl⟩
    case isFalse =>
      split
      case isTrue => exact ⟨w, .refl, .inl rfl⟩
      case isFalse hnamed =>
        have h₁ := forgets_isTokenRevoked w token.payload.stableUid token.iat now
        split
        case isTrue hrevoked => exact ⟨_, h₁, .inr (.inl ⟨rfl, .inl (isTokenRevoked_eq_true hrevoked)⟩)⟩
        case isFalse hnot =>
          have h₂ := forgets_isSessionRevoked (w.isTokenRevoked token.payload.stableUid token.iat now).2 token.session now
          have hsame : (w.isTokenRevoked token.payload.stableUid token.iat now).2.revokedSessions = w.revokedSessions := by
            rw [World.isTokenRevoked]
            split
            · rfl
            · split <;> rfl
          split
          case isTrue hrevoked =>
            obtain ⟨s, e, hs, he⟩ := isSessionRevoked_eq_true hrevoked
            exact ⟨_, h₁.trans h₂, .inr (.inl ⟨rfl, .inr ⟨s, e, hs, hsame ▸ he⟩⟩)⟩
          case isFalse hnotSession =>
            refine ⟨_, h₁.trans h₂, .inr (.inr ⟨rfl, Bool.eq_false_iff.mpr hexpired, ?_, fun e he hlive => ?_, fun sid e hs he => ?_⟩)⟩
            · rw [Bool.or_eq_true, decide_eq_true_eq, decide_eq_true_eq, not_or] at hnamed
              exact hnamed.1
            · exact isTokenRevoked_eq_false (Bool.eq_false_iff.mpr hnot) he hlive
            · exact isSessionRevoked_eq_false (hs ▸ Bool.eq_false_iff.mpr hnotSession) (hsame ▸ he)

theorem Noted.forgets {now : Time} (h : Noted x w) (hf : Forgets now w w') : Noted x w' := by
  have hlog : w'.log = w.log := by rw [hf.rest]
  refine ⟨fun uid e he => ?_, fun sid e he => ?_, hlog ▸ h.justified⟩
  · rw [hlog]
    rcases hf.map uid with heq | ⟨hnone, -⟩
    · exact h.map uid e (heq ▸ he)
    · rw [hnone] at he
      cases he
  · rw [hlog]
    rcases hf.sessions sid with heq | ⟨hnone, -⟩
    · exact h.sessions sid e (heq ▸ he)
    · rw [hnone] at he
      cases he

/-- An event that is no note. -/
theorem Noted.event (h : Noted x w) {e : Event} (he : e.Justified w.log)
    (hnotes : ∀ sid, sessionNotes sid (e :: w.log) = sessionNotes sid w.log) : Noted x { w with log := e :: w.log } where
  map := fun uid entry hentry => by
    obtain ⟨at', hmem, hrest⟩ := h.map uid entry hentry
    exact ⟨at', List.mem_cons_of_mem _ hmem, hrest⟩
  sessions := fun sid entry hentry => by
    rw [hnotes]
    exact h.sessions sid entry hentry
  justified := ⟨he, h.justified⟩

theorem Noted.verifyToken (h : Noted x w) (token : Token) (graceSeconds : ℕ) (now : Time) :
    Noted x (w.verifyToken token graceSeconds now).2 := by
  obtain ⟨w₁, hf, heq | ⟨heq, hrevoked⟩ | ⟨heq, -⟩⟩ := verifyToken_cases w token graceSeconds now
  · rw [heq]
    exact h.forgets hf
  · rw [heq]
    have hlog : w₁.log = w.log := by rw [hf.rest]
    refine (h.forgets hf).event ?_ fun _ => rfl
    rw [hlog]
    rcases hrevoked with ⟨e, he, hlt⟩ | ⟨sid, e, hs, he⟩
    · obtain ⟨at', hmem, hsec, -⟩ := h.map _ e he
      exact .inr ⟨at', hmem, hsec ▸ hlt⟩
    · obtain ⟨-, n, hn, -⟩ := h.sessions sid e he
      exact .inl ⟨sid, n.1, n.2, hs, mem_sessionNotes.mp (List.mem_of_mem_filter (List.mem_of_mem_head? hn))⟩
  · rw [heq]
    exact (h.forgets hf).event trivial fun _ => rfl

theorem noted_empty : Noted x .empty := ⟨nofun, nofun, trivial⟩

theorem Noted.begin (h : Noted x w) (now : Time) (request : Request) : Noted x (w.begin x now request) := by
  cases request with
  | verifyToken token graceSeconds =>
      simp only [World.begin]
      split
      · exact h.verifyToken token graceSeconds now
      · exact h
  | revokeUserTokens stableUid => exact { h.noteTokenRevocation stableUid now now with }
  | revokeSessionIds ids =>
      simp only [World.begin]
      split
      · exact h
      · exact { h with }
  | noteTokenRevocation stableUid revokedAt => exact h.noteTokenRevocation stableUid revokedAt now
  | noteSessionRevocation sid revokedAt => exact h.noteSessionRevocation sid revokedAt now
  | restart => exact ⟨nofun, nofun, h.justified⟩
  | signJwt | database | loadTokenRevocations | loadSessionRevocations => exact { h with }

theorem Noted.goOn (h : Noted x w) (now : Time) (call : Call) : Noted x (w.goOn x now call) := by
  cases call with
  | persist | updateSessions => exact { h with }
  | noteSessions rows loaded =>
      exact { foldl_invariant (P := Noted x) (fun w r _ hw => hw.noteSessionRevocation r.1 r.2 now) h with }
  | noteTokens rows => exact { foldl_invariant (P := Noted x) (fun w r _ hw => hw.noteTokenRevocation r.1 r.2 now) h with }

/-- What a step does, to be shown of what it does to a world at its time. -/
theorem step_induction {P : World → Prop} {m : Move} (hstep : w.step x m = some w')
    (hbegin : ∀ request now, m = .begin request now → w.clock ≤ now → P ({ w with clock := now }.begin x now request))
    (hgoOn : ∀ call now, m = .goOn call now → w.clock ≤ now → call ∈ w.calls →
      P ({ w with calls := w.calls.erase call, clock := now }.goOn x now call))
    (hgiveUp : ∀ call, P { w with calls := w.calls.erase call }) : P w' := by
  cases m with
  | begin request now =>
      obtain ⟨hnow, heq⟩ := Option.ite_none_right_eq_some.mp hstep
      cases heq
      exact hbegin request now rfl hnow
  | goOn call now =>
      obtain ⟨hcond, heq⟩ := Option.ite_none_right_eq_some.mp hstep
      cases heq
      rw [Bool.and_eq_true, decide_eq_true_eq, decide_eq_true_eq] at hcond
      exact hgoOn call now rfl hcond.2 hcond.1
  | giveUp call =>
      obtain ⟨-, heq⟩ := Option.ite_none_right_eq_some.mp hstep
      cases heq
      exact hgiveUp call

theorem Noted.tick (h : Noted x w) (calls : List Call) (now : Time) : Noted x { w with calls := calls, clock := now } :=
  { h with }

theorem Noted.step {m : Move} (h : Noted x w) (hstep : w.step x m = some w') : Noted x w' :=
  step_induction hstep (fun request now _ _ => (h.tick w.calls now).begin now request)
    (fun call now _ _ _ => (h.tick (w.calls.erase call) now).goOn now call) fun _ => { h with }

/-! ### What every careful step keeps -/

theorem tokensLapsed_iff {revokedAt now : Time} :
    tokensLapsed x revokedAt now = true ↔ ((revokedAt / 1000 * 1000 : ℕ) : ℚ) + x.JWT_MAX_LIFE_MS ≤ now := decide_eq_true_iff

theorem sessionLapsed_iff {revokedAt now : Time} :
    sessionLapsed x revokedAt now = true ↔ (revokedAt : ℚ) + x.SESSION_REVOCATION_LIFE_MS ≤ now := decide_eq_true_iff

/-- The revocation lapses at its second at the earliest. -/
theorem tokensLapsed_of_le {revokedAt now : Time} (h : (revokedAt : ℚ) + x.JWT_MAX_LIFE_MS ≤ now) :
    tokensLapsed x revokedAt now = true := by
  rw [tokensLapsed_iff]
  have hfloor : ((revokedAt / 1000 * 1000 : ℕ) : ℚ) ≤ revokedAt := by exact_mod_cast Nat.div_mul_le_self revokedAt 1000
  linarith

/-- **The invariant of careful runs.** -/
structure Kept (x : Config) (w : World) : Prop where
  noted : Noted x w
  admitted : Backed Event.Admitted w.log
  issued : ∀ token ∈ w.tokens, (token.exp : ℚ) ≤ token.iat + x.JWT_MAX_LIFE_MS / 1000
  tokens : w.tokensLoaded = true → ∀ uid revokedAt, .revokedTokens uid revokedAt ∈ w.log →
    w.knowsTokens x uid revokedAt w.clock = true
  sessions : w.sessionsLoaded = true → ∀ sid, w.knowsSession x sid w.clock = true

theorem kept_empty : Kept x .empty := ⟨noted_empty, trivial, nofun, nofun, nofun⟩

theorem tokensLapsed_mono {revokedAt revokedAt' now now' : Time} (h : tokensLapsed x revokedAt now = true)
    (hsec : revokedAt' / 1000 ≤ revokedAt / 1000) (hnow : now ≤ now') : tokensLapsed x revokedAt' now' = true := by
  rw [tokensLapsed_iff] at h ⊢
  have hsec : ((revokedAt' / 1000 * 1000 : ℕ) : ℚ) ≤ (revokedAt / 1000 * 1000 : ℕ) := by
    exact_mod_cast Nat.mul_le_mul_right 1000 hsec
  have hnow : (now : ℚ) ≤ now' := by exact_mod_cast hnow
  linarith

theorem knowsTokens_iff {uid : String} {revokedAt now : Time} :
    w.knowsTokens x uid revokedAt now = true ↔
      uid = "" ∨ tokensLapsed x revokedAt now = true ∨ ∃ e, w.map uid = some e ∧ revokedAt / 1000 ≤ e.revokedAtSec := by
  simp only [World.knowsTokens, Bool.or_eq_true, decide_eq_true_eq, Option.any_eq_true, or_assoc]

theorem knowsSession_iff {sid : String} {now : Time} :
    w.knowsSession x sid now = true ↔ ∀ revokedAt, sessionRevokedAt x sid w.log = some revokedAt →
      sid = "" ∨ sessionLapsed x revokedAt now = true ∨ (w.revokedSessions sid).isSome = true := by
  simp only [World.knowsSession, Option.all_eq_true, Bool.or_eq_true, decide_eq_true_eq, or_assoc]

/-- What a note about an account's tokens leaves known, and makes known. -/
theorem knowsTokens_note {uid uid' : String} {revokedAt revokedAt' now : Time}
    (h : w.knowsTokens x uid revokedAt now = true ∨ (uid = uid' ∧ revokedAt / 1000 ≤ revokedAt' / 1000)) :
    (w.noteTokenRevocation x uid' revokedAt' now).knowsTokens x uid revokedAt now = true := by
  rw [knowsTokens_iff] at h ⊢
  simp only [World.noteTokenRevocation]
  rcases h with (hname | hlapsed | ⟨e, he, hle⟩) | ⟨rfl, hle⟩
  · exact .inl hname
  · exact .inr (.inl hlapsed)
  · refine .inr (.inr ?_)
    split
    case isTrue => exact ⟨e, he, hle⟩
    case isFalse hnew =>
      by_cases huid : uid = uid'
      · subst huid
        rw [he] at hnew
        simp only [Bool.or_eq_true, Option.any_some, decide_eq_true_eq, not_or, not_le] at hnew
        exact ⟨_, Function.update_self .., hle.trans hnew.2.le⟩
      · exact ⟨e, by rw [Function.update_of_ne huid]; exact he, hle⟩
  · split
    case isTrue hold =>
      rw [Bool.or_eq_true, Bool.or_eq_true, decide_eq_true_eq, decide_eq_true_eq, Option.any_eq_true] at hold
      rcases hold with (hname | hlapsed) | ⟨e, he, hold⟩
      · exact .inl hname
      · exact .inr (.inl (tokensLapsed_mono (tokensLapsed_of_le hlapsed) hle le_rfl))
      · exact .inr (.inr ⟨e, he, hle.trans (of_decide_eq_true hold)⟩)
    case isFalse => exact .inr (.inr ⟨_, Function.update_self .., hle⟩)

theorem sessionRevokedAt_of_head {sid : String} {n : Time × Time}
    (h : ((sessionNotes sid log).filter (noteMatters x)).head? = some n) : sessionRevokedAt x sid log = some n.1 := by
  rw [sessionRevokedAt, List.head?_append, h]
  rfl

/-- What a note about a session leaves known, and makes known. -/
theorem knowsSession_note {sid sid' : String} {revokedAt' now : Time}
    (h : w.knowsSession x sid now = true ∨ (sid = sid' ∧ sessionLapsed x revokedAt' now = false)) :
    (w.noteSessionRevocation x sid' revokedAt' now).knowsSession x sid now = true := by
  rw [knowsSession_iff]
  intro revokedAt hlast
  by_cases hsid : sid' = sid
  · subst hsid
    simp only [World.noteSessionRevocation, sessionRevokedAt, sessionNotes_cons, if_true, List.filter_cons] at hlast ⊢
    split
    case isTrue hno =>
      rw [Bool.or_eq_true, decide_eq_true_eq, decide_eq_true_eq] at hno
      rcases hno with hname | hlapsed
      · exact .inl hname
      · rw [if_neg fun hmatters => noteMatters_iff.mp hmatters hlapsed] at hlast
        rcases h with h | ⟨-, hnot⟩
        · cases hold : (sessionNotes sid' w.log).filter (noteMatters x) with
          | nil =>
              rw [hold] at hlast
              cases hlast
              exact .inr (.inl (sessionLapsed_iff.mpr hlapsed))
          | cons n rest =>
              rw [hold] at hlast
              cases hlast
              exact knowsSession_iff.mp h n.1 (sessionRevokedAt_of_head (by rw [hold]; rfl))
        · rw [sessionLapsed_iff.mpr hlapsed] at hnot
          cases hnot
    case isFalse => exact .inr (.inr (by rw [Function.update_self]; rfl))
  · have h := h.resolve_right fun hand => hsid hand.1.symm
    simp only [World.noteSessionRevocation, sessionRevokedAt, sessionNotes_cons, hsid, if_false] at hlast ⊢
    have hknown := knowsSession_iff.mp h revokedAt hlast
    split
    · exact hknown
    · rwa [Function.update_of_ne (Ne.symm hsid)]

theorem Kept.tick (h : Kept x w) {now : Time} (hnow : w.clock ≤ now) (calls : List Call) :
    Kept x { w with calls := calls, clock := now } :=
  { h with
    noted := h.noted.tick calls now
    tokens := fun hloaded uid revokedAt hmem => by
      have hknown := h.tokens hloaded uid revokedAt hmem
      rw [knowsTokens_iff] at hknown ⊢
      exact hknown.imp_right fun hor => hor.imp_left fun hlapsed => tokensLapsed_mono hlapsed le_rfl hnow
    sessions := fun hloaded sid => by
      have hknown := h.sessions hloaded sid
      rw [knowsSession_iff] at hknown ⊢
      refine fun revokedAt hlast => (hknown revokedAt hlast).imp_right fun hor => hor.imp_left fun hlapsed => ?_
      rw [sessionLapsed_iff] at hlapsed ⊢
      exact hlapsed.trans (by exact_mod_cast hnow) }

theorem Kept.noteTokenRevocation (h : Kept x w) (uid : String) (revokedAt : Time) {now : Time} (hclock : w.clock = now) :
    Kept x (w.noteTokenRevocation x uid revokedAt now) where
  noted := h.noted.noteTokenRevocation uid revokedAt now
  admitted := ⟨trivial, h.admitted⟩
  issued := h.issued
  tokens := fun hloaded uid' revokedAt' hmem => by
    subst hclock
    refine knowsTokens_note ?_
    rcases List.mem_cons.mp hmem with heq | hold
    · cases heq
      exact .inr ⟨rfl, le_rfl⟩
    · exact .inl (h.tokens hloaded uid' revokedAt' hold)
  sessions := fun hloaded sid => h.sessions hloaded sid

theorem Kept.noteSessionRevocation (h : Kept x w) (sid : String) (revokedAt : Time) {now : Time} (hclock : w.clock = now) :
    Kept x (w.noteSessionRevocation x sid revokedAt now) where
  noted := h.noted.noteSessionRevocation sid revokedAt now
  admitted := ⟨trivial, h.admitted⟩
  issued := h.issued
  tokens := fun hloaded uid revokedAt' hmem => h.tokens hloaded uid revokedAt' ((List.mem_cons.mp hmem).resolve_left nofun)
  sessions := fun hloaded sid' => by
    subst hclock
    exact knowsSession_note (.inl (h.sessions hloaded sid'))

/-! ### A token is looked at -/

theorem isExpired_of_le {token : Token} {now : Time} (h : (token.exp : ℚ) * 1000 ≤ now) : token.isExpired 0 now = true := by
  rw [Token.isExpired, decide_eq_true_eq]
  by_contra hlt
  have hlt : ((now / 1000 : ℕ) : ℤ) + 1 ≤ token.exp := by
    rw [Nat.cast_zero, add_zero, not_le] at hlt
    exact hlt
  have hexp : (((now / 1000 : ℕ) : ℤ) : ℚ) + 1 ≤ token.exp := by exact_mod_cast hlt
  rw [Int.cast_natCast] at hexp
  have hnow : (now : ℚ) < 1000 * ((now / 1000 : ℕ) + 1) := by exact_mod_cast Nat.lt_mul_div_succ now (by decide : 0 < 1000)
  linarith

/-- A token from an earlier second than a revocation expires before that lapses. -/
theorem isExpired_of_tokensLapsed {token : Token} {revokedAt now : Time}
    (hissued : (token.exp : ℚ) ≤ token.iat + x.JWT_MAX_LIFE_MS / 1000) (hlapsed : tokensLapsed x revokedAt now = true)
    (hlt : token.iat < revokedAt / 1000) : token.isExpired 0 now = true := by
  rw [tokensLapsed_iff] at hlapsed
  have hiat : (token.iat : ℚ) * 1000 ≤ (revokedAt / 1000 * 1000 : ℕ) := by exact_mod_cast Nat.mul_le_mul_right 1000 hlt.le
  exact isExpired_of_le (by linarith)

/-- A token that is no younger than a revocation expires before that lapses. -/
theorem isExpired_of_sessionLapsed {token : Token} {revokedAt now : Time}
    (hissued : (token.exp : ℚ) ≤ token.iat + x.JWT_MAX_LIFE_MS / 1000) (hlapsed : sessionLapsed x revokedAt now = true)
    (hle : token.iat * 1000 ≤ revokedAt) : token.isExpired 0 now = true := by
  rw [sessionLapsed_iff] at hlapsed
  have hlife : x.JWT_MAX_LIFE_MS ≤ x.SESSION_REVOCATION_LIFE_MS := le_max_left ..
  have hiat : (token.iat : ℚ) * 1000 ≤ revokedAt := by exact_mod_cast hle
  exact isExpired_of_le (by linarith)

theorem Kept.forgets (h : Kept x w) (hf : Forgets w.clock w w') : Kept x w' := by
  have hlog : w'.log = w.log := by rw [hf.rest]
  have hclock : w'.clock = w.clock := by rw [hf.rest]
  refine ⟨h.noted.forgets hf, hlog ▸ h.admitted, fun token htoken => h.issued token ?_, fun hloaded uid revokedAt hmem => ?_,
    fun hloaded sid => ?_⟩
  · rw [hf.rest] at htoken
    exact htoken
  · rw [hf.rest] at hloaded
    have hknown := h.tokens hloaded uid revokedAt (hlog ▸ hmem)
    rw [hclock, knowsTokens_iff]
    rcases knowsTokens_iff.mp hknown with hname | hlapsed | ⟨e, he, hle⟩
    · exact .inl hname
    · exact .inr (.inl hlapsed)
    · rcases hf.map uid with heq | ⟨-, e', he', hgone⟩
      · exact .inr (.inr ⟨e, by rw [heq, he], hle⟩)
      · obtain ⟨at', -, hsec, hexpires⟩ := h.noted.map uid e' he'
        obtain rfl : e = e' := Option.some.inj (he.symm.trans he')
        exact .inr (.inl (tokensLapsed_mono (tokensLapsed_of_le (hexpires ▸ hgone.le)) (hsec ▸ hle) le_rfl))
  · rw [hf.rest] at hloaded
    have hknown := knowsSession_iff.mp (h.sessions hloaded sid)
    rw [hclock, knowsSession_iff, hlog]
    intro revokedAt hlast
    rcases hf.sessions sid with heq | ⟨-, e, he, hgone⟩
    · rw [heq]
      exact hknown revokedAt hlast
    · obtain ⟨-, n, hn, hexpires⟩ := h.noted.sessions sid e he
      obtain rfl : n.1 = revokedAt := Option.some.inj ((sessionRevokedAt_of_head hn).symm.trans hlast)
      exact .inr (.inl (sessionLapsed_iff.mpr (hexpires ▸ hgone.le)))

/-- An event that is no note. -/
theorem Kept.event (h : Kept x w) {e : Event} (hjustified : e.Justified w.log) (hadmitted : e.Admitted w.log)
    (hnotes : ∀ uid revokedAt, e ≠ .revokedTokens uid revokedAt)
    (hsessions : ∀ sid, sessionNotes sid (e :: w.log) = sessionNotes sid w.log) :
    Kept x { w with log := e :: w.log } where
  noted := h.noted.event hjustified hsessions
  admitted := ⟨hadmitted, h.admitted⟩
  issued := h.issued
  tokens := fun hloaded uid revokedAt hmem =>
    h.tokens hloaded uid revokedAt ((List.mem_cons.mp hmem).resolve_left fun heq => hnotes uid revokedAt heq.symm)
  sessions := fun hloaded sid => by
    have hknown := knowsSession_iff.mp (h.sessions hloaded sid)
    rw [knowsSession_iff]
    intro revokedAt hlast
    refine hknown revokedAt ?_
    rwa [sessionRevokedAt, hsessions] at hlast

/-- A token that is let in, when the revocations that concern it are known. -/
theorem Kept.admits (h : Kept x w) {token : Token} {graceSeconds : ℕ} (htoken : token ∈ w.tokens)
    (hlive : token.isExpired graceSeconds w.clock = false) (hnamed : token.payload.stableUid ≠ "")
    (hmap : ∀ e, w.map token.payload.stableUid = some e → ¬ e.expiresAt < w.clock → e.revokedAtSec ≤ token.iat)
    (hsession : ∀ sid e, token.session = some sid → w.revokedSessions sid = some e → e < w.clock)
    (hendsTokens : w.endsTokens x token graceSeconds w.clock = true)
    (hendsSession : w.endsSession x token graceSeconds w.clock = true) :
    (Event.accepted token w.clock).Admitted w.log := by
  have hissued := h.issued token htoken
  refine ⟨fun sid revokedAt notedAt hs hmem => ?_, fun revokedAt hmem => ?_⟩
  · obtain ⟨last, hlast⟩ := Option.isSome_iff_exists.mp (sessionRevokedAt_isSome (x := x) hmem)
    have hends : w.sessionsLoaded = true ∧
        (sessionLapsed x last w.clock = false ∨ (graceSeconds = 0 ∧ token.iat * 1000 ≤ last)) := by
      simpa [World.endsSession, hs, hlast] using hendsSession
    have hname : sid ≠ "" := by
      rw [Token.session, Option.filter_eq_some_iff] at hs
      simpa using hs.2
    have hlapsed : sessionLapsed x last w.clock = true := by
      rcases knowsSession_iff.mp (h.sessions hends.1 sid) last hlast with hempty | hlapsed | hsome
      · exact absurd hempty hname
      · exact hlapsed
      · obtain ⟨e, he⟩ := Option.isSome_iff_exists.mp hsome
        obtain ⟨-, n, hn, hexpires⟩ := h.noted.sessions sid e he
        obtain rfl : n.1 = last := Option.some.inj ((sessionRevokedAt_of_head hn).symm.trans hlast)
        exact sessionLapsed_iff.mpr (hexpires ▸ (hsession sid e hs he).le)
    rcases hends.2 with hnot | ⟨rfl, hle⟩
    · rw [hlapsed] at hnot
      cases hnot
    · rw [isExpired_of_sessionLapsed hissued hlapsed hle] at hlive
      cases hlive
  · by_contra hlt
    have hlt : token.iat < revokedAt / 1000 := Nat.not_le.mp hlt
    have hconcerns : ∀ at', .revokedTokens token.payload.stableUid at' ∈ w.log → token.iat < at' / 1000 →
        w.tokensLoaded = true → tokensLapsed x at' w.clock = true := by
      intro at' hmem' hlt' hloaded
      rcases knowsTokens_iff.mp (h.tokens hloaded _ _ hmem') with hempty | hlapsed | ⟨e, he, hle⟩
      · exact absurd hempty hnamed
      · exact hlapsed
      · by_contra hnot
        obtain ⟨at₀, -, hsec, hexpires⟩ := h.noted.map _ e he
        have hsmall := hmap e he fun hgone =>
          hnot (tokensLapsed_mono (tokensLapsed_of_le (hexpires ▸ hgone.le)) (hsec ▸ hle) le_rfl)
        exact absurd (hle.trans hsmall) (Nat.not_le.mpr hlt')
    have hends : w.tokensLoaded = true ∧ (graceSeconds = 0 ∨
        ∃ at', .revokedTokens token.payload.stableUid at' ∈ w.log ∧ token.iat < at' / 1000 ∧ tokensLapsed x at' w.clock = false) := by
      rw [World.endsTokens, Bool.or_eq_true, decide_eq_true_eq] at hendsTokens
      rcases hendsTokens with hnil | hends
      · have hin : revokedAt ∈ (revocationsOf token.payload.stableUid w.log).filter (token.iat < · / 1000) :=
          List.mem_filter.mpr ⟨mem_revocationsOf.mpr hmem, decide_eq_true hlt⟩
        rw [hnil] at hin
        cases hin
      · simpa [and_assoc] using hends
    rcases hends.2 with rfl | ⟨at', hmem', hlt', hnot⟩
    · rw [isExpired_of_tokensLapsed hissued (hconcerns revokedAt hmem hlt hends.1) hlt] at hlive
      cases hlive
    · rw [hconcerns at' hmem' hlt' hends.1] at hnot
      cases hnot

theorem Kept.verifyToken (h : Kept x w) {token : Token} {graceSeconds : ℕ} (htoken : token ∈ w.tokens)
    (hcareful : w.careful x (.begin (.verifyToken token graceSeconds) w.clock) = true) :
    Kept x (w.verifyToken token graceSeconds w.clock).2 := by
  have hnoted := h.noted.verifyToken token graceSeconds w.clock
  obtain ⟨w₁, hf, heq | ⟨heq, hrevoked⟩ | ⟨heq, hlive, hnamed, hmap, hsession⟩⟩ :=
    verifyToken_cases w token graceSeconds w.clock
  all_goals have hlog : w₁.log = w.log := by rw [hf.rest]
  · rw [heq]
    exact h.forgets hf
  · rw [heq] at hnoted ⊢
    exact (h.forgets hf).event hnoted.justified.1 trivial nofun fun _ => rfl
  · rw [heq]
    rw [World.careful, hlive, Bool.false_or, Bool.and_eq_true] at hcareful
    refine (h.forgets hf).event trivial ?_ nofun fun _ => rfl
    rw [hlog]
    exact h.admits htoken hlive hnamed hmap hsession hcareful.1 hcareful.2

/-! ### What is stored is loaded -/

theorem Kept.noteTokens (h : Kept x w) {rows : List (String × Time)}
    (hcareful : w.careful x (.goOn (.noteTokens rows) w.clock) = true) : Kept x (w.goOn x w.clock (.noteTokens rows)) := by
  set note := fun (w' : World) (r : String × Time) => w'.noteTokenRevocation x r.1 r.2 w.clock
  -- what the loop notes, it makes known
  have hloop : Kept x (rows.foldl note w) ∧ (rows.foldl note w).clock = w.clock ∧
      ∀ uid revokedAt, .revokedTokens uid revokedAt ∈ (rows.foldl note w).log →
        .revokedTokens uid revokedAt ∈ w.log ∨ (rows.foldl note w).knowsTokens x uid revokedAt w.clock = true := by
    refine foldl_invariant (P := fun w' : World => Kept x w' ∧ w'.clock = w.clock ∧ ∀ uid revokedAt,
      .revokedTokens uid revokedAt ∈ w'.log →
        .revokedTokens uid revokedAt ∈ w.log ∨ w'.knowsTokens x uid revokedAt w.clock = true)
      (f := note) (fun w' r _ ⟨hk, hclock, hnew⟩ => ⟨hk.noteTokenRevocation r.1 r.2 hclock, hclock, fun uid revokedAt hmem => ?_⟩)
      ⟨h, rfl, fun _ _ => .inl⟩
    rcases List.mem_cons.mp hmem with heq | hold
    · cases heq
      exact .inr (knowsTokens_note (.inr ⟨rfl, le_rfl⟩))
    · exact (hnew uid revokedAt hold).imp_right fun hknown => knowsTokens_note (.inl hknown)
  refine { hloop.1 with tokens := fun _ uid revokedAt hmem => ?_, noted := { hloop.1.noted with } }
  have hknown : (rows.foldl note w).knowsTokens x uid revokedAt w.clock = true := by
    rcases hloop.2.2 uid revokedAt hmem with hold | hknown
    · have hloaded := List.all_eq_true.mp hcareful _ hold
      rw [Bool.or_eq_true, List.any_eq_true] at hloaded
      rcases hloaded with hknown | ⟨r, hr, hwhere⟩
      · exact foldl_invariant (P := fun w' : World => w'.knowsTokens x uid revokedAt w.clock = true)
          (fun _ _ _ hknown => knowsTokens_note (.inl hknown)) hknown
      · rw [Bool.and_eq_true, decide_eq_true_eq, decide_eq_true_eq] at hwhere
        exact foldl_establish (I := fun _ => True) (P := fun w' : World => w'.knowsTokens x uid revokedAt w.clock = true)
          (fun _ _ _ _ => trivial) (fun _ _ _ _ hknown => knowsTokens_note (.inl hknown)) hr
          (fun _ _ => knowsTokens_note (.inr ⟨hwhere.1.symm, hwhere.2⟩)) trivial
    · exact hknown
  show (rows.foldl note w).knowsTokens x uid revokedAt (rows.foldl note w).clock = true
  rw [hloop.2.1]
  exact hknown

theorem Kept.noteSessions (h : Kept x w) {rows : List (String × Time)} {loaded : Bool}
    (hcareful : w.careful x (.goOn (.noteSessions rows loaded) w.clock) = true) :
    Kept x (w.goOn x w.clock (.noteSessions rows loaded)) := by
  set note := fun (w' : World) (r : String × Time) => w'.noteSessionRevocation x r.1 r.2 w.clock
  have hloop : Kept x (rows.foldl note w) ∧ (rows.foldl note w).clock = w.clock :=
    foldl_invariant (P := fun w' : World => Kept x w' ∧ w'.clock = w.clock)
      (f := note) (fun w' r _ ⟨hk, hclock⟩ => ⟨hk.noteSessionRevocation r.1 r.2 hclock, hclock⟩) ⟨h, rfl⟩
  have hsame : (rows.foldl note w).sessionsLoaded = w.sessionsLoaded :=
    foldl_invariant (f := note) (P := fun w' : World => w'.sessionsLoaded = w.sessionsLoaded) (fun _ _ _ hw' => hw') rfl
  refine { hloop.1 with sessions := fun hloaded sid => ?_, noted := { hloop.1.noted with } }
  show (rows.foldl note w).knowsSession x sid (rows.foldl note w).clock = true
  rw [hloop.2]
  have hkeep (hknown : w.knowsSession x sid w.clock = true) : (rows.foldl note w).knowsSession x sid w.clock = true :=
    foldl_invariant (P := fun w' : World => w'.knowsSession x sid w.clock = true)
      (fun _ _ _ hknown => knowsSession_note (.inl hknown)) hknown
  cases loaded with
  | false => exact hkeep (h.sessions (hsame ▸ hloaded) sid)
  | true =>
      cases hnotes : sessionNotes sid w.log with
      | nil =>
          refine hkeep (knowsSession_iff.mpr fun revokedAt hlast => ?_)
          rw [sessionRevokedAt, hnotes] at hlast
          cases hlast
      | cons n rest =>
          have hmem : .revokedSession sid n.1 n.2 ∈ w.log := mem_sessionNotes.mp (by rw [hnotes]; exact List.mem_cons_self)
          have hcovered := List.all_eq_true.mp hcareful _ hmem
          rw [Bool.or_eq_true, List.any_eq_true] at hcovered
          rcases hcovered with hknown | ⟨r, hr, hwhere⟩
          · exact hkeep hknown
          · rw [Bool.and_eq_true, decide_eq_true_eq, Bool.not_eq_true'] at hwhere
            exact foldl_establish (I := fun _ => True) (P := fun w' : World => w'.knowsSession x sid w.clock = true)
              (fun _ _ _ _ => trivial) (fun _ _ _ _ hknown => knowsSession_note (.inl hknown)) hr
              (fun _ _ => knowsSession_note (.inr ⟨hwhere.1.symm, hwhere.2⟩)) trivial

theorem Kept.signJwt (h : Kept x w) (payload : JwtPayload) (hlife : (x.ms x.jwtExpiresIn).all (· ≤ x.JWT_MAX_LIFE_MS) = true) :
    Kept x (w.begin x w.clock (.signJwt payload)) := by
  refine { h with noted := { h.noted with }, issued := fun token htoken => ?_ }
  rcases List.mem_append.mp htoken with hnew | hold
  · rw [Option.mem_toList, Pokyh.Account.Tokens.signJwt, Option.map_eq_some_iff] at hnew
    obtain ⟨life, hlife', rfl⟩ := hnew
    have hle : life ≤ x.JWT_MAX_LIFE_MS := by simpa [hlife'] using hlife
    have hfloor := Int.floor_le (((w.clock / 1000 : ℕ) : ℚ) + life / 1000)
    simp only
    linarith
  · exact h.issued token hold

theorem Kept.step {m : Move} (h : Kept x w) (hcareful : w.careful x m = true) (hstep : w.step x m = some w') : Kept x w' := by
  refine step_induction hstep (fun request now hm hnow => ?_) (fun call now hm hnow hcall => ?_) fun call =>
    { h with noted := { h.noted with } }
  · subst hm
    have hk := h.tick hnow w.calls
    cases request with
    | signJwt payload => exact hk.signJwt payload hcareful
    | verifyToken token graceSeconds =>
        simp only [World.begin]
        split
        case isTrue htoken => exact hk.verifyToken htoken hcareful
        case isFalse => exact hk
    | revokeUserTokens stableUid =>
        have hnote := hk.noteTokenRevocation stableUid now rfl
        exact { hnote with noted := { hnote.noted with } }
    | revokeSessionIds ids =>
        simp only [World.begin]
        split
        · exact hk
        · exact { hk with noted := { hk.noted with } }
    | noteTokenRevocation stableUid revokedAt => exact hk.noteTokenRevocation stableUid revokedAt rfl
    | noteSessionRevocation sid revokedAt => exact hk.noteSessionRevocation sid revokedAt rfl
    | restart => exact { hk with noted := ⟨nofun, nofun, hk.noted.justified⟩, tokens := nofun, sessions := nofun }
    | database | loadTokenRevocations | loadSessionRevocations => exact { hk with noted := { hk.noted with } }
  · subst hm
    have hk := h.tick hnow (w.calls.erase call)
    cases call with
    | persist | updateSessions => exact { hk with noted := { hk.noted with } }
    | noteSessions rows loaded => exact hk.noteSessions hcareful
    | noteTokens rows => exact hk.noteTokens hcareful

/-! ### Revoked tokens are refused -/

/-- **No token is refused as revoked without a revocation; and no revoked token is accepted**, the latter in every
careful run. -/
theorem revoked_tokens_refused {moves : List Move} (hrun : run (World.step x) .empty moves = some w) :
    Backed Event.Justified w.log ∧
      (Meets (World.step x) (fun w m => w.careful x m = true) .empty moves → Backed Event.Admitted w.log) :=
  ⟨(run_invariant (P := Noted x) (fun _ _ _ => Noted.step) noted_empty hrun).justified, fun hcareful =>
    (run_invariant_of_meets (P := Kept x) (fun _ _ _ => Kept.step) kept_empty hcareful hrun).admitted⟩

/-- Tokens of an hour. -/
def hourly : Config := ⟨"1h", 4 * 60 * 60 * 1000, fun span => if span = "1h" then some 3600000 else none⟩

def anna : JwtPayload := ⟨"anna", "anna", 7, "4A", "student", some "sid"⟩

/-- The token that anna gets in the first second. -/
def annaToken : Token := ⟨some APP_AUDIENCE, anna, 0, 3600⟩

/-- The process starts, anna gets a token, and her tokens are revoked five seconds later. -/
def annaRevoked : List Move :=
  [.begin .loadTokenRevocations 0, .goOn (.noteTokens []) 0, .begin .loadSessionRevocations 0, .goOn (.noteSessions [] true) 0,
    .begin (.signJwt anna) 0, .begin (.revokeUserTokens "anna") 5000]

theorem revoked_tokens_refused_anna : ∃ w,
    run (World.step hourly) .empty (annaRevoked ++ [.begin (.verifyToken annaToken 0) 6000]) = some w ∧
    .refused annaToken 6000 ∈ w.log ∧ Backed Event.Justified w.log ∧ Backed Event.Admitted w.log := by
  have hgives : (run (World.step hourly) .empty (annaRevoked ++ [.begin (.verifyToken annaToken 0) 6000])).any
      (fun w => .refused annaToken 6000 ∈ w.log) = true := by decide +kernel
  obtain ⟨w, hrun, hw⟩ := (Option.any_eq_true _ _).mp hgives
  obtain ⟨hjustified, hadmitted⟩ := revoked_tokens_refused hrun
  exact ⟨w, hrun, of_decide_eq_true hw, hjustified, hadmitted (by decide +kernel)⟩

/-- **A revoked token is accepted within its grace time**: the revocation is forgotten when the token has expired. -/
theorem expired_token_accepted : ∃ w, run (World.step hourly) .empty
    (annaRevoked ++ [.begin (.verifyToken annaToken (30 * 24 * 60 * 60)) 3606000]) = some w ∧
    ¬ Backed Event.Admitted w.log := by
  have hgives : (run (World.step hourly) .empty
    (annaRevoked ++ [.begin (.verifyToken annaToken (30 * 24 * 60 * 60)) 3606000])).any
      (fun w => w.log = [.accepted annaToken 3606000, .revokedTokens "anna" 5000]) = true := by decide +kernel
  obtain ⟨w, hrun, hw⟩ := (Option.any_eq_true _ _).mp hgives
  refine ⟨w, hrun, fun hbacked => ?_⟩
  rw [of_decide_eq_true hw] at hbacked
  have hearlier := hbacked.1.2 5000 (List.mem_singleton.mpr rfl)
  exact absurd hearlier (by decide)

end Pokyh.Account.Tokens

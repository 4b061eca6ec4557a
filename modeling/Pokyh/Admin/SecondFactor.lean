import Mathlib.Data.List.Nodup
import Pokyh.Lib.Logs
import Pokyh.Lib.Runs

/-!
# Admin — SecondFactor

The second factor of one admin (`services/adminSecondFactor.ts`, `security/totp.ts`): the operations over
its row, each split into its database reads and writes, called from any number of sessions and nodes.

* `Event.Contradicts`: a code accepted twice, a recovery code accepted once it was used or replaced, a last
  used step that goes back.
* `codes_work_once`: no event contradicts an earlier one in a run whose writes of accepted steps find the
  secret that the code was checked against, and in the case of `enableTotp` an older last step.
* `enabled_twice`: two calls of `enableTotp` accept one code.
-/

namespace Pokyh.Admin.SecondFactor
open Pokyh.Lib

/-! ### Codes -/

/-- HMAC-SHA1 of a secret at a step as six digits, SHA-256, and upper case. -/
structure Crypto where
  totpCode : String → ℕ → String
  sha256 : String → String
  upper : String → String

variable (x : Crypto)

def STEP_SECONDS : ℕ := 30

def totpStep (nowMs : ℕ) : ℕ := nowMs / 1000 / STEP_SECONDS

/-- Blanks, as patterns know them. -/
def isBlank (ch : Char) : Bool :=
  (9 ≤ ch.toNat && ch.toNat ≤ 13) || ch.toNat ∈ [0x20, 0xA0, 0x1680, 0x2028, 0x2029, 0x202F, 0x205F, 0x3000, 0xFEFF] ||
    (0x2000 ≤ ch.toNat && ch.toNat ≤ 0x200A)

/-- The step a code belongs to, never one at or before the last used. -/
def verifyTotp (secret code : String) (nowMs lastUsedStep : ℕ) : Option ℕ :=
  let digits := code.toList.filter fun ch => !isBlank ch
  let current := totpStep nowMs
  if digits.length = 6 && digits.all Char.isDigit then
    [current - 1, current, current + 1].find? fun step =>
      lastUsedStep < step && (x.totpCode secret step).toList = digits
  else none

def normalizeRecoveryCode (code : String) : List Char :=
  (x.upper code).toList.filter fun ch => ('A' ≤ ch && ch ≤ 'Z') || ('2' ≤ ch && ch ≤ '7')

def hashRecoveryCode (code : String) : String := x.sha256 (String.ofList (normalizeRecoveryCode x code))

/-- The remaining hashes after using a code; of equal hashes the last goes. -/
def consumeRecoveryCode (hashes : List String) (code : String) : Option (List String) :=
  if (normalizeRecoveryCode x code).length = 10 && hashRecoveryCode x code ∈ hashes then
    some (hashes.reverse.erase (hashRecoveryCode x code)).reverse
  else none

/-! ### The row and the calls -/

/-- The row of `adminTotp`.  A secret is sealed once, under a nonce of its own: comparing sealed secrets
compares secrets. -/
structure Totp where
  secretEnc : String
  enabled : Bool
  lastUsedStep : ℕ
  recoveryCodes : List String
  pendingSecretEnc : Option String
  deriving DecidableEq, Repr

/-- What a code is asked for. -/
inductive Goal where
  | login | move | disable | regenerate
  deriving DecidableEq, Repr

/-- A call between two of its steps. -/
inductive Call where
  | startTotpSetup
  | enableTotp (row : Totp) (step : ℕ)
  | useSecondFactorCode (goal : Goal) (code : String) (allowTotp : Bool)
  | acceptTotpStep (goal : Goal) (row : Totp) (step : ℕ)
  | useRecoveryCode (goal : Goal) (row : Totp) (code : String) (remaining : List String)
  | confirmed (goal : Goal)
  | finishTotpMove (pending : String) (step : ℕ)
  deriving DecidableEq, Repr

/-- What a run is about, as it happens. -/
inductive Event where
  /-- A code of this step of the secret was accepted. -/
  | totp (secret : String) (step : ℕ)
  /-- A recovery code was accepted. -/
  | recovery (hash : String)
  /-- A recovery code left the row without having been used. -/
  | replaced (hash : String)
  /-- The row holds this secret and this last used step. -/
  | stored (secret : String) (lastUsedStep : ℕ)
  deriving DecidableEq, Repr

/-- The later event must not follow the earlier one. -/
def Event.Contradicts : Event → Event → Prop
  | .totp secret step, .totp secret' step' => secret = secret' ∧ step = step'
  | .recovery hash, .recovery hash' => hash = hash'
  | .recovery hash, .replaced hash' => hash = hash'
  | .stored secret last, .stored secret' last' => secret = secret' ∧ last < last'
  | _, _ => False

instance : DecidableRel Event.Contradicts
  | .totp _ _, .totp _ _ => inferInstanceAs (Decidable (_ ∧ _))
  | .recovery _, .recovery _ => inferInstanceAs (Decidable (_ = _))
  | .recovery _, .replaced _ => inferInstanceAs (Decidable (_ = _))
  | .stored _ _, .stored _ _ => inferInstanceAs (Decidable (_ ∧ _))
  | .totp _ _, .recovery _ | .totp _ _, .replaced _ | .totp _ _, .stored _ _ => .isFalse id
  | .recovery _, .totp _ _ | .recovery _, .stored _ _ => .isFalse id
  | .replaced _, _ => .isFalse id
  | .stored _ _, .totp _ _ | .stored _ _, .recovery _ | .stored _ _, .replaced _ => .isFalse id

/-- The row, the calls under way, what has happened, and what was ever generated. -/
structure Factor where
  row : Option Totp
  calls : List Call
  log : List Event
  secrets : List String
  issued : List String
  deriving DecidableEq, Repr

/-- No second factor yet. -/
def Factor.empty : Factor := ⟨none, [], [], [], []⟩

/-- A call is left under way, or has ended. -/
def Factor.call (w : Factor) (c : Call) : Factor := { w with calls := c :: w.calls }

/-- What the row holds. -/
def storedEvents : Option Totp → List Event
  | some r => [.stored r.secretEnc r.lastUsedStep]
  | none => []

/-- A write, and the events that it is. -/
def Factor.write (w : Factor) (row : Option Totp) (events : List Event) : Factor :=
  { w with row, log := storedEvents row ++ (events ++ w.log) }

/-- The recovery codes of the row that a write replaces. -/
def Factor.replacedCodes (w : Factor) : List Event :=
  match w.row with
  | some r => r.recoveryCodes.map .replaced
  | none => []

/-- What a node is asked to do. -/
inductive Request where
  | startTotpSetup
  | enableTotp (code : String)
  | login (code : String) (allowTotp : Bool)
  | startTotpMove (code : String)
  | finishTotpMove (code : String)
  | regenerateRecoveryCodes (code : String)
  | disableTotp (code : String)
  | clearSecondFactors
  deriving DecidableEq, Repr

/-- The request's first step. -/
def Factor.begin (w : Factor) (nowMs : ℕ) : Request → Factor
  | .startTotpSetup => if w.row.any Totp.enabled then w else w.call .startTotpSetup
  | .enableTotp code =>
      match w.row with
      | some r =>
          match if r.enabled then none else verifyTotp x r.secretEnc code nowMs r.lastUsedStep with
          | some step => w.call (.enableTotp r step)
          | none => w
      | none => w
  | .login code allowTotp => w.call (.useSecondFactorCode .login code allowTotp)
  | .startTotpMove code =>
      if w.row.any Totp.enabled then w.call (.useSecondFactorCode .move code true) else w
  | .finishTotpMove code =>
      match w.row with
      | some r =>
          match if r.enabled then r.pendingSecretEnc else none with
          | some pending =>
              match verifyTotp x pending code nowMs 0 with
              | some step => w.call (.finishTotpMove pending step)
              | none => w
          | none => w
      | none => w
  | .regenerateRecoveryCodes code => w.call (.useSecondFactorCode .regenerate code true)
  | .disableTotp code => w.call (.useSecondFactorCode .disable code true)
  | .clearSecondFactors => w.write none w.replacedCodes

/-- `useSecondFactorCode`, having read the row. -/
def Factor.checkCode (w : Factor) (nowMs : ℕ) (goal : Goal) (code : String) (allowTotp : Bool) : Factor :=
  match w.row with
  | some r =>
      if r.enabled then
        match if allowTotp then verifyTotp x r.secretEnc code nowMs r.lastUsedStep else none with
        | some step => w.call (.acceptTotpStep goal r step)
        | none =>
            match consumeRecoveryCode x r.recoveryCodes code with
            | some remaining => w.call (.useRecoveryCode goal r code remaining)
            | none => w
      else w
  | none => w

/-- After an accepted code, what it was asked for is next. -/
def Factor.next (w : Factor) (goal : Goal) : Factor := if goal = .login then w else w.call (.confirmed goal)

/-- What `generateTotpSecret` and `generateRecoveryCodes` give a call. -/
structure Fresh where
  secret : String
  codes : List String
  deriving DecidableEq, Repr

/-- The next step of a call that is under way. -/
def Factor.goOn (w : Factor) (nowMs : ℕ) (fresh : Fresh) : Call → Factor
  | .startTotpSetup =>
      { w.write (some ⟨fresh.secret, false, 0, [], w.row.bind Totp.pendingSecretEnc⟩) w.replacedCodes with
        secrets := fresh.secret :: w.secrets }
  | .enableTotp row step =>
      match w.row with
      | some r =>
          { w.write (some { r with enabled := true, lastUsedStep := step, recoveryCodes := fresh.codes })
              (.totp row.secretEnc step :: w.replacedCodes) with
            issued := fresh.codes ++ w.issued }
      | none => w
  | .useSecondFactorCode goal code allowTotp => w.checkCode x nowMs goal code allowTotp
  | .acceptTotpStep goal row step =>
      match w.row with
      | some r =>
          if r.lastUsedStep < step then
            (w.write (some { r with lastUsedStep := step }) [.totp row.secretEnc step]).next goal
          else w
      | none => w
  | .useRecoveryCode goal row code remaining =>
      match w.row with
      | some r =>
          if r.recoveryCodes = row.recoveryCodes then
            (w.write (some { r with recoveryCodes := remaining }) [.recovery (hashRecoveryCode x code)]).next goal
          else w
      | none => w
  | .confirmed goal =>
      match w.row, goal with
      | some r, .move =>
          { w.write (some { r with pendingSecretEnc := some fresh.secret }) [] with
            secrets := fresh.secret :: w.secrets }
      | some r, .regenerate =>
          { w.write (some { r with recoveryCodes := fresh.codes }) w.replacedCodes with
            issued := fresh.codes ++ w.issued }
      | _, .disable => w.write none w.replacedCodes
      | _, _ => w
  | .finishTotpMove pending step =>
      match w.row with
      | some r =>
          if r.pendingSecretEnc = some pending then
            w.write (some { r with secretEnc := pending, pendingSecretEnc := none, lastUsedStep := step })
              [.totp pending step]
          else w
      | none => w

inductive Move where
  | begin (request : Request) (nowMs : ℕ)
  | goOn (call : Call) (nowMs : ℕ) (fresh : Fresh)
  /-- The node goes away. -/
  | giveUp (call : Call)
  deriving DecidableEq, Repr

/-- What is generated was never generated before. -/
def Factor.allows (w : Factor) (fresh : Fresh) : Bool :=
  fresh.secret ∉ w.secrets && decide fresh.codes.Nodup && fresh.codes.all (· ∉ w.issued)

def Factor.step (w : Factor) : Move → Option Factor
  | .begin request nowMs => some (w.begin x nowMs request)
  | .goOn call nowMs fresh =>
      if call ∈ w.calls && w.allows fresh then some ({ w with calls := w.calls.erase call }.goOn x nowMs fresh call)
      else none
  | .giveUp call => if call ∈ w.calls then some { w with calls := w.calls.erase call } else none

/-- The write of an accepted step finds the secret that the code was checked against; that of `enableTotp`
also an older last step. -/
def Factor.careful (w : Factor) : Move → Bool
  | .goOn (.enableTotp row step) _ _ => w.row.all fun r => r.secretEnc = row.secretEnc && r.lastUsedStep < step
  | .goOn (.acceptTotpStep _ row _) _ _ => w.row.all fun r => r.secretEnc = row.secretEnc
  | _ => true

/-! ### What the row and the log say of each other -/

/-- Secrets that were used or stored are not waiting, and the last used step of the current one is the latest. -/
structure SecretsKept (secrets : List String) (row : Option Totp) (log : List Event) : Prop where
  current : ∀ r, row = some r → r.secretEnc ∈ secrets
  pending : ∀ r, row = some r → ∀ p, r.pendingSecretEnc = some p → p ∈ secrets ∧ p ≠ r.secretEnc
  told : ∀ s k, .totp s k ∈ log ∨ .stored s k ∈ log →
    s ∈ secrets ∧ ∀ r, row = some r → r.pendingSecretEnc ≠ some s ∧ (r.secretEnc = s → k ≤ r.lastUsedStep)

/-- The recovery codes of the row are neither used nor replaced. -/
structure CodesKept (issued : List String) (row : Option Totp) (log : List Event) : Prop where
  live : ∀ r, row = some r → r.recoveryCodes.Nodup ∧
    ∀ h ∈ r.recoveryCodes, h ∈ issued ∧ .recovery h ∉ log ∧ .replaced h ∉ log
  gone : ∀ h, .recovery h ∈ log ∨ .replaced h ∈ log → h ∈ issued

/-- **The invariant of runs whose writes are careful.** -/
structure Kept (w : Factor) : Prop where
  sound : Sound Event.Contradicts w.log
  secrets : SecretsKept w.secrets w.row w.log
  codes : CodesKept w.issued w.row w.log
  recovering : ∀ goal row code remaining, .useRecoveryCode goal row code remaining ∈ w.calls →
    consumeRecoveryCode x row.recoveryCodes code = some remaining

variable {x} {w w' : Factor} {r : Totp} {events : List Event}

theorem mem_replacedCodes {e : Event} :
    e ∈ w.replacedCodes ↔ ∃ r, w.row = some r ∧ ∃ h ∈ r.recoveryCodes, e = .replaced h := by
  cases hr : w.row with
  | none => simp [Factor.replacedCodes, hr]
  | some r => simp [Factor.replacedCodes, hr, eq_comm]

theorem mem_storedEvents {row : Option Totp} {e : Event} :
    e ∈ storedEvents row ↔ ∃ r, row = some r ∧ e = .stored r.secretEnc r.lastUsedStep := by
  cases row <;> simp [storedEvents]

/-- Replaced codes contradict nothing. -/
theorem sound_replaced (h : Sound Event.Contradicts w.log) : Sound Event.Contradicts (w.replacedCodes ++ w.log) :=
  h.append fun a ha e hc => by
    obtain ⟨_, _, _, _, rfl⟩ := mem_replacedCodes.mp ha
    exact hc

/-- What is stored does not go back behind what was, if that is so for every earlier event. -/
theorem sound_stored {row : Option Totp} {log : List Event} (h : Sound Event.Contradicts log)
    (hback : ∀ s k, .stored s k ∈ log → ∀ r, row = some r → r.secretEnc = s → k ≤ r.lastUsedStep) :
    Sound Event.Contradicts (storedEvents row ++ log) := by
  cases row with
  | none => exact h
  | some r =>
      refine .cons h fun e he hc => ?_
      cases e with
      | stored s k => exact absurd hc.2 (Nat.not_lt.mpr (hback s k he r rfl hc.1))
      | totp | recovery | replaced => exact hc

theorem SecretsKept.store {secrets : List String} {row : Option Totp} {log : List Event} (h : SecretsKept secrets row log) :
    SecretsKept secrets row (storedEvents row ++ log) where
  current := h.current
  pending := h.pending
  told := fun s k hmem => by
    simp only [List.mem_append, mem_storedEvents] at hmem
    rcases hmem with (⟨r, -, hr⟩ | hlog) | (⟨r, hrow, hr⟩ | hlog)
    · cases hr
    · exact h.told s k (.inl hlog)
    · cases hr
      refine ⟨h.current r hrow, fun r' hr' => ?_⟩
      obtain rfl : r = r' := Option.some.inj (hrow.symm.trans hr')
      exact ⟨fun hp => (h.pending r hrow _ hp).2 rfl, fun _ => Nat.le_refl _⟩
    · exact h.told s k (.inr hlog)

/-- Events that are about no recovery code. -/
theorem CodesKept.note {news : List Event} {issued : List String} {row : Option Totp} {log : List Event} (h : CodesKept issued row log)
    (hnews : ∀ c, .recovery c ∉ news ∧ .replaced c ∉ news) : CodesKept issued row (news ++ log) where
  live := fun r hr => ⟨(h.live r hr).1, fun c hc => by
    obtain ⟨hissued, h₁, h₂⟩ := (h.live r hr).2 c hc
    exact ⟨hissued, fun hmem => (List.mem_append.mp hmem).elim (hnews c).1 h₁,
      fun hmem => (List.mem_append.mp hmem).elim (hnews c).2 h₂⟩⟩
  gone := fun c hc => h.gone c (by
    rcases hc with hc | hc
    · exact .inl ((List.mem_append.mp hc).resolve_left (hnews c).1)
    · exact .inr ((List.mem_append.mp hc).resolve_left (hnews c).2))

theorem not_mem_storedEvents {row : Option Totp} (c : String) :
    .recovery c ∉ storedEvents row ∧ .replaced c ∉ storedEvents row := by
  cases row <;> simp [storedEvents]

/-- **The step rule for writes.** -/
theorem Kept.write (h : Kept x w) (secrets issued : List String) (row : Option Totp) (events : List Event)
    (hsound : Sound Event.Contradicts (events ++ w.log)) (hsecrets : SecretsKept secrets row (events ++ w.log))
    (hcodes : CodesKept issued row (events ++ w.log)) :
    Kept x { w.write row events with secrets, issued } where
  sound := sound_stored hsound fun s k hmem r hr => ((hsecrets.told s k (.inr hmem)).2 r hr).2
  secrets := hsecrets.store
  codes := hcodes.note not_mem_storedEvents
  recovering := h.recovering

/-! ### What becomes of the secrets and the codes -/

/-- Replaced codes are nothing to the secrets. -/
theorem SecretsKept.replace {secrets : List String} {row : Option Totp} (h : SecretsKept secrets row w.log) :
    SecretsKept secrets row (w.replacedCodes ++ w.log) where
  current := h.current
  pending := h.pending
  told := fun s k hmem => h.told s k (by
    have hout : Event.totp s k ∉ w.replacedCodes ∧ Event.stored s k ∉ w.replacedCodes := by
      constructor <;> intro he <;> obtain ⟨_, _, _, _, heq⟩ := mem_replacedCodes.mp he <;> cases heq
    simpa [hout.1, hout.2] using hmem)

/-- A row without codes, or with new ones, after the old ones are replaced. -/
theorem CodesKept.replace {issued : List String} {row : Option Totp} {fresh : List String}
    (h : CodesKept issued w.row w.log) (hnodup : fresh.Nodup) (hfresh : ∀ c ∈ fresh, c ∉ issued)
    (hrow : ∀ r, row = some r → r.recoveryCodes = fresh) :
    CodesKept (fresh ++ issued) row (w.replacedCodes ++ w.log) where
  live := fun r hr => by
    rw [hrow r hr]
    refine ⟨hnodup, fun c hc => ⟨List.mem_append_left _ hc, fun hmem => ?_, fun hmem => ?_⟩⟩ <;>
      refine hfresh c hc ?_
    · rcases List.mem_append.mp hmem with hold | hlog
      · obtain ⟨_, _, _, _, heq⟩ := mem_replacedCodes.mp hold
        cases heq
      · exact h.gone c (.inl hlog)
    · rcases List.mem_append.mp hmem with hold | hlog
      · obtain ⟨r', hr', c', hc', heq⟩ := mem_replacedCodes.mp hold
        cases heq
        exact ((h.live r' hr').2 c hc').1
      · exact h.gone c (.inr hlog)
  gone := fun c hc => by
    refine List.mem_append_right _ ?_
    simp only [List.mem_append, mem_replacedCodes] at hc
    rcases hc with (⟨_, _, _, _, heq⟩ | hlog) | (⟨r', hr', c', hc', heq⟩ | hlog)
    · cases heq
    · exact h.gone c (.inl hlog)
    · cases heq
      exact ((h.live r' hr').2 c hc').1
    · exact h.gone c (.inr hlog)

/-- A row with the codes it had. -/
theorem CodesKept.same {issued : List String} {row : Option Totp} {log : List Event} (h : CodesKept issued w.row log)
    (hrow : ∀ r, row = some r → ∃ r', w.row = some r' ∧ r.recoveryCodes = r'.recoveryCodes) : CodesKept issued row log where
  live := fun r hr => by
    obtain ⟨r', hr', hsame⟩ := hrow r hr
    exact hsame ▸ h.live r' hr'
  gone := h.gone

theorem consumed_mem {hashes remaining : List String} {code : String} (hnodup : hashes.Nodup)
    (h : consumeRecoveryCode x hashes code = some remaining) :
    hashRecoveryCode x code ∈ hashes ∧ remaining.Nodup ∧
      ∀ c ∈ remaining, c ∈ hashes ∧ c ≠ hashRecoveryCode x code := by
  obtain ⟨hmem, heq⟩ := Option.ite_none_right_eq_some.mp h
  cases heq
  have hrev : hashes.reverse.Nodup := List.nodup_reverse.mpr hnodup
  refine ⟨of_decide_eq_true (Bool.and_eq_true _ _ ▸ hmem).2, List.nodup_reverse.mpr (hrev.erase _), fun c hc => ?_⟩
  obtain ⟨hne, hin⟩ := (hrev.mem_erase_iff).mp (List.mem_reverse.mp hc)
  exact ⟨List.mem_reverse.mp hin, hne⟩

/-- A new secret, with the one that was waiting still waiting. -/
theorem SecretsKept.setup {secrets : List String} {log : List Event} {secret : String} {row : Totp}
    (h : SecretsKept secrets w.row log) (hfresh : secret ∉ secrets) (hsecret : row.secretEnc = secret)
    (hpending : row.pendingSecretEnc = w.row.bind Totp.pendingSecretEnc) : SecretsKept (secret :: secrets) (some row) log where
  current := fun r hr => by
    cases hr
    exact hsecret ▸ List.mem_cons_self
  pending := fun r hr p hp => by
    cases hr
    rw [hpending] at hp
    obtain ⟨r', hr', hp'⟩ := Option.bind_eq_some_iff.mp hp
    have hmem := (h.pending r' hr' p hp').1
    exact ⟨List.mem_cons_of_mem _ hmem, fun heq => hfresh (hsecret ▸ heq ▸ hmem)⟩
  told := fun s k hmem => by
    obtain ⟨hs, hbound⟩ := h.told s k hmem
    refine ⟨List.mem_cons_of_mem _ hs, fun r hr => ?_⟩
    cases hr
    refine ⟨fun hp => ?_, fun heq => absurd (heq ▸ hs) (hsecret ▸ hfresh)⟩
    rw [hpending] at hp
    obtain ⟨r', hr', hp'⟩ := Option.bind_eq_some_iff.mp hp
    exact (hbound r' hr').1 hp'

/-- A step of the current secret, after the last used one. -/
theorem SecretsKept.advance {secrets : List String} {log : List Event} {row : Totp} {step : ℕ}
    (h : SecretsKept secrets (some r) log) (hsecret : row.secretEnc = r.secretEnc)
    (hpending : row.pendingSecretEnc = r.pendingSecretEnc) (hlast : row.lastUsedStep = step) (hstep : r.lastUsedStep < step) :
    SecretsKept secrets (some row) (.totp r.secretEnc step :: log) where
  current := fun r' hr' => by
    cases hr'
    exact hsecret ▸ h.current r rfl
  pending := fun r' hr' p hp => by
    cases hr'
    exact hsecret ▸ h.pending r rfl p (hpending ▸ hp)
  told := fun s k hmem => by
    have hcases : (s = r.secretEnc ∧ k = step) ∨ .totp s k ∈ log ∨ .stored s k ∈ log := by
      simpa [or_assoc] using hmem
    rcases hcases with ⟨rfl, rfl⟩ | hlog
    · refine ⟨h.current r rfl, fun r' hr' => ?_⟩
      cases hr'
      exact ⟨fun hp => (h.pending r rfl _ (hpending ▸ hp)).2 rfl, fun _ => Nat.le_of_eq hlast.symm⟩
    · obtain ⟨hs, hbound⟩ := h.told s k hlog
      refine ⟨hs, fun r' hr' => ?_⟩
      cases hr'
      exact ⟨hpending ▸ (hbound r rfl).1, fun heq =>
        Nat.le_trans ((hbound r rfl).2 (hsecret ▸ heq)) (hlast ▸ Nat.le_of_lt hstep)⟩

/-- The secret that was waiting. -/
theorem SecretsKept.finish {secrets : List String} {log : List Event} {row : Totp} {pending : String} {step : ℕ}
    (h : SecretsKept secrets (some r) log) (hwaiting : r.pendingSecretEnc = some pending) (hsecret : row.secretEnc = pending)
    (hpending : row.pendingSecretEnc = none) (hlast : row.lastUsedStep = step) :
    SecretsKept secrets (some row) (.totp pending step :: log) where
  current := fun r' hr' => by
    cases hr'
    exact hsecret ▸ (h.pending r rfl _ hwaiting).1
  pending := fun r' hr' p hp => by
    cases hr'
    rw [hpending] at hp
    cases hp
  told := fun s k hmem => by
    have hcases : (s = pending ∧ k = step) ∨ .totp s k ∈ log ∨ .stored s k ∈ log := by
      simpa [or_assoc] using hmem
    rcases hcases with ⟨rfl, rfl⟩ | hlog
    · refine ⟨(h.pending r rfl _ hwaiting).1, fun r' hr' => ?_⟩
      cases hr'
      exact ⟨fun hp => by simp [hpending] at hp, fun _ => Nat.le_of_eq hlast.symm⟩
    · obtain ⟨hs, hbound⟩ := h.told s k hlog
      refine ⟨hs, fun r' hr' => ?_⟩
      cases hr'
      refine ⟨fun hp => by simp [hpending] at hp, fun heq => ?_⟩
      exact absurd (hwaiting.trans (congrArg some (hsecret.symm.trans heq))) (hbound r rfl).1

/-- Another row with the secrets it had, or none. -/
theorem SecretsKept.same {secrets : List String} {log : List Event} {row : Option Totp} (h : SecretsKept secrets w.row log)
    (hrow : ∀ r, row = some r → ∃ r', w.row = some r' ∧ r.secretEnc = r'.secretEnc ∧
      r.pendingSecretEnc = r'.pendingSecretEnc ∧ r.lastUsedStep = r'.lastUsedStep) : SecretsKept secrets row log where
  current := fun r hr => by
    obtain ⟨r', hr', hsecret, -, -⟩ := hrow r hr
    exact hsecret ▸ h.current r' hr'
  pending := fun r hr p hp => by
    obtain ⟨r', hr', hsecret, hpending, -⟩ := hrow r hr
    exact hsecret ▸ h.pending r' hr' p (hpending ▸ hp)
  told := fun s k hmem => by
    obtain ⟨hs, hbound⟩ := h.told s k hmem
    refine ⟨hs, fun r hr => ?_⟩
    obtain ⟨r', hr', hsecret, hpending, hlast⟩ := hrow r hr
    rw [hsecret, hpending, hlast]
    exact hbound r' hr'

/-- Another secret waits. -/
theorem SecretsKept.move {secrets : List String} {log : List Event} {secret : String} {row : Totp}
    (h : SecretsKept secrets (some r) log) (hfresh : secret ∉ secrets) (hsecret : row.secretEnc = r.secretEnc)
    (hpending : row.pendingSecretEnc = some secret) (hlast : row.lastUsedStep = r.lastUsedStep) :
    SecretsKept (secret :: secrets) (some row) log where
  current := fun r' hr' => by
    cases hr'
    exact hsecret ▸ List.mem_cons_of_mem _ (h.current r rfl)
  pending := fun r' hr' p hp => by
    cases hr'
    obtain rfl : secret = p := Option.some.inj (hpending.symm.trans hp)
    exact ⟨List.mem_cons_self, fun heq => hfresh (heq ▸ hsecret ▸ h.current r rfl)⟩
  told := fun s k hmem => by
    obtain ⟨hs, hbound⟩ := h.told s k hmem
    refine ⟨List.mem_cons_of_mem _ hs, fun r' hr' => ?_⟩
    cases hr'
    refine ⟨fun hp => ?_, fun heq => hlast ▸ (hbound r rfl).2 (hsecret ▸ heq)⟩
    obtain rfl : secret = s := Option.some.inj (hpending.symm.trans hp)
    exact hfresh hs

/-- An event that is about no step of a secret. -/
theorem SecretsKept.note {secrets : List String} {row : Option Totp} {log : List Event} {e : Event}
    (h : SecretsKept secrets row log) (he : ∀ s k, e ≠ .totp s k ∧ e ≠ .stored s k) : SecretsKept secrets row (e :: log) where
  current := h.current
  pending := h.pending
  told := fun s k hmem => h.told s k (by simpa [(he s k).1.symm, (he s k).2.symm] using hmem)

/-- A step after the last used one was not accepted before. -/
theorem sound_totp {log : List Event} {s : String} {step : ℕ} (hsound : Sound Event.Contradicts log) (hlog : ∀ k, .totp s k ∈ log → .totp s k ∈ w.log)
    (hnew : ∀ k, .totp s k ∈ w.log → k < step) : Sound Event.Contradicts (.totp s step :: log) :=
  .cons hsound fun e he hc => by
    cases e with
    | totp s' k =>
        obtain ⟨rfl, rfl⟩ := hc
        exact absurd (hnew _ (hlog _ he)) (Nat.lt_irrefl _)
    | recovery | replaced | stored => exact hc

theorem SecretsKept.before {k step : ℕ} (h : SecretsKept w.secrets w.row w.log) (hr : w.row = some r)
    (hk : .totp r.secretEnc k ∈ w.log) (hstep : r.lastUsedStep < step) : k < step :=
  Nat.lt_of_le_of_lt (((h.told _ k (.inl hk)).2 r hr).2 rfl) hstep

theorem totp_of_replaced {s : String} {k : ℕ} (h : .totp s k ∈ w.replacedCodes ++ w.log) : .totp s k ∈ w.log := by
  refine (List.mem_append.mp h).resolve_left fun hmem => ?_
  obtain ⟨_, _, _, _, heq⟩ := mem_replacedCodes.mp hmem
  cases heq

/-- A recovery code that was used. -/
theorem CodesKept.consume {row : Totp} {hash : String} (h : CodesKept w.issued w.row w.log) (hr : w.row = some r)
    (hmem : hash ∈ r.recoveryCodes) {remaining : List String} (hrow : row.recoveryCodes = remaining)
    (hnodup : remaining.Nodup) (hsub : ∀ c ∈ remaining, c ∈ r.recoveryCodes ∧ c ≠ hash) :
    CodesKept w.issued (some row) (.recovery hash :: w.log) where
  live := fun r' hr' => by
    cases hr'
    rw [hrow]
    refine ⟨hnodup, fun c hc => ?_⟩
    obtain ⟨hissued, hused, hreplaced⟩ := (h.live r hr).2 c (hsub c hc).1
    exact ⟨hissued, by simp [hused, (hsub c hc).2], by simp [hreplaced]⟩
  gone := fun c hc => by
    have hcases : c = hash ∨ .recovery c ∈ w.log ∨ .replaced c ∈ w.log := by
      simpa [or_assoc] using hc
    rcases hcases with rfl | hlog
    · exact ((h.live r hr).2 c hmem).1
    · exact h.gone c hlog

/-! ### The steps of the calls -/

theorem Kept.withCalls (h : Kept x w) {calls : List Call} (hcalls : ∀ goal row code remaining,
    .useRecoveryCode goal row code remaining ∈ calls → consumeRecoveryCode x row.recoveryCodes code = some remaining) :
    Kept x { w with calls } := { h with recovering := hcalls }

theorem Kept.erase (h : Kept x w) (c : Call) : Kept x { w with calls := w.calls.erase c } :=
  h.withCalls fun goal row code remaining hmem => h.recovering goal row code remaining (List.mem_of_mem_erase hmem)

/-- Another call is under way. -/
theorem Kept.call (h : Kept x w) {c : Call} (hc : ∀ goal row code remaining, c = .useRecoveryCode goal row code remaining →
    consumeRecoveryCode x row.recoveryCodes code = some remaining) : Kept x (w.call c) :=
  h.withCalls fun goal row code remaining hmem => (List.mem_cons.mp hmem).elim (fun heq => hc goal row code remaining heq.symm)
    (h.recovering goal row code remaining)

theorem Kept.next (h : Kept x w) (goal : Goal) : Kept x (w.next goal) := by
  rw [Factor.next]
  split
  · exact h
  · exact h.call nofun

/-- Removing the row. -/
theorem Kept.clear (h : Kept x w) : Kept x (w.write none w.replacedCodes) :=
  h.write w.secrets w.issued none w.replacedCodes (sound_replaced h.sound)
    ((h.secrets.same (by simp)).replace)
    (h.codes.replace List.nodup_nil (fun _ hc => absurd hc List.not_mem_nil) fun _ hr => nomatch hr)

theorem Kept.begin (h : Kept x w) (nowMs : ℕ) (request : Request) : Kept x (w.begin x nowMs request) := by
  have hcall (c : Call) (hc : ∀ goal row code remaining, c ≠ .useRecoveryCode goal row code remaining) :
      Kept x (w.call c) := h.call fun goal row code remaining heq => absurd heq (hc goal row code remaining)
  cases request with
  | startTotpSetup =>
      rw [Factor.begin]
      split
      · exact h
      · exact hcall _ fun _ _ _ _ => nofun
  | enableTotp code =>
      rw [Factor.begin]
      split
      · split
        · exact hcall _ fun _ _ _ _ => nofun
        · exact h
      · exact h
  | login | regenerateRecoveryCodes | disableTotp => exact hcall _ fun _ _ _ _ => nofun
  | startTotpMove code =>
      rw [Factor.begin]
      split
      · exact hcall _ fun _ _ _ _ => nofun
      · exact h
  | finishTotpMove code =>
      rw [Factor.begin]
      split
      · split
        · split
          · exact hcall _ fun _ _ _ _ => nofun
          · exact h
        · exact h
      · exact h
  | clearSecondFactors => exact h.clear

theorem Kept.checkCode (h : Kept x w) (nowMs : ℕ) (goal : Goal) (code : String) (allowTotp : Bool) :
    Kept x (w.checkCode x nowMs goal code allowTotp) := by
  rw [Factor.checkCode]
  split
  case h_1 r _ =>
    split
    · split
      · exact h.call nofun
      · split
        case h_1 remaining hconsume =>
          refine h.call fun goal' row code' remaining' heq => ?_
          cases heq
          exact hconsume
        case h_2 => exact h
    · exact h
  case h_2 => exact h

/-- **A careful step keeps the invariant.** -/
theorem Kept.goOn (h : Kept x w) (nowMs : ℕ) (fresh : Fresh) (c : Call) (hfresh : w.allows fresh = true)
    (hcareful : w.careful (.goOn c nowMs fresh) = true) (hrecover : ∀ goal row code remaining,
      c = .useRecoveryCode goal row code remaining → consumeRecoveryCode x row.recoveryCodes code = some remaining) :
    Kept x (w.goOn x nowMs fresh c) := by
  simp only [Factor.allows, Bool.and_eq_true, decide_eq_true_eq, List.all_eq_true] at hfresh
  obtain ⟨⟨hsecret, hnodup⟩, hissued⟩ := hfresh
  cases c with
  | startTotpSetup =>
      exact h.write (fresh.secret :: w.secrets) w.issued _ w.replacedCodes (sound_replaced h.sound)
        ((h.secrets.setup hsecret rfl rfl).replace)
        (h.codes.replace List.nodup_nil (fun _ hc => absurd hc List.not_mem_nil) fun r hr => by cases hr; rfl)
  | enableTotp row step =>
      rw [Factor.goOn]
      split
      case h_1 r hr =>
        simp only [Factor.careful, hr, Option.all_some, Bool.and_eq_true, decide_eq_true_eq] at hcareful
        obtain ⟨hsame, hstep⟩ := hcareful
        have hsecrets := h.secrets.replace
        rw [hr] at hsecrets
        rw [← hsame]
        refine h.write w.secrets (fresh.codes ++ w.issued) _ (_ :: w.replacedCodes) ?_ (hsecrets.advance rfl rfl rfl hstep) ?_
        · exact sound_totp (sound_replaced h.sound) (fun k => totp_of_replaced) fun k hk =>
            h.secrets.before hr hk hstep
        · have hcodes : CodesKept (fresh.codes ++ w.issued)
              (some { r with enabled := true, lastUsedStep := step, recoveryCodes := fresh.codes })
              (w.replacedCodes ++ w.log) := h.codes.replace hnodup hissued fun r' hr' => by cases hr'; rfl
          have hnote : CodesKept (fresh.codes ++ w.issued)
              (some { r with enabled := true, lastUsedStep := step, recoveryCodes := fresh.codes })
              ([.totp r.secretEnc step] ++ (w.replacedCodes ++ w.log)) := hcodes.note fun c => by simp
          exact hnote
      case h_2 => exact h
  | useSecondFactorCode goal code allowTotp => exact h.checkCode nowMs goal code allowTotp
  | acceptTotpStep goal row step =>
      rw [Factor.goOn]
      split
      case h_1 r hr =>
        split
        case isTrue hstep =>
          simp only [Factor.careful, hr, Option.all_some, decide_eq_true_eq] at hcareful
          rw [← hcareful]
          have hsecrets := h.secrets
          rw [hr] at hsecrets
          have hwrite : Kept x (w.write (some { r with lastUsedStep := step }) [.totp r.secretEnc step]) := by
            refine h.write w.secrets w.issued _ _ ?_ (hsecrets.advance rfl rfl rfl hstep) ?_
            · exact sound_totp h.sound (fun _ => id) fun k hk => h.secrets.before hr hk hstep
            · exact (h.codes.same fun r' hr' => ⟨r, hr, by cases hr'; rfl⟩).note fun c => by simp
          exact hwrite.next goal
        case isFalse => exact h
      case h_2 => exact h
  | useRecoveryCode goal row code remaining =>
      rw [Factor.goOn]
      split
      case h_1 r hr =>
        split
        case isTrue hsame =>
          obtain ⟨hnodup', hlive⟩ := h.codes.live r hr
          obtain ⟨hmem, hleft, hsub⟩ := consumed_mem hnodup' (hsame ▸ hrecover goal row code remaining rfl)
          refine Kept.next (h.write w.secrets w.issued (some { r with recoveryCodes := remaining })
            [.recovery (hashRecoveryCode x code)] ?_ ?_ ?_) goal
          · refine .cons h.sound fun e he hc => ?_
            obtain ⟨-, hused, hreplaced⟩ := hlive _ hmem
            cases e with
            | recovery c => exact hused (hc ▸ he)
            | replaced c => exact hreplaced (hc ▸ he)
            | totp | stored => exact hc
          · exact (h.secrets.same fun r' hr' => ⟨r, hr, by cases hr'; exact ⟨rfl, rfl, rfl⟩⟩).note fun _ _ => ⟨nofun, nofun⟩
          · exact h.codes.consume hr hmem rfl hleft hsub
        case isFalse => exact h
      case h_2 => exact h
  | confirmed goal =>
      simp only [Factor.goOn]
      split
      case h_1 r hr =>
        have hsecrets := h.secrets
        rw [hr] at hsecrets
        exact h.write (fresh.secret :: w.secrets) w.issued _ [] h.sound (hsecrets.move hsecret rfl rfl rfl)
          (h.codes.same fun r' hr' => ⟨r, hr, by cases hr'; rfl⟩)
      case h_2 r hr =>
        exact h.write w.secrets (fresh.codes ++ w.issued) _ w.replacedCodes (sound_replaced h.sound)
          ((h.secrets.same fun r' hr' => ⟨r, hr, by cases hr'; exact ⟨rfl, rfl, rfl⟩⟩).replace)
          (h.codes.replace hnodup hissued fun r' hr' => by cases hr'; rfl)
      case h_3 => exact h.clear
      case h_4 => exact h
  | finishTotpMove pending step =>
      rw [Factor.goOn]
      split
      case h_1 r hr =>
        split
        case isTrue hwaiting =>
          have hsecrets := h.secrets
          rw [hr] at hsecrets
          refine h.write w.secrets w.issued _ [_] ?_ (hsecrets.finish hwaiting rfl rfl rfl) ?_
          · refine sound_totp h.sound (fun _ => id) fun k hk => ?_
            exact absurd hwaiting ((hsecrets.told _ k (.inl hk)).2 r rfl).1
          · exact (h.codes.same fun r' hr' => ⟨r, hr, by cases hr'; rfl⟩).note fun c => by simp
        case isFalse => exact h
      case h_2 => exact h

/-- **A careful step keeps the invariant.** -/
theorem Kept.step (h : Kept x w) {m : Move} (hcareful : w.careful m = true) (hstep : w.step x m = some w') : Kept x w' := by
  cases m with
  | begin request nowMs =>
      cases hstep
      exact h.begin nowMs request
  | goOn c nowMs fresh =>
      obtain ⟨hallows, heq⟩ := Option.ite_none_right_eq_some.mp hstep
      cases heq
      rw [Bool.and_eq_true, decide_eq_true_eq] at hallows
      refine (h.erase c).goOn nowMs fresh c hallows.2 ?_ fun goal row code remaining hc =>
        h.recovering goal row code remaining (hc ▸ hallows.1)
      cases c <;> exact hcareful
  | giveUp c =>
      obtain ⟨-, heq⟩ := Option.ite_none_right_eq_some.mp hstep
      cases heq
      exact h.erase c

theorem kept_empty : Kept x .empty where
  sound := .nil
  secrets := ⟨nofun, nofun, nofun⟩
  codes := ⟨nofun, nofun⟩
  recovering := nofun

/-- **Every code works once**, and the last used step of a secret never goes back, in runs whose writes of accepted
steps find the secret that was read, and in the case of `enableTotp` an older last step. -/
theorem codes_work_once {moves : List Move} (hrun : run (Factor.step x) .empty moves = some w)
    (hcareful : Meets (Factor.step x) (fun w m => w.careful m = true) .empty moves) :
    Sound Event.Contradicts w.log :=
  (run_invariant_of_meets (P := Kept x) (fun _ _ _ h hok hstep => h.step hok hstep) kept_empty hcareful hrun).sound

/-- Codes that anyone can tell. -/
def plainCrypto : Crypto where
  totpCode := fun _ step => String.ofList (List.replicate (6 - (toString step).length) '0' ++ (toString step).toList)
  sha256 := fun text => "sha:" ++ text
  upper := String.toUpper

def waiting : Totp := ⟨"OLD", false, 0, [], none⟩

/-- The row once the app is set up with the code of the first step. -/
def ready : Totp := ⟨"OLD", true, 1, ["sha:AAAAABBBBB"], none⟩

def setUp : List Move := [.begin .startTotpSetup 0, .goOn .startTotpSetup 0 ⟨"OLD", []⟩]

/-- Set up, and a login with the next code. -/
def login : List Move :=
  setUp ++ [.begin (.enableTotp "000001") 30000, .goOn (.enableTotp waiting 1) 30000 ⟨"", ["sha:AAAAABBBBB"]⟩,
    .begin (.login "000002" true) 60000, .goOn (.useSecondFactorCode .login "000002" true) 60000 ⟨"", []⟩,
    .goOn (.acceptTotpStep .login ready 2) 60000 ⟨"", []⟩]

theorem codes_work_once_login : ∃ w, run (Factor.step plainCrypto) .empty login = some w ∧
    .totp "OLD" 2 ∈ w.log ∧ Sound Event.Contradicts w.log := by
  have hgives : (run (Factor.step plainCrypto) .empty login).any (fun w => .totp "OLD" 2 ∈ w.log) = true := by
    decide +kernel
  obtain ⟨w, hrun, hmem⟩ := (Option.any_eq_true _ _).mp hgives
  exact ⟨w, hrun, of_decide_eq_true hmem, codes_work_once hrun (by decide +kernel)⟩

/-- **One code, accepted twice**: both calls read the row before either writes. -/
theorem enabled_twice : ∃ w, run (Factor.step plainCrypto) .empty
    (setUp ++ [.begin (.enableTotp "000001") 30000, .begin (.enableTotp "000001") 30000,
      .goOn (.enableTotp waiting 1) 30000 ⟨"", ["sha:AAAAABBBBB"]⟩,
      .goOn (.enableTotp waiting 1) 30000 ⟨"", ["sha:CCCCCDDDDD"]⟩]) = some w ∧ ¬ Sound Event.Contradicts w.log := by
  have hgives : (run (Factor.step plainCrypto) .empty
    (setUp ++ [.begin (.enableTotp "000001") 30000, .begin (.enableTotp "000001") 30000,
      .goOn (.enableTotp waiting 1) 30000 ⟨"", ["sha:AAAAABBBBB"]⟩,
      .goOn (.enableTotp waiting 1) 30000 ⟨"", ["sha:CCCCCDDDDD"]⟩])).any
        (fun w => ¬ Sound Event.Contradicts w.log) = true := by decide +kernel
  obtain ⟨w, hrun, hnot⟩ := (Option.any_eq_true _ _).mp hgives
  exact ⟨w, hrun, of_decide_eq_true hnot⟩

end Pokyh.Admin.SecondFactor

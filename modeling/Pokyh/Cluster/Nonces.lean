import Pokyh.Lib.NonceWindows

/-!
# Cluster — Nonces

Requests of a new server for one install (`verifyRequest` and `nonceIsFresh` of `provision.ts`) and the messages with which nodes park
at a relay (`park` of `relay.mjs`), whose proofs are right.

* `installStep`, `parkStep`: one of them arrives.
* `installStep_eq`, `parkStep_eq`: both programs let messages in as a window does that keeps nonces for twice the time a message may be off.
* `accepted_once`: **no message is accepted twice**, as long as no nonce comes of age while its message is looked at.
* `accepted_twice`: the two readings of the clock fall on either side of it.
-/

namespace Pokyh.Cluster.Nonces
open Pokyh.Lib

/-- Milliseconds. -/
abbrev Time := ℤ

/-- Used nonces, with the time of each. -/
abbrev Seen := List (String × Time)

/-! ### The new server's requests -/

def MAX_REQUEST_SKEW_MS : Time := 10 * 60 * 1000

inductive InstallPurpose where
  | provision
  | bundle
  deriving DecidableEq, Repr

/-- What the proof is of. -/
structure InstallRequest where
  purpose : InstallPurpose
  t : Time
  nonce : String
  deriving DecidableEq, Repr

inductive Answer where
  | verified
  | refused (status : ℕ) (error : String)
  deriving DecidableEq, Repr

/-- `nonceIsFresh`, with the install's nonces afterwards. -/
def nonceIsFresh (seen : Seen) (nonce : String) (now : Time) : Bool × Seen :=
  let seen := seen.filter fun e => ¬ now - e.2 > 2 * MAX_REQUEST_SKEW_MS
  if nonce ∈ seen.map Prod.fst || decide (seen.length > 256) then (false, seen) else (true, seen ++ [(nonce, now)])

/-- `verifyRequest`, where the proof is right: the install is still open or not, and the clock is read for the time and for the nonce. -/
def verifyRequest (seen : Seen) (isOpen : Bool) (request : InstallRequest) (clock now : Time) : Answer × Seen :=
  if !isOpen then (.refused 404 "Not found", seen)
  else if |clock - request.t| > MAX_REQUEST_SKEW_MS then (.refused 403 "clock", seen)
  else
    let fresh := nonceIsFresh seen request.nonce now
    (if fresh.1 then .verified else .refused 403 "replay", fresh.2)

/-- A request arrives; the clock does not go back. -/
def installStep (s : Gate InstallRequest String) (a : Arrival InstallRequest) : Option (Gate InstallRequest String) :=
  if s.clock ≤ a.first ∧ a.first ≤ a.second then
    let answer := verifyRequest s.seen a.isDue a.message a.first a.second
    some ⟨a.second, answer.2, if answer.1 = .verified then s.accepted ++ [a.message] else s.accepted⟩
  else none

/-! ### Parking at the relay -/

def MAX_CLOCK_DIFFERENCE_MS : Time := 5 * 60 * 1000
def NONCE_TTL_MS : Time := 10 * 60 * 1000

structure ParkMessage where
  route : String
  t : Time
  n : String
  deriving DecidableEq, Repr

inductive ParkAnswer where
  | ok
  | refused (error : String)
  deriving DecidableEq, Repr

/-- `park`, where the proof is right: what it says of the form, the clock read for the time and for the nonce, and what is said of the
route, if anything. -/
def park (nonces : Seen) (form route : Option String) (message : ParkMessage) (clock now : Time) : ParkAnswer × Seen :=
  match form with
  | some error => (.refused error, nonces)
  | none =>
    if |clock - message.t| > MAX_CLOCK_DIFFERENCE_MS then (.refused "clock", nonces)
    else
      let nonces := nonces.filter fun e => ¬ now - e.2 > NONCE_TTL_MS
      if message.n ∈ nonces.map Prod.fst then (.refused "replay", nonces)
      else
        let nonces := nonces ++ [(message.n, now)]
        match route with
        | some error => (.refused error, nonces)
        | none => (.ok, nonces)

/-- A message arrives; the clock does not go back.  What is said of the form or the route is one of a few words. -/
def parkStep (s : Gate ParkMessage String) (a : Arrival ParkMessage) : Option (Gate ParkMessage String) :=
  if s.clock ≤ a.first ∧ a.first ≤ a.second then
    let answer := park s.seen (if a.isDue then none else some "protocol") (if a.isTaken then none else some "full") a.message a.first a.second
    some ⟨a.second, answer.2, if answer.1 = .ok then s.accepted ++ [a.message] else s.accepted⟩
  else none

/-! ### Both as windows -/

def installWindow : Window InstallRequest String where
  stamp := InstallRequest.t
  nonce := InstallRequest.nonce
  skew := MAX_REQUEST_SKEW_MS
  ttl := 2 * MAX_REQUEST_SKEW_MS
  isFull n := n > 256

def parkWindow : Window ParkMessage String where
  stamp := ParkMessage.t
  nonce := ParkMessage.n
  skew := MAX_CLOCK_DIFFERENCE_MS
  ttl := NONCE_TTL_MS
  isFull _ := false

theorem installStep_eq (s : Gate InstallRequest String) (a : Arrival InstallRequest) :
    installStep s a = installWindow.next s { a with isTaken := true } := by
  rw [installStep, Window.next]
  split
  · cases hdue : a.isDue with
    | false => simp [verifyRequest]
    | true =>
        by_cases hskew : |a.first - a.message.t| > MAX_REQUEST_SKEW_MS
        · simp [verifyRequest, hskew, installWindow]
        · have hkept : installWindow.kept s.seen a.second = s.seen.filter fun e => ¬ a.second - e.2 > 2 * MAX_REQUEST_SKEW_MS := rfl
          have hstamp : ¬ (!true || decide (|a.first - installWindow.stamp a.message| > installWindow.skew)) = true := by
            simpa [installWindow] using hskew
          have hnonce : installWindow.nonce a.message = a.message.nonce := rfl
          have hfull : ∀ n, installWindow.isFull n = decide (n > 256) := fun _ => rfl
          dsimp only
          rw [if_neg hstamp, hkept, hnonce, hfull, verifyRequest, nonceIsFresh]
          simp only [Bool.not_true, Bool.false_eq_true, if_false, if_neg hskew]
          split <;> rfl
  · rfl

theorem parkStep_eq (s : Gate ParkMessage String) (a : Arrival ParkMessage) : parkStep s a = parkWindow.next s a := by
  rw [parkStep, Window.next]
  split
  · cases hdue : a.isDue with
    | false => simp [park]
    | true =>
        by_cases hskew : |a.first - a.message.t| > MAX_CLOCK_DIFFERENCE_MS
        · simp [park, hskew, parkWindow]
        · have hkept : parkWindow.kept s.seen a.second = s.seen.filter fun e => ¬ a.second - e.2 > NONCE_TTL_MS := rfl
          have hstamp : ¬ (!true || decide (|a.first - parkWindow.stamp a.message| > parkWindow.skew)) = true := by
            simpa [parkWindow] using hskew
          have hnonce : parkWindow.nonce a.message = a.message.n := rfl
          have hfull : ∀ n, parkWindow.isFull n = false := fun _ => rfl
          dsimp only
          rw [if_neg hstamp, hkept, hnonce, hfull, Bool.or_false]
          simp only [park, if_true, if_neg hskew]
          by_cases hused : a.message.n ∈ (s.seen.filter fun e => ¬ a.second - e.2 > NONCE_TTL_MS).map Prod.fst
          · rw [if_pos hused, if_pos (decide_eq_true hused)]
            rfl
          · rw [if_neg hused, decide_eq_false hused]
            cases a.isTaken <;> rfl
  · rfl

/-! ### Whole runs -/

/-- **No request of an install and no message to a relay is accepted twice** in a run in which no nonce comes of age between the two
readings of the clock. -/
theorem accepted_once (clock : Time) :
    (∀ arrivals s, Meets installStep installWindow.Steady (.opening InstallRequest String clock) arrivals →
        run installStep (.opening InstallRequest String clock) arrivals = some s → s.accepted.Nodup) ∧
      ∀ arrivals s, Meets parkStep parkWindow.Steady (.opening ParkMessage String clock) arrivals →
        run parkStep (.opening ParkMessage String clock) arrivals = some s → s.accepted.Nodup := by
  constructor
  · intro arrivals s hsteady hrun
    exact Window.accepted_nodup (w := installWindow) (le_refl _) installStep_eq hsteady hrun
  · intro arrivals s hsteady hrun
    exact Window.accepted_nodup (w := parkWindow) (by decide) parkStep_eq hsteady hrun

/-- A request of a clock that goes ten minutes fast, the second time on the last millisecond. -/
def fastRequest : InstallRequest := ⟨.provision, 600000, "nonce-nonce-nonce-nonce-1"⟩

def fastRequests : List (Arrival InstallRequest) := [⟨fastRequest, 0, 0, true, true⟩, ⟨fastRequest, 1200000, 1200001, true, true⟩]

def fastMessage : ParkMessage := ⟨"node-1.pokyh-relay", 300000, "nonce-nonce-nonce-1"⟩

def fastMessages : List (Arrival ParkMessage) := [⟨fastMessage, 0, 0, true, true⟩, ⟨fastMessage, 600000, 600001, true, true⟩]

/-- **The clock goes on between its two readings.** -/
theorem accepted_twice : (∃ s, run installStep (.opening InstallRequest String 0) fastRequests = some s ∧ s.accepted = [fastRequest, fastRequest]) ∧
    ∃ s, run parkStep (.opening ParkMessage String 0) fastMessages = some s ∧ s.accepted = [fastMessage, fastMessage] :=
  ⟨⟨_, rfl, by decide⟩, _, rfl, by decide⟩

/-- The request comes a millisecond earlier the second time. -/
def promptRequests : List (Arrival InstallRequest) := [⟨fastRequest, 0, 0, true, true⟩, ⟨fastRequest, 1199999, 1200000, true, true⟩]

def promptMessages : List (Arrival ParkMessage) := [⟨fastMessage, 0, 0, true, true⟩, ⟨fastMessage, 599999, 600000, true, true⟩]

theorem prompt_accepted_once : (∃ s, run installStep (.opening InstallRequest String 0) promptRequests = some s ∧ s.accepted.Nodup) ∧
    ∃ s, run parkStep (.opening ParkMessage String 0) promptMessages = some s ∧ s.accepted.Nodup := by
  obtain ⟨s, hs⟩ := Option.isSome_iff_exists.mp (show (run installStep (.opening InstallRequest String 0) promptRequests).isSome = true by decide)
  obtain ⟨s', hs'⟩ := Option.isSome_iff_exists.mp (show (run parkStep (.opening ParkMessage String 0) promptMessages).isSome = true by decide)
  exact ⟨⟨s, hs, (accepted_once 0).1 _ s (by decide) hs⟩, s', hs', (accepted_once 0).2 _ s' (by decide) hs'⟩

end Pokyh.Cluster.Nonces

import Mathlib.Algebra.Order.BigOperators.Group.List
import Mathlib.Algebra.Order.Ring.Nat
import Pokyh.Cluster.Agreement

/-!
# Cluster — Recovery

How a pairing comes to its end after losses and restarts: by a confirmation sent again, by a session
opened with the key, or by a new exchange.

* `World.Open.completes`: from every state of a run in which both windows are open.
* `pairing_recovers`: **whatever was lost before, a pairing whose windows are open can be completed.**
-/

namespace Pokyh.Cluster.Pairing
open Pokyh.Lib

/-- No message is lost, and no process restarts. -/
def Move.lossless : Move → Bool
  | .giveUp | .restart | .host .restart => false
  | _ => true

namespace World
variable {S : Setup} {w w' : World}

/-- Both entries are active, with one link key. -/
def Linked (w : World) : Prop :=
  ∃ e ∈ w.host.peers, ∃ k, e.status = .active ∧ e.linkKey = some k ∧
    w.entry.status = .active ∧ w.entry.linkKey = some k

/-- Some continuation without losses or restarts ends with both entries active under one key. -/
def Completes (S : Setup) (w : World) : Prop :=
  ∃ moves, (∀ move ∈ moves, move.lossless) ∧ ∃ w', run (step S) w moves = some w' ∧ w'.Linked

theorem Completes.of_linked (h : w.Linked) : w.Completes S := ⟨[], nofun, w, rfl, h⟩

theorem Completes.move (move : Move) (hs : step S w move = some w') (hl : move.lossless)
    (h : w'.Completes S) : w.Completes S := by
  obtain ⟨moves, hmoves, t, hrun, ht⟩ := h
  exact ⟨move :: moves, List.forall_mem_cons.mpr ⟨hl, hmoves⟩, t, run_cons_eq_some.mpr ⟨w', hs, hrun⟩, ht⟩

theorem Node.done_start (s : Node) (t : Task) : (s.start t).done t = s := by
  simp [Node.start, Node.done]

/-- The inviting node goes on with the task it began last. -/
theorem step_resume {s : Node} {t : Task} (ephemeral : ℕ) (nonce : Bytes)
    (hd : ∀ a ∈ draws (.resume t ephemeral nonce), a ∉ w.drawn) (hw : w.host = s.start t) :
    step S w (.host (.resume t ephemeral nonce)) =
      some { w with
        host := s.proceed S.host ephemeral nonce t
        runtime := w.loaded S (s.proceed S.host ephemeral nonce t) (.resume t ephemeral nonce)
        drawn := (draws (.resume t ephemeral nonce)).toList ++ w.drawn } := by
  have hmem : t ∈ w.host.tasks := by rw [hw]; exact List.mem_cons_self
  have hstep : w.host.step S.host (.resume t ephemeral nonce) = some (s.proceed S.host ephemeral nonce t) := by
    rw [Node.step, if_pos hmem, hw, Node.done_start]
  rw [step, if_pos ⟨rfl, hd⟩, hstep]
  rfl

theorem Completes.resume {s : Node} {t : Task} (hw : w.host = s.start t)
    (hd : draws (.resume t 0 []) = none)
    (h : Completes S { w with
      host := s.proceed S.host 0 [] t
      runtime := w.loaded S (s.proceed S.host 0 [] t) (.resume t 0 []) }) : w.Completes S := by
  refine .move _ (step_resume 0 [] (fun a ha => ?_) hw) rfl ?_
  · rw [hd] at ha
    cases ha
  · rw [hd]
    exact h

/-- A request arrives, for the first time or again. -/
theorem step_deliver (hS : S.Fits) (h : w.Inv S) {sent : Sent} (hs : sent ∈ w.requests)
    (ephemeral : ℕ) (sid nonce : Bytes) :
    step S w (.deliver sent ephemeral sid nonce) = some (w.handle S sent ephemeral sid nonce) := by
  have hserver : sent.server = none ∨ sent.server = S.host.pin := by
    rw [(h.sent sent hs).server]
    cases ht : S.target with
    | none => exact .inl rfl
    | some target => exact .inr (hS.server target ht).symm
  rw [step, if_pos ⟨hs, hserver⟩]

theorem step_answer {request : ℕ} {answer : Answer} (hw : w.awaits = some request)
    (ha : (request, answer) ∈ w.host.answers) (ephemeral : ℕ) (nonce : Bytes) :
    step S w (.answer (request, answer) ephemeral nonce) = some (w.answered S ephemeral nonce answer) := by
  rw [step, if_pos ⟨ha, hw⟩]

/-- **The other node holds the exchange**: the confirmation is accepted, both store the link. -/
theorem completes_of_held (hS : S.Fits) (h : w.Inv S) {request : ℕ} {stored : StoredHandshake}
    {x : ResponderHandshake} (hp : w.phase = .confirm request stored)
    (hx : w.host.responderHandshakes S.joiner.nodeId = some x) (hexp : ¬ x.expiresAt < w.host.now)
    (hc : x.confirmInitiator = stored.confirm) : w.Completes S := by
  have hphase := h.phase
  rw [hp] at hphase
  obtain ⟨hstored, sent, hsent, rfl, hreq⟩ := hphase
  have hhonest := (h.host.exchanges _ _ hx).1
  obtain ⟨e, hpeers, he⟩ := h.host.entry
  have harrive : w.handle S sent 0 [] [] = { w with host := w.host.start (.storing sent.id x none) } := by
    simp [handle, hreq, Node.handlePairConfirm, hx, hexp, (h.sent sent hsent).context, hhonest.tls, hc]
  have hothers : w.host.proceed S.host 0 [] (.storing sent.id x none) =
      w.host.start (.storing sent.id x (some [])) := by
    simp [Node.proceed, hpeers, he.id, hhonest.row]
  let f := ClusterPeer.activated x.initiatorId x.initiatorName (some x.initiatorAddress) x.linkKey x.tls
  let s : Node := { w.host.modify x.peerRowId f with
    activations := ⟨x.peerRowId, x.initiatorId, x.linkKey, x.confirmInitiator,
      (w.host.peer x.peerRowId).any (openWindow w.host.now)⟩ :: w.host.activations }
  have hstore : w.host.proceed S.host 0 [] (.storing sent.id x (some [])) =
      s.start (.stored sent.id x) := by
    have hact : w.host.activatePeer x.peerRowId x.initiatorId x.initiatorName (some x.initiatorAddress)
        x.linkKey x.tls = some (w.host.modify x.peerRowId f) := by
      refine Node.activatePeer_eq_some.mpr ⟨⟨?_, ?_⟩, rfl⟩
      · exact Node.peer_isSome_iff.mpr ⟨e, by rw [hpeers]; exact List.mem_cons_self, he.id.trans hhonest.row.symm⟩
      · intro p hmem _
        rw [hpeers, List.mem_singleton] at hmem
        rw [hmem, he.id, hhonest.row]
    rw [Node.proceed, Node.storeLink, hact]
    rfl
  refine .move _ (step_deliver hS h hsent 0 [] []) rfl ?_
  rw [harrive]
  refine .resume (s := w.host) rfl rfl ?_
  rw [hothers]
  refine .resume (s := w.host) rfl rfl ?_
  rw [hstore]
  refine .resume (s := s) rfl rfl (.resume (s := s.forget x.initiatorId) rfl rfl ?_)
  have hwaits : w.awaits = some sent.id := by simp only [awaits, hp]
  refine .move (.answer (sent.id, .ok) 0 []) (step_answer (by exact hwaits) List.mem_cons_self 0 []) rfl
    (.of_linked ⟨f e, ?_, x.linkKey, rfl, rfl, ?_⟩)
  · simp [answered, hp, finish, idle, s, Node.proceed, Node.modify, hpeers, he.id, hhonest.row]
  · have hkey := Made.link_eq hS.ideal (hc ▸ hhonest.made) (h.verified stored hstored).made
    simp [answered, hp, finish, ClusterPeer.activated, hkey]

end World

/-! ### A new exchange -/

section
variable {S : Setup} (hS : S.Fits) {key : ℕ} {salt nonce : Bytes}
include hS

theorem client_isSome : S.client.isSome = S.target.isSome := by
  cases ht : S.target with
  | none => simp [Setup.client, ht]
  | some target => simpa [Setup.client, ht] using (hS.channel (by rw [ht]; rfl)).2

theorem not_misplaced : misplaced S.host (S.initBody key salt nonce) S.context = false := by
  cases ht : S.target with
  | none => simp [Setup.context, misplaced, Setup.initBody, ht]
  | some target =>
      obtain ⟨pin, hpin⟩ := Option.isSome_iff_exists.mp (hS.channel (by rw [ht]; rfl)).2
      simp [Setup.context, misplaced, Setup.initBody, ht, hpin, hS.server target ht]

/-- Both ends see the same request. -/
theorem initOf_eq : initOf S.host (S.initBody key salt nonce) S.client = S.initOf key salt nonce := by
  cases ht : S.target with
  | none => simp [initOf, Setup.initBody, Setup.initOf, Setup.client, ht]
  | some target =>
      obtain ⟨pin, hpin⟩ := Option.isSome_iff_exists.mp (hS.channel (by rw [ht]; rfl)).2
      simp [initOf, Setup.initBody, Setup.initOf, Setup.client, ht, hpin, hS.server target ht]

variable {e : ClusterPeer} {now : ℕ}
  (he : e = { S.invite.row 0 with pairingFailures := e.pairingFailures }) (hopen : openWindow now e)
include he hopen

theorem candidates_eq : candidatesFor now (S.initBody key salt nonce) S.client [e] = [e] := by
  have hrole : e.role = .host := by rw [he]; exact hS.host
  have hexp : expectedNodeOf e = none ∨ expectedNodeOf e = some S.joiner.nodeId := by
    rw [he]
    rcases hS.expected with hx | hx <;> simp [expectedNodeOf, PendingPeer.row, hx, hS.host]
  have hreq : S.client.isSome ∨ e.tlsRequired = false := by
    rw [client_isSome hS, he]
    by_cases ht : S.invite.tlsRequired
    · exact .inl (hS.required (.inl ht))
    · exact .inr (Bool.eq_false_iff.mpr ht)
  have hpin : e.certPin = none ∨ S.client = e.certPin := by rw [he]; exact hS.pinned
  have hfrom : (S.initBody key salt nonce).from = S.joiner.nodeId := rfl
  simp [candidatesFor, hrole, hopen, hexp, hreq, hpin, hfrom, MAX_CANDIDATES]

omit hopen in
theorem match_eq : matchCandidate S.host (S.initBody key salt nonce) S.client [e] =
    some (e, S.psk salt) := by
  have hsecret : e.pairingSecret = some S.join.secret := by rw [he, hS.secret]; rfl
  have hsalt : (S.initBody key salt nonce).salt = salt := rfl
  have hpsk : derivePairingPsk S.host.crypto S.join.secret salt = S.psk salt := by
    rw [Setup.psk, hS.crypto]
  have hmac : (S.initBody key salt nonce).mac = pairInitMac S.host.crypto (S.psk salt)
      (S.initOf key salt nonce) := by
    rw [← hS.crypto]
    rfl
  simp [matchCandidate, hsecret, hsalt, hpsk, hmac, initOf_eq hS]

end

/-- The keys of an exchange between the two nodes. -/
def Setup.keys (S : Setup) (shared : Bytes) (key : ℕ) (salt nonce : Bytes) (a : ℕ) : PairKeys :=
  pairKeys S.host.crypto (S.psk salt) shared (S.initOf key salt nonce)
    ⟨S.host.nodeId, S.host.nodeName, S.host.crypto.publicKey a, []⟩

theorem beginExchange_eq {S : Setup} (hS : S.Fits) {key a now : ℕ} {salt nonce shared : Bytes}
    {e : ClusterPeer} (hshared : S.host.crypto.sharedSecret a (S.host.crypto.publicKey key) = some shared) :
    ∃ x, beginExchange S.host now (S.initBody key salt nonce) S.client e (S.psk salt) a [] =
      .ok (x, ⟨S.host.nodeId, S.host.nodeName, S.host.crypto.publicKey a, []⟩,
        (S.keys shared key salt nonce a).confirmResponder) ∧
      now < x.expiresAt ∧ x.confirmInitiator = (S.keys shared key salt nonce a).confirmInitiator := by
  obtain ⟨address, haddr⟩ := Option.isSome_iff_exists.mp hS.usable
  have hfrom : (S.initBody key salt nonce).from ≠ S.host.nodeId := hS.apart
  have haddr : S.host.usableAddress S.client.isSome (S.initBody key salt nonce).addr = some address := haddr
  have he : (S.initBody key salt nonce).e = S.host.crypto.publicKey key := by rw [← hS.crypto]; rfl
  rw [beginExchange, if_neg hfrom, haddr, he, hshared, initOf_eq hS]
  exact ⟨_, rfl, by simp [HANDSHAKE_TTL_MS], rfl⟩

namespace World
variable {S : Setup} {w : World}

/-- **A new exchange**, while the invite is open. -/
theorem completes_of_begun (hS : S.Fits) (h : w.Inv S) {request key : ℕ} {peer : ClusterPeer}
    {init : PairInit} {psk : Bytes} (hp : w.phase = .init request peer init psk key)
    {e : ClusterPeer} (hpeers : w.host.peers = [e]) (hopen : openWindow w.host.now e) : w.Completes S := by
  have hphase := h.phase
  rw [hp] at hphase
  obtain ⟨-, hpeer, salt, nonce, rfl, rfl, sent, hsent, rfl, hreq⟩ := hphase
  obtain ⟨e', hpeers', he⟩ := h.host.entry
  obtain rfl := List.singleton_inj.mp (hpeers.symm.trans hpeers')
  have hoffer := he.offer (Node.openWindow_pending hopen)
  obtain ⟨a, ha⟩ : ∃ a, a ∉ w.drawn :=
    ⟨w.drawn.sum + 1, fun ha => Nat.not_succ_le_self _ (List.le_sum_of_mem ha)⟩
  obtain ⟨shared, hshared, hshared'⟩ := hS.ideal.exchange a key
  obtain ⟨x, hbegin, hexp, hconf⟩ :=
    @beginExchange_eq S hS key a w.host.now salt nonce shared e hshared
  let accept : PairAccept := ⟨S.host.nodeId, S.host.nodeName, S.host.crypto.publicKey a, []⟩
  let keys := S.keys shared key salt nonce a
  let task : Task := .deriveKeys sent.id (S.initBody key salt nonce) S.client [e]
  let w₁ : World := { w with host := w.host.start task }
  have harrive : w.handle S sent 0 [] [] = w₁ := by
    simp [handle, hreq, Node.handlePairInit, (h.sent sent hsent).context, not_misplaced hS, hpeers,
      candidates_eq hS hoffer hopen, w₁, task]
  let s : Node := { w.host.answer sent.id (.accept accept keys.confirmResponder) with
    responderHandshakes := Function.update w.host.responderHandshakes S.joiner.nodeId (some x) }
  have hderive : w.host.proceed S.host a [] task = s := by
    rw [Node.proceed, match_eq hS hoffer]
    simp only [hbegin]
    rfl
  have hdelivered := step_deliver hS h hsent 0 [] []
  rw [harrive] at hdelivered
  have hfresh : ∀ b ∈ draws (.resume task a []), b ∉ w₁.drawn := by
    rintro b ⟨⟩
    exact ha
  have hderived := step_resume (S := S) (w := w₁) (s := w.host) a [] hfresh rfl
  rw [hderive] at hderived
  let w₂ : World := { w with host := s, drawn := a :: w.drawn }
  have hderived : step S w₁ (.host (.resume task a [])) = some w₂ := hderived
  have hwaits : w₂.awaits = some sent.id := by simp only [awaits, w₂, hp]
  have hlast : (sent.id, Answer.accept accept keys.confirmResponder) ∈ w₂.host.answers :=
    List.mem_cons_self
  have hanswered := step_answer (S := S) hwaits hlast 0 []
  refine .move _ hdelivered rfl (.move _ hderived rfl (.move _ hanswered rfl ?_))
  have hinv := ((h.step hS hdelivered).step hS hderived).step hS hanswered
  -- The joining node finds the proof in order, keeps its half and confirms.
  have hnamed : peer.nodeId.any (· ≠ S.host.nodeId) = false := by
    rw [hpeer.nodeId hS]
    rcases hS.named with hn | hn <;> simp [hn]
  let stored : StoredHandshake :=
    ⟨S.host.nodeId, S.host.nodeName, keys.linkKey, keys.confirmInitiator, S.target⟩
  let w₃ : World := { w₂ with
    entry := { w₂.entry with pairingState := some (.exchange stored) }
    verified := stored :: w₂.verified }
  have hconfirmed : w₂.answered S 0 [] (.accept accept keys.confirmResponder) = w₃.confirmStep S stored := by
    have hid : accept.id ≠ S.joiner.nodeId := hS.apart.symm
    have hsecret : S.joiner.crypto.sharedSecret key accept.e = some shared := by rw [hS.crypto]; exact hshared'
    have hkeys : pairKeys S.joiner.crypto (S.psk salt) shared (S.initOf key salt nonce) accept = keys := by
      rw [hS.crypto]
      rfl
    have haccepted : w₂.answered S 0 [] (.accept accept keys.confirmResponder) =
        w₂.accepted S peer (S.initOf key salt nonce) (S.psk salt) key accept keys.confirmResponder := by
      simp only [answered, w₂, hp]
    rw [haccepted, accepted, if_neg hid, hnamed, hsecret]
    simp only [hkeys, hpeer.target, ne_eq, not_true, if_false, Bool.false_eq_true]
    rfl
  rw [hconfirmed] at hinv ⊢
  refine @completes_of_held S _ hS hinv w₃.nextRequest stored x rfl ?_ ?_ hconf
  · exact Function.update_self _ _ _
  · exact Nat.not_lt_of_lt hexp

/-! ### A confirmation sent again -/

/-- What the two windows and the peer in memory depend on is as it was. -/
structure Same (w w' : World) : Prop where
  peers : w'.host.peers = w.host.peers
  hostNow : w'.host.now = w.host.now
  runtime : w'.runtime = w.runtime
  now : w'.now = w.now
  entry : w'.entry = w.entry

/-- The other node has answered that it does not hold the exchange: the key is tried. -/
theorem completes_of_refused (hS : S.Fits) (h : w.Inv S) {request : ℕ} {stored : StoredHandshake}
    (hp : w.phase = .confirm request stored) (ha : (request, .status 404) ∈ w.host.answers)
    (hnext : ∀ w' request init key, w'.Inv S → w'.phase = .session request stored init key →
      w.Same w' → w'.Completes S) : w.Completes S := by
  have hphase := h.phase
  rw [hp] at hphase
  have hwaits : w.awaits = some request := by simp only [awaits, hp]
  have hanswered := step_answer (S := S) hwaits ha 0 []
  have hinv := h.step hS hanswered
  refine .move _ hanswered rfl ?_
  have hopens : w.answered S 0 [] (.status 404) = w.openSession S stored 0 [] := by
    simp only [answered, hp, true_or, if_true]
  rw [hopens, openSession_eq hS (h.verified stored hphase.1)] at hinv ⊢
  exact hnext _ _ _ _ hinv rfl ⟨rfl, rfl, rfl, rfl, rfl⟩

/-- **A confirmation.**  Either the other node holds the exchange, or the key is tried. -/
theorem completes_of_confirming (hS : S.Fits) (h : w.Inv S) {request : ℕ} {stored : StoredHandshake}
    (hp : w.phase = .confirm request stored)
    (hnext : ∀ w' request init key, w'.Inv S → w'.phase = .session request stored init key →
      w.Same w' → w'.Completes S) : w.Completes S := by
  have hphase := h.phase
  rw [hp] at hphase
  obtain ⟨-, sent, hsent, hid, hreq⟩ := hphase
  have hcontext := (h.sent sent hsent).context
  have hdelivered := step_deliver hS h hsent 0 [] []
  have h₁ := h.step hS hdelivered
  cases hx : w.host.responderHandshakes S.joiner.nodeId with
  | none =>
      have harrive : w.handle S sent 0 [] [] = { w with host := w.host.answer sent.id (.status 404) } := by
        simp [handle, hreq, Node.handlePairConfirm, hx]
      rw [harrive] at hdelivered h₁
      refine .move _ hdelivered rfl (completes_of_refused hS h₁ hp (hid ▸ List.mem_cons_self) ?_)
      exact fun w' _ _ _ hinv hw hsame => hnext w' _ _ _ hinv hw ⟨hsame.1, hsame.2, hsame.3, hsame.4, hsame.5⟩
  | some x =>
      have htls := (h.host.exchanges _ _ hx).1.tls
      by_cases hexp : x.expiresAt < w.host.now
      · have harrive : w.handle S sent 0 [] [] =
            { w with host := (w.host.forget S.joiner.nodeId).answer sent.id (.status 404) } := by
          simp [handle, hreq, Node.handlePairConfirm, hx, hexp]
        rw [harrive] at hdelivered h₁
        refine .move _ hdelivered rfl (completes_of_refused hS h₁ hp (hid ▸ List.mem_cons_self) ?_)
        exact fun w' _ _ _ hinv hw hsame => hnext w' _ _ _ hinv hw ⟨hsame.1, hsame.2, hsame.3, hsame.4, hsame.5⟩
      by_cases hmac : stored.confirm = x.confirmInitiator
      · exact completes_of_held hS h hp hx hexp hmac.symm
      -- Another exchange has taken its place: it is dropped, and the confirmation arrives once more.
      · let w₁ : World := { w with
          host := (w.host.forget S.joiner.nodeId).start (.rejecting sent.id [x.peerRowId] false) }
        have harrive : w.handle S sent 0 [] [] = w₁ := by
          simp [handle, hreq, Node.handlePairConfirm, hx, hexp, hcontext, htls, hmac, w₁]
        rw [harrive] at hdelivered h₁
        have hagain := step_deliver hS h₁ hsent 0 [] []
        have h₂ := h₁.step hS hagain
        have hnone : w₁.host.responderHandshakes S.joiner.nodeId = none := Function.update_self _ _ _
        have harrive' : w₁.handle S sent 0 [] [] =
            { w₁ with host := w₁.host.answer sent.id (.status 404) } := by
          simp [handle, hreq, Node.handlePairConfirm, hnone]
        rw [harrive'] at hagain h₂
        refine .move _ hdelivered rfl (.move _ hagain rfl
          (completes_of_refused hS h₂ hp (hid ▸ List.mem_cons_self) ?_))
        exact fun w' _ _ _ hinv hw hsame => hnext w' _ _ _ hinv hw ⟨hsame.1, hsame.2, hsame.3, hsame.4, hsame.5⟩

/-- The next attempt of a joining node that has nothing under way. -/
theorem completes_of_idle (hS : S.Fits) (h : w.Inv S) (hp : w.phase = .idle)
    (hopen : openWindow w.now w.entry)
    (hbegun : ∀ w' request peer init psk key, readStoredHandshake w.entry = none → w'.Inv S →
      w'.phase = .init request peer init psk key → w.Same w' → w'.Completes S)
    (hconfirming : ∀ w' request stored, readStoredHandshake w.entry = some stored → w'.Inv S →
      w'.phase = .confirm request stored → w.Same w' → w'.Completes S) : w.Completes S := by
  obtain ⟨a, ha⟩ : ∃ a, a ∉ w.drawn :=
    ⟨w.drawn.sum + 1, fun ha => Nat.not_succ_le_self _ (List.le_sum_of_mem ha)⟩
  have hfresh := h.entry (Node.openWindow_pending hopen)
  have hrole : w.entry.role = .join := by
    rw [hfresh]
    exact hS.join
  have htick : step S w (.pairingTick a [] []) =
      some { w.initiate S a [] [] with drawn := a :: w.drawn } := by
    rw [step, if_pos ⟨hp, hrole, hopen, ha⟩]
  have hinv := h.step hS htick
  refine .move _ htick rfl ?_
  rw [initiate_eq hS hfresh] at hinv ⊢
  split at hinv
  · next stored hst => exact hconfirming _ _ stored hst hinv rfl ⟨rfl, rfl, rfl, rfl, rfl⟩
  · next hst => exact hbegun _ _ _ _ _ _ hst hinv rfl ⟨rfl, rfl, rfl, rfl, rfl⟩

/-! ### Both windows open -/

/-- The windows on both sides are open. -/
structure Open (w : World) : Prop where
  host : ∃ e, w.host.peers = [e] ∧ openWindow w.host.now e
  join : openWindow w.now w.entry

theorem Open.of_same (ho : w.Open) {w' : World} (hs : w.Same w') : w'.Open := by
  refine ⟨?_, ?_⟩
  · rw [hs.peers, hs.hostNow]
    exact ho.host
  · rw [hs.now, hs.entry]
    exact ho.join

/-- No link of this invite is in use while its window is open. -/
theorem Open.runtime_none (ho : w.Open) (h : w.Inv S) : w.runtime = none := by
  obtain ⟨e, hpeers, hopen⟩ := ho.host
  obtain ⟨e', hpeers', he⟩ := h.host.entry
  obtain rfl := List.singleton_inj.mp (hpeers.symm.trans hpeers')
  have hnone := he.unused (Node.openWindow_pending hopen)
  refine Option.eq_none_iff_forall_ne_some.mpr fun r hr => ?_
  obtain ⟨x, hx, -⟩ := (h.runtime r hr).key
  rw [hnone] at hx
  cases hx

theorem Open.completes_of_init (ho : w.Open) (hS : S.Fits) (h : w.Inv S) {request key : ℕ}
    {peer : ClusterPeer} {init : PairInit} {psk : Bytes}
    (hp : w.phase = .init request peer init psk key) : w.Completes S := by
  obtain ⟨e, hpeers, hopen⟩ := ho.host
  exact completes_of_begun hS h hp hpeers hopen

/-- The key is not known to the other node: the joining node starts over. -/
theorem Open.completes_of_session (ho : w.Open) (hS : S.Fits) (h : w.Inv S) {request key : ℕ}
    {stored : StoredHandshake} {init : SessionInit} (hp : w.phase = .session request stored init key) :
    w.Completes S := by
  have hphase := h.phase
  rw [hp] at hphase
  obtain ⟨-, nonce, -, sent, hsent, rfl, hreq⟩ := hphase
  have hdelivered := step_deliver hS h hsent 0 [] []
  have h₁ := h.step hS hdelivered
  let w₁ : World := { w with host := w.host.answer sent.id (.status 404) }
  have harrive : w.handle S sent 0 [] [] = w₁ := by
    simp [handle, hreq, handleSession, ho.runtime_none h, w₁]
  rw [harrive] at hdelivered h₁
  have hwaits : w₁.awaits = some sent.id := by simp only [awaits, hp, w₁]
  have hanswered := step_answer (S := S) hwaits List.mem_cons_self 0 []
  have h₂ := h₁.step hS hanswered
  refine .move _ hdelivered rfl (.move _ hanswered rfl ?_)
  have hover : w₁.answered S 0 [] (.status 404) = w₁.startOver := by
    simp [answered, hp, opens, w₁]
  rw [hover] at h₂ ⊢
  have ho₂ : w₁.startOver.Open := ⟨ho.host, ho.join⟩
  have hnone : readStoredHandshake w₁.startOver.entry = none := rfl
  refine completes_of_idle hS h₂ rfl ho₂.join ?_ fun _ _ _ hst => ?_
  · exact fun _ _ _ _ _ _ _ hinv hw hsame => (ho₂.of_same hsame).completes_of_init hS hinv hw
  · rw [hnone] at hst
    cases hst

theorem Open.completes_of_confirm (ho : w.Open) (hS : S.Fits) (h : w.Inv S) {request : ℕ}
    {stored : StoredHandshake} (hp : w.phase = .confirm request stored) : w.Completes S :=
  completes_of_confirming hS h hp fun _ _ _ _ hinv hw hsame =>
    (ho.of_same hsame).completes_of_session hS hinv hw

/-- **While both windows are open** the pairing can be completed without another loss, whatever came
before. -/
theorem Open.completes (ho : w.Open) (hS : S.Fits) (h : w.Inv S) : w.Completes S := by
  cases hp : w.phase with
  | idle =>
      exact completes_of_idle hS h hp ho.join
        (fun _ _ _ _ _ _ _ hinv hw hsame => (ho.of_same hsame).completes_of_init hS hinv hw)
        fun _ _ _ _ hinv hw hsame => (ho.of_same hsame).completes_of_confirm hS hinv hw
  | init request peer init psk key => exact ho.completes_of_init hS h hp
  | confirm request stored => exact ho.completes_of_confirm hS h hp
  | session request stored init key => exact ho.completes_of_session hS h hp

end World

/-- **Losses and restarts never leave a pairing stuck** while the windows on both sides are open: some
continuation without further ones ends with both entries active under one key. -/
theorem pairing_recovers {S : Setup} (hS : S.Fits) {hostNow now : ℕ} {moves : List Move} {w : World}
    (hrun : run (step S) (S.start hostNow now) moves = some w) (ho : w.Open) : w.Completes S :=
  ho.completes hS (World.run_inv hS hrun)

/-- The confirmation is lost after the joining node has stored its half, and the inviting node forgets
the exchange. -/
def brokenOff : List Move :=
  World.paced twoNodes (twoNodes.start 0 0)
    [fun _ => .pairingTick 1 [7] [8], World.delivered, World.resumed 2, World.returned, fun _ => .giveUp,
      fun _ => .host .restart]

theorem pairing_recovers_restarted : ∃ w, run (step twoNodes) (twoNodes.start 0 0) brokenOff = some w ∧
    (readStoredHandshake w.entry).isSome ∧ w.Completes twoNodes := by
  have hrun : run (step twoNodes) (twoNodes.start 0 0) brokenOff =
      some ((run (step twoNodes) (twoNodes.start 0 0) brokenOff).getD (twoNodes.start 0 0)) :=
    run_eq_getD (by decide +kernel) _
  generalize hw : (run (step twoNodes) (twoNodes.start 0 0) brokenOff).getD (twoNodes.start 0 0) = w at hrun
  have hopen : w.host.peers.all (openWindow w.host.now) ∧ openWindow w.now w.entry ∧
      (readStoredHandshake w.entry).isSome := by
    rw [← hw]
    decide +kernel
  obtain ⟨e, hpeers, -⟩ := (World.run_inv twoNodes_fits hrun).host.entry
  obtain ⟨hhost, hjoin, hstored⟩ := hopen
  have he : openWindow w.host.now e := by
    rw [hpeers] at hhost
    exact List.all_eq_true.mp hhost e List.mem_cons_self
  exact ⟨w, hrun, hstored, pairing_recovers twoNodes_fits hrun ⟨⟨e, hpeers, he⟩, hjoin⟩⟩

end Pokyh.Cluster.Pairing

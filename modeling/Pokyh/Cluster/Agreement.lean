import Pokyh.Cluster.Invites
import Pokyh.Cluster.Joining

/-!
# Cluster — Agreement

The key a joining node ends up with is one the inviting node has stored for it, whatever is lost,
repeated or delayed and whenever either process restarts.

* `Made.link_eq`: a confirmation tells its link key.
* `Node.Honest`: what the inviting node holds, works on and has answered goes back to requests of the
  joining one.
* `World.run_inv`: the invariant of every run.
* `pairing_agrees`: **the joining node's link key is one the inviting node has stored for it**, from an
  exchange whose proof each has checked, and no other key is stored there or in use.
-/

namespace Pokyh.Cluster.Pairing
open Pokyh.Lib

/-! ### Keys -/

/-- A link key with its confirmation, from an exchange between two of the private keys drawn. -/
def Made (P : Primitives) (drawn : List ℕ) (linkKey confirm : Bytes) : Prop :=
  ∃ a ∈ drawn, ∃ b ∈ drawn, ∃ shared psk transcript,
    P.sharedSecret a (P.publicKey b) = some shared ∧
      confirm = P.hmac (P.hkdf (P.hkdf shared psk "pair/master") transcript "pair/confirm-initiator")
        transcript ∧
      linkKey = P.hkdf (P.hkdf shared psk "pair/master") transcript "pair/link-key"

section
variable {P : Primitives} {drawn drawn' : List ℕ} {linkKey linkKey' confirm : Bytes}

theorem pairKeys_made {a b : ℕ} {psk shared : Bytes} {init : PairInit} {accept : PairAccept}
    (ha : a ∈ drawn) (hb : b ∈ drawn) (h : P.sharedSecret a (P.publicKey b) = some shared) :
    Made P drawn (pairKeys P psk shared init accept).linkKey
      (pairKeys P psk shared init accept).confirmInitiator :=
  ⟨a, ha, b, hb, shared, psk, _, h, rfl, rfl⟩

theorem Made.mono (h : Made P drawn linkKey confirm) (hd : drawn ⊆ drawn') :
    Made P drawn' linkKey confirm := by
  obtain ⟨a, ha, b, hb, rest⟩ := h
  exact ⟨a, hd ha, b, hd hb, rest⟩

/-- **A confirmation tells its link key.** -/
theorem Made.link_eq (hP : P.Ideal) (h : Made P drawn linkKey confirm)
    (h' : Made P drawn linkKey' confirm) : linkKey = linkKey' := by
  obtain ⟨_, -, _, -, _, _, _, -, hc, rfl⟩ := h
  obtain ⟨_, -, _, -, _, _, _, -, hc', rfl⟩ := h'
  obtain ⟨hkey, htranscript⟩ := hP.hmac_inj (hc.symm.trans hc')
  rw [(hP.hkdf_inj hkey).1, htranscript]

/-- An exchange with a private key that was not drawn before has a confirmation of its own. -/
theorem Made.fresh (hP : P.Ideal) (h : Made P drawn linkKey confirm) {a b : ℕ} {psk shared : Bytes}
    {init : PairInit} {accept : PairAccept} (ha : a ∉ drawn)
    (hs : P.sharedSecret a (P.publicKey b) = some shared) :
    (pairKeys P psk shared init accept).confirmInitiator ≠ confirm := by
  rintro rfl
  obtain ⟨c, hc, d, hd, shared', psk', transcript, hs', heq, -⟩ := h
  have hmaster := (hP.hkdf_inj (hP.hmac_inj heq).1).1
  rw [(hP.hkdf_inj hmaster).1] at hs
  rcases hP.shared_inj hs hs' with ⟨rfl, -⟩ | ⟨rfl, -⟩
  · exact ha hc
  · exact ha hd

end

/-! ### Two halves of one invite -/

namespace Setup
variable (S : Setup)

/-- The channel of the inviting node, when the joining node's entry names it. -/
def target : Option PinnedTarget := channelTargetOf (S.join.row 0)

/-- The pin that the joining node's requests are presented with. -/
def client : Option String := S.target.bind fun _ => S.joiner.pin

def context : ChannelContext :=
  match S.target with
  | some _ => .mtls S.joiner.pin
  | none => .plain

/-- What the joining node says of how it is reached. -/
def announced : String := if S.target.isSome then S.ways.getD "" else S.advertised

/-- The two entries were made of one invite, and the nodes can reach each other as they say. -/
structure Fits : Prop where
  crypto : S.joiner.crypto = S.host.crypto
  ideal : S.host.crypto.Ideal
  apart : S.joiner.nodeId ≠ S.host.nodeId
  host : S.invite.role = .host
  join : S.join.role = .join
  secret : S.join.secret = S.invite.secret
  named : S.join.nodeId = none ∨ S.join.nodeId = some S.host.nodeId
  expected : S.invite.expect = none ∨ S.invite.expect = some S.joiner.nodeId
  channel : S.target.isSome → S.ways.isSome ∧ S.joiner.pin.isSome
  server : ∀ target ∈ S.target, S.host.pin = some target.pin
  required : S.invite.tlsRequired ∨ S.join.tlsRequired → S.target.isSome
  pinned : S.invite.certPin = none ∨ S.client = S.invite.certPin
  announced_ne : S.announced ≠ ""
  usable : (S.host.usableAddress S.client.isSome S.announced).isSome
  called : (S.joiner.usableAddress false (S.target.elim S.join.address (·.url))).isSome
  /-- An address stays usable when it is read back. -/
  again : ∀ overChannel addr url, S.host.usableAddress overChannel addr = some url →
    (S.host.usableAddress false url).isSome

@[simp] theorem context_client : S.context.client = S.client := by
  unfold context client
  cases S.target <;> rfl

end Setup

variable {S : Setup} {drawn drawn' : List ℕ} {confirms confirms' : ℕ → Bytes → Prop}

/-- An exchange with the joining node. -/
structure ResponderHandshake.Honest (S : Setup) (drawn : List ℕ) (h : ResponderHandshake) : Prop where
  row : h.peerRowId = 0
  initiator : h.initiatorId = S.joiner.nodeId
  tls : h.tls.map (·.pin) = S.client
  address : (S.host.usableAddress false h.initiatorAddress).isSome
  made : Made S.host.crypto drawn h.linkKey h.confirmInitiator

theorem ResponderHandshake.Honest.mono {h : ResponderHandshake} (hh : h.Honest S drawn)
    (hd : drawn ⊆ drawn') : h.Honest S drawn' :=
  { hh with made := hh.made.mono hd }

/-- A link stored by an exchange the joining node has confirmed. -/
structure Activation.Honest (S : Setup) (drawn : List ℕ) (confirms : ℕ → Bytes → Prop)
    (x : Activation) : Prop where
  nodeId : x.nodeId = S.joiner.nodeId
  made : Made S.host.crypto drawn x.linkKey x.confirm
  confirmed : ∃ request, confirms request x.confirm

/-- What a task works on goes back to a request of the joining node (`confirms`: the confirmations it
has sent); `links` are stored already. -/
def Task.Honest (S : Setup) (drawn : List ℕ) (confirms : ℕ → Bytes → Prop)
    (links : List Activation) : Task → Prop
  | .deriveKeys _ body client candidates =>
      client = S.client ∧ body.from = S.joiner.nodeId ∧
        (∃ b ∈ drawn, body.e = S.host.crypto.publicKey b) ∧ ∀ p ∈ candidates, p.id = 0
  | .rejecting .. => True
  | .storing request h others =>
      h.Honest S drawn ∧ confirms request h.confirmInitiator ∧ (others = none ∨ others = some [])
  | .stored request h =>
      h.Honest S drawn ∧ confirms request h.confirmInitiator ∧
        ∃ x ∈ links, x.confirm = h.confirmInitiator
  | .activating request row =>
      row = 0 ∧ ∃ confirm, confirms request confirm ∧ ∃ x ∈ links, x.confirm = confirm
  | .expiring _ => True

theorem Task.Honest.mono {links links' : List Activation} {t : Task}
    (h : t.Honest S drawn confirms links) (hd : drawn ⊆ drawn')
    (hc : ∀ r c, confirms r c → confirms' r c) (hl : links ⊆ links') :
    t.Honest S drawn' confirms' links' := by
  cases t with
  | deriveKeys request body client candidates =>
      obtain ⟨hclient, hfrom, ⟨b, hb, he⟩, hcand⟩ := h
      exact ⟨hclient, hfrom, ⟨b, hd hb, he⟩, hcand⟩
  | storing request h' others => exact ⟨h.1.mono hd, hc _ _ h.2.1, h.2.2⟩
  | stored request h' =>
      obtain ⟨hh, hconf, x, hx, heq⟩ := h
      exact ⟨hh.mono hd, hc _ _ hconf, x, hl hx, heq⟩
  | activating request row =>
      obtain ⟨hrow, confirm, hconf, x, hx, heq⟩ := h
      exact ⟨hrow, confirm, hc _ _ hconf, x, hl hx, heq⟩
  | rejecting _ _ _ | expiring _ => trivial

/-- An answer that goes back to a request of the joining node. -/
def Answer.Honest (S : Setup) (drawn : List ℕ) (confirms : ℕ → Bytes → Prop)
    (links : List Activation) (request : ℕ) : Answer → Prop
  | .status _ => True
  | .accept acc _ => acc.id = S.host.nodeId ∧ ∃ a ∈ drawn, acc.e = S.host.crypto.publicKey a
  | .ok => ∃ confirm, confirms request confirm ∧ ∃ x ∈ links, x.confirm = confirm
  | .session acc mac => ∃ x ∈ links, ∃ init,
      mac = sessionAcceptMac S.host.crypto x.linkKey init acc

theorem Answer.Honest.mono {links links' : List Activation} {request : ℕ} {a : Answer}
    (h : a.Honest S drawn confirms links request) (hd : drawn ⊆ drawn')
    (hc : ∀ r c, confirms r c → confirms' r c) (hl : links ⊆ links') :
    a.Honest S drawn' confirms' links' request := by
  cases a with
  | status code => trivial
  | accept accept mac =>
      obtain ⟨hid, a, ha, he⟩ := h
      exact ⟨hid, a, hd ha, he⟩
  | ok =>
      obtain ⟨confirm, hconf, x, hx, heq⟩ := h
      exact ⟨confirm, hc _ _ hconf, x, hl hx, heq⟩
  | session accept mac =>
      obtain ⟨x, hx, init, heq⟩ := h
      exact ⟨x, hl hx, init, heq⟩

theorem Activation.Honest.mono {x : Activation} (h : x.Honest S drawn confirms) (hd : drawn ⊆ drawn')
    (hc : ∀ r c, confirms r c → confirms' r c) : x.Honest S drawn' confirms' :=
  ⟨h.nodeId, h.made.mono hd, h.confirmed.imp fun r hr => hc r _ hr⟩

/-! ### The inviting node -/

/-- The entry of the invite: as it was created as long as it is pending, with the joining node's link
when it is active. -/
structure Setup.Holds (S : Setup) (links : List Activation) (e : ClusterPeer) : Prop where
  id : e.id = 0
  offer : e.status = .pending → e = { S.invite.row 0 with pairingFailures := e.pairingFailures }
  unused : e.status = .pending → links = []
  plain : S.client = none → e.tlsLocked = false
  key : ∀ k, e.linkKey = some k → ∃ x ∈ links, x.linkKey = k
  nodeId : e.status = .active → e.nodeId = some S.joiner.nodeId
  linked : e.status = .active → e.linkKey.isSome
  pin : e.status = .active → S.client.isSome → e.certPin = S.client
  address : e.status = .active → (S.host.usableAddress false e.address).isSome

namespace Setup.Holds
variable {links : List Activation} {e : ClusterPeer}

theorem counted (h : S.Holds links e) (n : ℕ) : S.Holds links { e with pairingFailures := n } :=
  { h with
    offer := fun hs => by rw [h.offer hs]
    unused := h.unused
    plain := h.plain }

theorem withStatus (h : S.Holds links e) {status : PeerStatus} (hp : status ≠ .pending)
    (ha : status ≠ .active) : S.Holds links (e.withStatus status) := by
  rw [ClusterPeer.withStatus, if_neg ha]
  exact
    { id := h.id
      offer := fun hs => absurd hs hp
      unused := fun hs => absurd hs hp
      plain := h.plain
      key := h.key
      nodeId := fun hs => absurd hs ha
      linked := fun hs => absurd hs ha
      pin := fun hs => absurd hs ha
      address := fun hs => absurd hs ha }

theorem activated (h : S.Holds links e) {x : ResponderHandshake} (hx : x.Honest S drawn)
    {y : Activation} (hy : y.linkKey = x.linkKey) :
    S.Holds (y :: links)
      (e.activated x.initiatorId x.initiatorName (some x.initiatorAddress) x.linkKey x.tls) where
  id := h.id
  offer := nofun
  unused := nofun
  plain hc := by
    have htls : x.tls = none := Option.map_eq_none_iff.mp (hx.tls.trans hc)
    simp [ClusterPeer.activated, h.plain hc, htls]
  key k hk := ⟨y, List.mem_cons_self, hy.trans (Option.some_inj.mp hk)⟩
  nodeId _ := congrArg some hx.initiator
  linked _ := rfl
  pin _ hc := by
    obtain ⟨c, hc⟩ := Option.isSome_iff_exists.mp hc
    have htls := hx.tls
    rw [hc] at htls
    simp [ClusterPeer.activated, htls, hc]
  address _ := hx.address

end Setup.Holds

/-- What the inviting node holds, works on and has answered goes back to the joining node. -/
structure Node.Honest (S : Setup) (drawn : List ℕ) (confirms : ℕ → Bytes → Prop) (s : Node) : Prop where
  entry : ∃ e, s.peers = [e] ∧ S.Holds s.activations e
  exchanges : ∀ i h, s.responderHandshakes i = some h → h.Honest S drawn ∧ i = S.joiner.nodeId
  tasks : ∀ t ∈ s.tasks, t.Honest S drawn confirms s.activations
  answers : ∀ a ∈ s.answers, a.2.Honest S drawn confirms s.activations a.1
  activations : ∀ x ∈ s.activations, x.Honest S drawn confirms

namespace Node.Honest
variable {s s' : Node}

theorem mono (h : s.Honest S drawn confirms) (hd : drawn ⊆ drawn')
    (hc : ∀ r c, confirms r c → confirms' r c) : s.Honest S drawn' confirms' where
  entry := h.entry
  exchanges i x hx := ⟨(h.exchanges i x hx).1.mono hd, (h.exchanges i x hx).2⟩
  tasks t ht := (h.tasks t ht).mono hd hc fun _ h => h
  answers a ha := (h.answers a ha).mono hd hc fun _ h => h
  activations x hx := (h.activations x hx).mono hd hc

theorem start (h : s.Honest S drawn confirms) {t : Task}
    (ht : t.Honest S drawn confirms s.activations) : (s.start t).Honest S drawn confirms :=
  { h with tasks := List.forall_mem_cons.mpr ⟨ht, h.tasks⟩ }

theorem answer (h : s.Honest S drawn confirms) {request : ℕ} {a : Answer}
    (ha : a.Honest S drawn confirms s.activations request) :
    (s.answer request a).Honest S drawn confirms :=
  { h with answers := List.forall_mem_cons.mpr ⟨ha, h.answers⟩ }

theorem forget (h : s.Honest S drawn confirms) (i : String) : (s.forget i).Honest S drawn confirms :=
  { h with exchanges := fun _ x hx => h.exchanges _ x (Node.forget_exchanges hx) }

theorem done (h : s.Honest S drawn confirms) (t : Task) : (s.done t).Honest S drawn confirms :=
  { h with tasks := fun t' ht' => h.tasks t' (List.mem_of_mem_erase ht') }

theorem modify (h : s.Honest S drawn confirms) {id : ℕ} {f : ClusterPeer → ClusterPeer}
    (hf : ∀ e, S.Holds s.activations e → S.Holds s.activations (f e)) :
    (s.modify id f).Honest S drawn confirms := by
  obtain ⟨e, hp, he⟩ := h.entry
  have hrow : S.Holds s.activations (if e.id = id then f e else e) := by
    split
    · exact hf e he
    · exact he
  exact { h with entry := ⟨_, by rw [Node.modify, hp]; rfl, hrow⟩ }

theorem setPeerStatus (h : s.Honest S drawn confirms) {id : ℕ} {status : PeerStatus}
    (hp : status ≠ .pending) (ha : status ≠ .active) (hs : s.setPeerStatus id status = some s') :
    s'.Honest S drawn confirms := by
  obtain ⟨-, rfl⟩ := setPeerStatus_eq_some.mp hs
  exact h.modify fun _ he => he.withStatus hp ha

theorem notePairingFailure (h : s.Honest S drawn confirms) {request id : ℕ} {rows : List ℕ} :
    (s.notePairingFailure S.host request id rows).Honest S drawn confirms := by
  unfold Node.notePairingFailure
  split
  · exact h.start trivial
  · have hcount := @modify _ _ _ _ h id _ fun e he => he.counted (e.pairingFailures + 1)
    split <;> exact hcount.start trivial

/-- A link is stored in the one entry there is. -/
theorem storeLink (h : s.Honest S drawn confirms) {request : ℕ} {x : ResponderHandshake}
    (hx : x.Honest S drawn) (hc : confirms request x.confirmInitiator) :
    (s.storeLink request x).Honest S drawn confirms := by
  unfold Node.storeLink
  split
  · exact h.answer trivial
  · next s' hs =>
      obtain ⟨-, rfl⟩ := activatePeer_eq_some.mp hs
      obtain ⟨e, hp, he⟩ := h.entry
      have hsub {y : Activation} : s.activations ⊆ y :: s.activations := List.subset_cons_self _ _
      refine
        { entry := ⟨e.activated x.initiatorId x.initiatorName (some x.initiatorAddress) x.linkKey x.tls,
            ?_, he.activated hx rfl⟩
          exchanges := h.exchanges
          tasks := List.forall_mem_cons.mpr ⟨⟨hx, hc, _, List.mem_cons_self, rfl⟩,
            fun t ht => (h.tasks t ht).mono (fun _ h => h) (fun _ _ h => h) hsub⟩
          answers := fun a ha => (h.answers a ha).mono (fun _ h => h) (fun _ _ h => h) hsub
          activations := List.forall_mem_cons.mpr
            ⟨⟨hx.initiator, hx.made, request, hc⟩, h.activations⟩ }
      simp [Node.modify, Node.start, hp, he.id, hx.row]

/-- An exchange that begins with a fresh private key. -/
theorem beginExchange (hS : S.Fits) {now : ℕ} {body : PairInitBody} {peer : ClusterPeer}
    {psk nonce : Bytes} {ephemeral : ℕ} (hbody : ∃ b ∈ drawn, body.e = S.host.crypto.publicKey b)
    (hfrom : body.from = S.joiner.nodeId) (hrow : peer.id = 0) (he : ephemeral ∈ drawn)
    {r : ResponderHandshake × PairAccept × Bytes}
    (h : beginExchange S.host now body S.client peer psk ephemeral nonce = .ok r) :
    r.1.Honest S drawn ∧ (Answer.accept r.2.1 r.2.2).Honest S drawn confirms links request := by
  obtain ⟨b, hb, hbe⟩ := hbody
  unfold Pairing.beginExchange at h
  split at h
  · cases h
  · split at h
    · cases h
    · next address haddr =>
        simp only at h
        split at h
        · cases h
        · next shared hshared =>
            cases h
            rw [hbe] at hshared
            refine ⟨⟨hrow, hfrom, ?_, hS.again _ _ _ haddr, pairKeys_made he hb hshared⟩, rfl, ephemeral, he, rfl⟩
            cases S.client <;> rfl

theorem proceed (hS : S.Fits) (h : s.Honest S drawn confirms) {task : Task} {ephemeral : ℕ}
    {nonce : Bytes} (ht : task.Honest S drawn confirms s.activations)
    (he : ephemeral ∈ World.draws (.resume task ephemeral nonce) → ephemeral ∈ drawn) :
    (s.proceed S.host ephemeral nonce task).Honest S drawn confirms := by
  cases task with
  | deriveKeys request body client candidates =>
      obtain ⟨rfl, hfrom, hbody, hcand⟩ := ht
      simp only [Node.proceed]
      split
      · exact h.start trivial
      · next peer psk hmatch =>
          split
          · exact h.answer trivial
          · next x accept mac hbegin =>
              have hrow := hcand peer (Node.matchCandidate_mem hmatch)
              obtain ⟨hx, ha⟩ := beginExchange hS hbody hfrom hrow (he rfl) hbegin
              refine { h.answer ha with exchanges := fun i y hy => ?_ }
              by_cases hi : i = body.from
              · subst hi
                simp only [Function.update_self, Option.some.injEq] at hy
                exact ⟨hy ▸ hx, hfrom⟩
              · simp only [Function.update_of_ne hi] at hy
                exact h.exchanges i y hy
  | rejecting request rows locking =>
      cases rows with
      | nil => exact h.answer trivial
      | cons id rows =>
          cases locking with
          | false => exact h.notePairingFailure
          | true =>
              simp only [Node.proceed]
              split
              · exact h.answer trivial
              · next s' hs =>
                  exact (h.setPeerStatus PeerStatus.noConfusion PeerStatus.noConfusion hs).start trivial
  | storing request x others =>
      obtain ⟨hx, hc, rfl | rfl⟩ := ht
      · obtain ⟨e, hp, hentry⟩ := h.entry
        refine h.start ⟨hx, hc, .inr ?_⟩
        simp [hp, hentry.id, hx.row]
      · exact h.storeLink hx hc
  | stored request x =>
      obtain ⟨hx, hc, y, hy, heq⟩ := ht
      exact (h.forget _).start ⟨hx.row, _, hc, y, hy, heq⟩
  | activating request row =>
      obtain ⟨-, c, hc, y, hy, heq⟩ := ht
      exact h.answer ⟨c, hc, y, hy, heq⟩
  | expiring rows =>
      cases rows with
      | nil => exact h
      | cons id rows =>
          simp only [Node.proceed]
          split
          · exact h
          · next s' hs =>
              exact (h.setPeerStatus PeerStatus.noConfusion PeerStatus.noConfusion hs).start trivial

/-- **What goes on in the inviting node keeps it honest.** -/
theorem step (hS : S.Fits) (h : s.Honest S drawn confirms) {event : Event}
    (hi : World.internal event) (hs : s.step S.host event = some s') :
    s'.Honest S ((World.draws event).toList ++ drawn) confirms := by
  have hmono := h.mono (List.subset_append_right (World.draws event).toList drawn) fun _ _ h => h
  cases event with
  | resume task ephemeral nonce =>
      obtain ⟨hmem, ⟨⟩⟩ := Option.ite_none_right_eq_some.mp hs
      refine (hmono.done task).proceed hS (hmono.tasks task hmem) fun hd => ?_
      exact List.mem_append_left _ (Option.mem_toList.mpr hd)
  | expirePairingWindows =>
      cases hs
      exact hmono.start trivial
  | wait now =>
      obtain ⟨-, ⟨⟩⟩ := Option.ite_none_right_eq_some.mp hs
      exact { hmono with entry := hmono.entry }
  | sweep =>
      cases hs
      exact { hmono with
        exchanges := fun i x hx => hmono.exchanges i x (Option.filter_eq_some_iff.mp hx).1 }
  | restart =>
      cases hs
      exact { hmono with exchanges := nofun, tasks := nofun }
  | _ => cases hi

theorem handlePairInit (h : s.Honest S drawn confirms) {request : ℕ} {body : PairInitBody}
    (hfrom : body.from = S.joiner.nodeId) (hbody : ∃ b ∈ drawn, body.e = S.host.crypto.publicKey b) :
    (s.handlePairInit S.host request body S.context).Honest S drawn confirms := by
  unfold Node.handlePairInit
  split
  · exact h.answer trivial
  · split
    · exact h.answer trivial
    · refine h.start ⟨Setup.context_client S, hfrom, hbody, fun p hp => ?_⟩
      obtain ⟨e, hpeers, he⟩ := h.entry
      have hmem := (List.mem_filter.mp (List.mem_of_mem_take hp)).1
      rw [hpeers, List.mem_singleton] at hmem
      rw [hmem, he.id]

theorem handlePairConfirm (h : s.Honest S drawn confirms) {request : ℕ} {body : PairConfirmBody}
    (hbody : confirms request body.mac) :
    (s.handlePairConfirm request body S.context).Honest S drawn confirms := by
  unfold Node.handlePairConfirm
  split
  · exact h.answer trivial
  · next x hx =>
      split_ifs with hexp htls hmac
      · exact (h.forget _).answer trivial
      · exact h.answer trivial
      · exact (h.forget _).start trivial
      · rw [Classical.not_not] at hmac
        exact h.start ⟨(h.exchanges _ _ hx).1, hmac ▸ hbody, .inl rfl⟩

end Node.Honest

/-! ### The joining node and the network -/

namespace Setup
variable (S : Setup)

/-- What the joining node begins an exchange with. -/
def initOf (key : ℕ) (salt nonce : Bytes) : PairInit where
  «from» := S.joiner.nodeId
  name := S.joiner.nodeName
  addr := S.announced
  salt := salt
  e := S.joiner.crypto.publicKey key
  n := nonce
  tls := match S.joiner.pin, S.target with
    | some client, some target => some ⟨client, target.pin⟩
    | _, _ => none

def psk (salt : Bytes) : Bytes := derivePairingPsk S.joiner.crypto S.join.secret salt

def initBody (key : ℕ) (salt nonce : Bytes) : PairInitBody :=
  let init := S.initOf key salt nonce
  ⟨if S.target.isSome then TLS_PROTOCOL_VERSION else PROTOCOL_VERSION, init.from, init.name, init.addr,
    init.salt, init.e, init.n, pairInitMac S.joiner.crypto (S.psk salt) init⟩

/-- What it opens a session with. -/
def sessionInitOf (key : ℕ) (nonce : Bytes) : SessionInit where
  «from» := S.joiner.nodeId
  «to» := S.host.nodeId
  e := S.joiner.crypto.publicKey key
  n := nonce
  tls := match S.joiner.pin, S.target with
    | some client, some target => some ⟨client, target.pin⟩
    | _, _ => none

def sessionBody (linkKey : Bytes) (key : ℕ) (nonce : Bytes) : SessionInitBody :=
  let init := S.sessionInitOf key nonce
  ⟨if init.tls.isSome then TLS_PROTOCOL_VERSION else PROTOCOL_VERSION, init.from, init.to, init.e, init.n,
    sessionInitMac S.joiner.crypto linkKey init⟩

end Setup

/-- An exchange with the inviting node, its proof checked. -/
structure StoredHandshake.Honest (S : Setup) (drawn : List ℕ) (half : StoredHandshake) : Prop where
  peer : half.peerNodeId = S.host.nodeId
  tls : half.tls = S.target
  made : Made S.host.crypto drawn half.linkKey half.confirm

structure Sent.Honest (S : Setup) (drawn : List ℕ) (verified : List StoredHandshake) (sent : Sent) :
    Prop where
  context : sent.context = S.context
  server : sent.server = S.target.map (·.pin)
  init : ∀ body, sent.request = .init body →
    body.from = S.joiner.nodeId ∧ ∃ b ∈ drawn, body.e = S.host.crypto.publicKey b
  confirm : ∀ body, sent.request = .confirm body →
    body.from = S.joiner.nodeId ∧ ∃ half ∈ verified, half.confirm = body.mac

/-- The joining node's entry is as it was created, apart from what an attempt leaves. -/
def Setup.Fresh (S : Setup) (e : ClusterPeer) : Prop :=
  e = { S.join.row 0 with pairingState := e.pairingState, pairingFailures := e.pairingFailures }

namespace World
variable {w w' : World}

/-- A request was sent under this number. -/
def Posted (w : World) (request : ℕ) (r : Request) : Prop :=
  ∃ sent ∈ w.requests, sent.id = request ∧ sent.request = r

def Confirms (S : Setup) (w : World) (request : ℕ) (confirm : Bytes) : Prop :=
  w.Posted request (.confirm ⟨S.joiner.nodeId, confirm⟩)

/-- The process waits for the answer to what it has sent. -/
def PhaseHonest (S : Setup) (w : World) : Phase → Prop
  | .idle => True
  | .init request peer init psk key =>
      key ∈ w.drawn ∧ S.Fresh peer ∧ ∃ salt nonce, init = S.initOf key salt nonce ∧ psk = S.psk salt ∧
        w.Posted request (.init (S.initBody key salt nonce))
  | .confirm request stored => stored ∈ w.verified ∧ w.Confirms S request stored.confirm
  | .session request stored init key =>
      stored ∈ w.verified ∧ ∃ nonce, init = S.sessionInitOf key nonce ∧
        w.Posted request (.session (S.sessionBody stored.linkKey key nonce))

/-- The inviting node has stored this key for the joining one, in an exchange whose proof each has
checked. -/
def Agreed (S : Setup) (w : World) (linkKey : Bytes) : Prop :=
  ∃ x ∈ w.host.activations, x.nodeId = S.joiner.nodeId ∧ x.linkKey = linkKey ∧
    ∃ half ∈ w.verified, half.confirm = x.confirm ∧ half.linkKey = linkKey

/-- A peer in memory is the joining node, with a key that was stored for it. -/
structure RuntimeHonest (S : Setup) (links : List Activation) (r : PeerRuntime) : Prop where
  nodeId : r.nodeId = S.joiner.nodeId
  key : ∃ x ∈ links, x.linkKey = r.linkKey
  pin : S.client.isSome → r.pin = S.client
  plain : S.client = none → r.tlsLocked = false

structure Inv (S : Setup) (w : World) : Prop where
  ids : ∀ sent ∈ w.requests, sent.id < w.nextRequest
  unique : ∀ sent ∈ w.requests, ∀ sent' ∈ w.requests, sent.id = sent'.id → sent = sent'
  sent : ∀ sent ∈ w.requests, sent.Honest S w.drawn w.verified
  verified : ∀ half ∈ w.verified, half.Honest S w.drawn
  host : w.host.Honest S w.drawn (w.Confirms S)
  runtime : ∀ r, w.runtime = some r → RuntimeHonest S w.host.activations r
  entry : w.entry.status = .pending → S.Fresh w.entry
  stored : ∀ stored, readStoredHandshake w.entry = some stored → stored ∈ w.verified
  phase : w.PhaseHonest S w.phase
  link : ∀ k, w.entry.linkKey = some k → w.Agreed S k

end World

section
variable {e : ClusterPeer} (he : S.Fresh e)
include he

theorem Setup.Fresh.target : channelTargetOf e = S.target := by
  rw [he]
  rfl

theorem Setup.Fresh.nodeId (hS : S.Fits) : e.nodeId = S.join.nodeId := by
  rw [he]
  exact if_pos hS.join

theorem Setup.Fresh.state (state : Option PairingState) : S.Fresh { e with pairingState := state } := by
  unfold Setup.Fresh
  rw [he]

end

theorem ClusterPeer.failed_cases (env : Env) (e : ClusterPeer) :
    e.failed env = { e with pairingFailures := e.pairingFailures + 1 }.withStatus .locked ∨
      e.failed env = { e with pairingFailures := e.pairingFailures + 1 } := by
  by_cases h : e.status = .pending ∧ env.pairingMaxFailures ≤ e.pairingFailures + 1
  · exact .inl (if_pos h)
  · exact .inr (if_neg h)

namespace World
variable {w w' : World} {ephemeral : ℕ} {salt nonce : Bytes} {stored : StoredHandshake}

/-- What `initiate` sends. -/
theorem initiate_eq (hS : S.Fits) (he : S.Fresh w.entry) :
    w.initiate S ephemeral salt nonce = match readStoredHandshake w.entry with
      | some stored => w.confirmStep S stored
      | none => w.post S S.target (.init (S.initBody ephemeral salt nonce))
          (.init · w.entry (S.initOf ephemeral salt nonce) (S.psk salt) ephemeral) := by
  have hways : ¬ (S.target.isSome ∧ (S.ways.isNone ∨ S.joiner.pin.isNone)) := by
    rintro ⟨ht, hnone⟩
    obtain ⟨hw, hp⟩ := hS.channel ht
    rcases hnone with hn | hn
    · rw [Option.isNone_iff_eq_none.mp hn] at hw
      cases hw
    · rw [Option.isNone_iff_eq_none.mp hn] at hp
      cases hp
  have hplain : ¬ (S.target.isNone ∧ w.entry.tlsRequired) := by
    rintro ⟨ht, hreq⟩
    have hreq : S.join.tlsRequired = true := by rw [he] at hreq; exact hreq
    have hsome := hS.required (.inr hreq)
    rw [Option.isNone_iff_eq_none.mp ht] at hsome
    cases hsome
  have hcalled : ¬ (S.joiner.usableAddress false (S.target.elim w.entry.address (·.url))).isNone := by
    have haddr : w.entry.address = S.join.address := by rw [he]; rfl
    rw [haddr, Option.isNone_iff_eq_none, ← ne_eq, ← Option.isSome_iff_ne_none]
    exact hS.called
  have hsecret : w.entry.pairingSecret = some S.join.secret := by rw [he]; rfl
  have hannounced : (if S.target.isSome then S.ways.getD "" else S.advertised) ≠ "" := hS.announced_ne
  simp only [initiate, he.target, if_neg hways, if_neg hplain, if_neg hcalled, if_neg hannounced, hsecret]
  rfl

/-- What `openSession` sends. -/
theorem openSession_eq (hS : S.Fits) {drawn : List ℕ} (h : stored.Honest S drawn) :
    w.openSession S stored ephemeral nonce =
      w.post S S.target (.session (S.sessionBody stored.linkKey ephemeral nonce))
        (.session · stored (S.sessionInitOf ephemeral nonce) ephemeral) := by
  have hpin : ¬ (S.target.isSome ∧ S.joiner.pin.isNone) := by
    rintro ⟨ht, hnone⟩
    have hp := (hS.channel ht).2
    rw [Option.isNone_iff_eq_none.mp hnone] at hp
    cases hp
  simp only [openSession, h.tls, h.peer, if_neg hpin]
  rfl

/-! ### What the joining node does -/

theorem Posted.mono (hr : w.requests ⊆ w'.requests) {request : ℕ} {r : Request}
    (h : w.Posted request r) : w'.Posted request r := by
  obtain ⟨sent, hmem, heq⟩ := h
  exact ⟨sent, hr hmem, heq⟩

theorem PhaseHonest.mono (hr : w.requests ⊆ w'.requests) (hd : w.drawn ⊆ w'.drawn)
    (hv : w.verified ⊆ w'.verified) {phase : Phase} (h : w.PhaseHonest S phase) :
    w'.PhaseHonest S phase := by
  cases phase with
  | idle => trivial
  | init request peer init psk key =>
      obtain ⟨hkey, hpeer, salt, nonce, hinit, hpsk, hp⟩ := h
      exact ⟨hd hkey, hpeer, salt, nonce, hinit, hpsk, hp.mono hr⟩
  | confirm request stored => exact ⟨hv h.1, Posted.mono hr h.2⟩
  | session request stored init key =>
      obtain ⟨hstored, nonce, hinit, hp⟩ := h
      exact ⟨hv hstored, nonce, hinit, hp.mono hr⟩

theorem Agreed.mono {k : Bytes} (hl : w.host.activations ⊆ w'.host.activations)
    (hv : w.verified ⊆ w'.verified) (h : w.Agreed S k) : w'.Agreed S k := by
  obtain ⟨x, hx, hnode, hkey, half, hhalf, rest⟩ := h
  exact ⟨x, hl hx, hnode, hkey, half, hv hhalf, rest⟩

theorem StoredHonest.mono {drawn drawn' : List ℕ} (h : stored.Honest S drawn) (hd : drawn ⊆ drawn') :
    stored.Honest S drawn' :=
  { h with made := h.made.mono hd }

theorem SentHonest.mono {drawn drawn' : List ℕ} {verified verified' : List StoredHandshake} {sent : Sent}
    (h : sent.Honest S drawn verified) (hd : drawn ⊆ drawn') (hv : verified ⊆ verified') :
    sent.Honest S drawn' verified' where
  context := h.context
  server := h.server
  init body hb := by
    obtain ⟨hfrom, b, hmem, he⟩ := h.init body hb
    exact ⟨hfrom, b, hd hmem, he⟩
  confirm body hb := by
    obtain ⟨hfrom, half, hmem, heq⟩ := h.confirm body hb
    exact ⟨hfrom, half, hv hmem, heq⟩

namespace Inv
variable (h : w.Inv S)
include h

/-- Private keys are drawn. -/
theorem draw (drawn : List ℕ) : { w with drawn := drawn ++ w.drawn }.Inv S where
  ids := h.ids
  unique := h.unique
  sent sent hs := SentHonest.mono (h.sent sent hs) (List.subset_append_right _ _) fun _ h => h
  verified half hh := StoredHonest.mono (h.verified half hh) (List.subset_append_right _ _)
  host := h.host.mono (List.subset_append_right _ _) fun _ _ h => h
  runtime := h.runtime
  entry := h.entry
  stored := h.stored
  phase := by
    refine PhaseHonest.mono ?_ ?_ ?_ h.phase
    exacts [fun _ h => h, List.subset_append_right _ _, fun _ h => h]
  link := h.link

theorem idle : w.idle.Inv S where
  __ := h
  phase := trivial

/-- The entry is written without a new link or exchange. -/
theorem write {e : ClusterPeer} (hpend : e.status = .pending → S.Fresh e)
    (hst : ∀ stored, readStoredHandshake e = some stored → stored ∈ w.verified)
    (hlink : ∀ k, e.linkKey = some k → w.Agreed S k) : { w with entry := e }.Inv S where
  __ := h
  entry := hpend
  stored := hst
  link := hlink

/-- A request is sent, and its answer waited for. -/
theorem post {request : Request} {phase : ℕ → Phase}
    (hinit : ∀ body, request = .init body →
      body.from = S.joiner.nodeId ∧ ∃ b ∈ w.drawn, body.e = S.host.crypto.publicKey b)
    (hconfirm : ∀ body, request = .confirm body →
      body.from = S.joiner.nodeId ∧ ∃ half ∈ w.verified, half.confirm = body.mac)
    (hphase : (w.post S S.target request phase).PhaseHonest S (phase w.nextRequest)) :
    (w.post S S.target request phase).Inv S := by
  have hsub : w.requests ⊆ (w.post S S.target request phase).requests := List.subset_cons_self _ _
  refine
    { ids := List.forall_mem_cons.mpr ⟨Nat.lt_succ_self _, fun sent hs => Nat.lt_succ_of_lt (h.ids sent hs)⟩
      unique := ?_
      sent := List.forall_mem_cons.mpr ⟨⟨rfl, rfl, hinit, hconfirm⟩, h.sent⟩
      verified := h.verified
      host := h.host.mono (fun _ h => h) fun _ _ hc => Posted.mono hsub hc
      runtime := h.runtime
      entry := h.entry
      stored := h.stored
      phase := hphase
      link := h.link }
  intro sent hs sent' hs' hid
  rcases List.mem_cons.mp hs with rfl | hs <;> rcases List.mem_cons.mp hs' with rfl | hs'
  · rfl
  · exact absurd hid (Nat.ne_of_gt (h.ids _ hs'))
  · exact absurd hid (Nat.ne_of_lt (h.ids _ hs))
  · exact h.unique _ hs _ hs' hid

theorem confirmStep (hstored : stored ∈ w.verified) : (w.confirmStep S stored).Inv S := by
  have hhalf := h.verified stored hstored
  rw [World.confirmStep, hhalf.tls]
  refine h.post nofun (fun body hb => ?_) ⟨hstored, _, List.mem_cons_self, rfl, rfl⟩
  obtain rfl := Request.confirm.inj hb
  exact ⟨rfl, stored, hstored, rfl⟩

theorem openSession (hS : S.Fits) (hstored : stored ∈ w.verified) :
    (w.openSession S stored ephemeral nonce).Inv S := by
  rw [openSession_eq hS (h.verified stored hstored)]
  exact h.post nofun nofun ⟨hstored, nonce, rfl, _, List.mem_cons_self, rfl, rfl⟩

theorem startOver : w.startOver.Inv S :=
  h.idle.write (fun hp => (h.entry hp).state none) nofun h.link

theorem finish (hagreed : w.Agreed S stored.linkKey) : (w.finish stored).Inv S := by
  refine h.idle.write (e := w.entry.activated _ _ _ _ _) nofun nofun fun k hk => ?_
  rw [← Option.some_inj.mp hk]
  exact hagreed

theorem failed : { w.idle with entry := w.entry.failed S.joiner }.Inv S := by
  rcases ClusterPeer.failed_cases S.joiner w.entry with heq | heq
  · rw [heq]
    exact h.idle.write nofun nofun h.link
  · rw [heq]
    refine h.idle.write (fun hp => ?_) h.stored h.link
    have hfresh := h.entry hp
    unfold Setup.Fresh at hfresh ⊢
    rw [hfresh]

/-- The answer to a confirmation comes from an exchange with this key. -/
theorem agreed_of_ok (hS : S.Fits) {request : ℕ} (hstored : stored ∈ w.verified)
    (hp : w.Confirms S request stored.confirm)
    (ha : Answer.ok.Honest S w.drawn (w.Confirms S) w.host.activations request) :
    w.Agreed S stored.linkKey := by
  obtain ⟨confirm, ⟨sent, hmem, hid, hreq⟩, x, hx, hxc⟩ := ha
  obtain ⟨sent', hmem', hid', hreq'⟩ := hp
  obtain rfl := h.unique _ hmem _ hmem' (hid.trans hid'.symm)
  have hc : confirm = stored.confirm :=
    congrArg PairConfirmBody.mac (Request.confirm.inj (hreq.symm.trans hreq'))
  have hact := h.host.activations x hx
  have hkey := Made.link_eq hS.ideal (hxc.trans hc ▸ hact.made) (h.verified stored hstored).made
  exact ⟨x, hx, hact.nodeId, hkey, stored, hstored, (hxc.trans hc).symm, rfl⟩

/-- Before a link is stored for the joining node, that has checked the exchange it is from. -/
theorem proved (hS : S.Fits) {x : Activation} (hx : x ∈ w.host.activations) :
    ∃ half ∈ w.verified, half.confirm = x.confirm ∧ half.linkKey = x.linkKey := by
  have hact := h.host.activations x hx
  obtain ⟨_, sent, hmem, -, hreq⟩ := hact.confirmed
  obtain ⟨-, half, hhalf, hconf⟩ := (h.sent sent hmem).confirm _ hreq
  have hconf : half.confirm = x.confirm := hconf
  exact ⟨half, hhalf, hconf, Made.link_eq hS.ideal (hconf ▸ (h.verified half hhalf).made) hact.made⟩

/-- Whoever proves to know the key has stored it. -/
theorem agreed_of_opens (hS : S.Fits) {request : ℕ} {init : SessionInit} {key : ℕ} {answer : Answer}
    (ho : opens S stored init key answer)
    (ha : answer.Honest S w.drawn (w.Confirms S) w.host.activations request) :
    w.Agreed S stored.linkKey := by
  cases answer with
  | session accept mac =>
      obtain ⟨x, hx, init', hmac⟩ := ha
      simp only [opens, Bool.and_eq_true, decide_eq_true_eq, hS.crypto] at ho
      have hkey := (hS.ideal.hkdf_inj (hS.ideal.hmac_inj (hmac.symm.trans ho.1)).1).1
      obtain ⟨half, hhalf, hconf, heq⟩ := h.proved hS hx
      exact ⟨x, hx, (h.host.activations x hx).nodeId, hkey, half, hhalf, hconf, heq.trans hkey⟩
  | _ => cases ho

theorem accepted (hS : S.Fits) {peer : ClusterPeer} {init : PairInit} {psk mac : Bytes} {key : ℕ}
    {accept : PairAccept} (hkey : key ∈ w.drawn) (hpeer : S.Fresh peer)
    (hid : accept.id = S.host.nodeId) (he : ∃ a ∈ w.drawn, accept.e = S.host.crypto.publicKey a) :
    (w.accepted S peer init psk key accept mac).Inv S := by
  unfold World.accepted
  split
  · exact h.idle
  · split
    · exact h.failed
    · split
      · exact h.idle
      · next shared hshared =>
          simp only
          split
          · exact h.failed
          · obtain ⟨a, ha, hae⟩ := he
            rw [hS.crypto, hae] at hshared
            refine confirmStep ?_ List.mem_cons_self
            have hsub {half : StoredHandshake} : w.verified ⊆ half :: w.verified :=
              List.subset_cons_self _ _
            exact
              { ids := h.ids
                unique := h.unique
                sent := fun sent hs => SentHonest.mono (h.sent sent hs) (fun _ h => h) hsub
                verified := List.forall_mem_cons.mpr
                  ⟨⟨hid, hpeer.target, by rw [hS.crypto]; exact pairKeys_made hkey ha hshared⟩, h.verified⟩
                host := h.host
                runtime := h.runtime
                entry := fun hp => (h.entry hp).state _
                stored := fun st hst => by
                  obtain rfl := Option.some_inj.mp hst
                  exact List.mem_cons_self
                phase := by
                  refine PhaseHonest.mono ?_ ?_ ?_ h.phase
                  exacts [fun _ h => h, fun _ h => h, hsub]
                link := fun k hk => by
                  refine Agreed.mono ?_ ?_ (h.link k hk)
                  exacts [fun _ h => h, hsub] }

/-- **An answer.** -/
theorem answered (hS : S.Fits) {answer : ℕ × Answer} (ha : answer ∈ w.host.answers)
    (hw : w.awaits = some answer.1) : (w.answered S ephemeral nonce answer.2).Inv S := by
  have hhonest := h.host.answers answer ha
  have hphase := h.phase
  unfold World.awaits at hw
  unfold World.answered
  split
  · exact h
  · next heq =>
      rw [heq] at hphase
      obtain ⟨hkey, hpeer, -⟩ := hphase
      split
      · next hacc =>
          rw [hacc] at hhonest
          exact h.accepted hS hkey hpeer hhonest.1 hhonest.2
      · split
        · exact h.failed
        · exact h.idle
      · exact h.idle
  · next heq =>
      rw [heq] at hphase hw
      obtain ⟨hstored, hconf⟩ := hphase
      split
      · next hok =>
          rw [hok, ← Option.some_inj.mp hw] at hhonest
          exact h.finish (h.agreed_of_ok hS hstored hconf hhonest)
      · split
        · exact h.openSession hS hstored
        · exact h.idle
      · exact h.idle
  · split
    · next ho => exact h.finish (h.agreed_of_opens hS ho hhonest)
    · exact h.startOver

theorem sessionMac {body : SessionInitBody} {context : ChannelContext} {sid : Bytes} :
    (w.handleSession S body context ephemeral sid nonce).Honest S w.drawn (w.Confirms S)
      w.host.activations request := by
  unfold handleSession
  split
  · trivial
  · next peer hpeer =>
      split
      · trivial
      · simp only
        split_ifs
        · trivial
        · trivial
        · obtain ⟨x, hx, hkey⟩ := (h.runtime peer (Option.filter_eq_some_iff.mp hpeer).1).key
          exact ⟨x, hx, _, by rw [hkey]⟩

/-- The inviting node goes on. -/
theorem setHost {host : Node} {runtime : Option PeerRuntime}
    (hh : host.Honest S w.drawn (w.Confirms S)) (hl : w.host.activations ⊆ host.activations)
    (hr : ∀ r, runtime = some r → RuntimeHonest S host.activations r) :
    { w with host := host, runtime := runtime }.Inv S where
  __ := h
  host := hh
  runtime := hr
  link k hk := by
    refine Agreed.mono ?_ ?_ (h.link k hk)
    exacts [hl, fun _ h => h]

/-- **A request that arrives.** -/
theorem handle {sent : Sent} {sid : Bytes} (hs : sent ∈ w.requests) :
    (w.handle S sent ephemeral sid nonce).Inv S := by
  have hsent := h.sent sent hs
  unfold World.handle
  rw [hsent.context]
  split
  · next body hreq =>
      obtain ⟨hfrom, hbody⟩ := hsent.init body hreq
      have hact : (w.host.handlePairInit S.host sent.id body S.context).activations = w.host.activations :=
        Node.pairInit_exchanges.2
      exact h.setHost (h.host.handlePairInit hfrom hbody) (hact ▸ fun _ h => h) (hact ▸ h.runtime)
  · next body hreq =>
      have hact : (w.host.handlePairConfirm sent.id body S.context).activations = w.host.activations :=
        Node.pairConfirm_exchanges.2
      have hconf : w.Confirms S sent.id body.mac := by
        obtain ⟨hfrom, -⟩ := hsent.confirm body hreq
        exact ⟨sent, hs, rfl, by rw [hreq, ← hfrom]⟩
      exact h.setHost (h.host.handlePairConfirm hconf) (hact ▸ fun _ h => h) (hact ▸ h.runtime)
  · exact h.setHost (h.host.answer h.sessionMac) (fun _ h => h) h.runtime

end Inv

/-- Only links that were stored are taken into use. -/
theorem runtimeHonest {links : List Activation} {e : ClusterPeer} (he : S.Holds links e)
    {r : PeerRuntime} (hr : loadPeerRuntime S.host e = some r) : RuntimeHonest S links r := by
  obtain ⟨⟨hactive, -⟩, hr⟩ := Option.ite_none_right_eq_some.mp hr
  split at hr
  · next nodeId linkKey hnode hkey =>
      obtain rfl := Option.some_inj.mp hr
      refine ⟨?_, he.key linkKey hkey, he.pin hactive, he.plain⟩
      exact Option.some_inj.mp (hnode.symm.trans (he.nodeId hactive))
  · cases hr

namespace Inv
variable (h : w.Inv S)
include h

theorem loaded {host : Node} (hh : host.Honest S drawn confirms)
    (hl : w.host.activations ⊆ host.activations) {event : Event} {r : PeerRuntime}
    (hr : w.loaded S host event = some r) : RuntimeHonest S host.activations r := by
  have hold (hr : w.runtime = some r) : RuntimeHonest S host.activations r := by
    obtain ⟨hnode, ⟨x, hx, hkey⟩, hpin, hplain⟩ := h.runtime r hr
    exact ⟨hnode, ⟨x, hl hx, hkey⟩, hpin, hplain⟩
  obtain ⟨e, hp, he⟩ := hh.entry
  unfold World.loaded at hr
  split at hr
  · split at hr
    · next peer hpeer =>
        have hmem := List.mem_of_find?_eq_some hpeer
        rw [hp, List.mem_singleton] at hmem
        exact runtimeHonest (hmem ▸ he) hr
    · exact hold hr
  · obtain ⟨peer, hmem, hr⟩ := List.exists_of_findSome?_eq_some hr
    rw [hp, List.mem_singleton] at hmem
    exact runtimeHonest (hmem ▸ he) hr
  · exact hold hr

/-- **A move keeps the invariant.** -/
theorem step (hS : S.Fits) {move : Move} (hs : Pairing.step S w move = some w') : w'.Inv S := by
  cases move with
  | pairingTick ephemeral salt nonce =>
      obtain ⟨⟨-, -, hopen, -⟩, ⟨⟩⟩ := Option.ite_none_right_eq_some.mp hs
      have hfresh := h.entry (Node.openWindow_pending hopen)
      have hd := h.draw [ephemeral]
      have heq : { w.initiate S ephemeral salt nonce with drawn := ephemeral :: w.drawn } =
          { w with drawn := ephemeral :: w.drawn }.initiate S ephemeral salt nonce := by
        rw [initiate_eq hS hfresh, initiate_eq (w := { w with drawn := ephemeral :: w.drawn }) hS hfresh]
        cases readStoredHandshake w.entry <;> rfl
      rw [heq, initiate_eq (w := { w with drawn := ephemeral :: w.drawn }) hS hfresh]
      split
      · next stored hst => exact hd.confirmStep (hd.stored stored hst)
      · refine hd.post (fun body hb => ?_) nofun
          ⟨List.mem_cons_self, hfresh, salt, nonce, rfl, rfl, _, List.mem_cons_self, rfl, rfl⟩
        obtain rfl := Request.init.inj hb
        exact ⟨rfl, ephemeral, List.mem_cons_self, by rw [← hS.crypto]; rfl⟩
  | deliver sent ephemeral sid nonce =>
      obtain ⟨⟨hmem, -⟩, ⟨⟩⟩ := Option.ite_none_right_eq_some.mp hs
      exact h.handle hmem
  | host event =>
      obtain ⟨⟨hi, -⟩, hs⟩ := Option.ite_none_right_eq_some.mp hs
      obtain ⟨host, hstep, rfl⟩ := Option.map_eq_some_iff.mp hs
      have hl : w.host.activations ⊆ host.activations := by
        rcases Node.step_activations hstep with heq | ⟨_, _, ha⟩
        · rw [heq]
          exact fun _ h => h
        · rw [ha.activations]
          exact List.subset_cons_self _ _
      have hhost := h.host.step hS hi hstep
      exact (h.draw (World.draws event).toList).setHost hhost hl fun r hr => h.loaded hhost hl hr
  | answer answer ephemeral nonce =>
      obtain ⟨⟨hmem, hw⟩, ⟨⟩⟩ := Option.ite_none_right_eq_some.mp hs
      exact h.answered hS hmem hw
  | giveUp =>
      obtain ⟨-, ⟨⟩⟩ := Option.ite_none_right_eq_some.mp hs
      unfold World.giveUp
      split
      · exact h.startOver
      · exact h.idle
  | findExpired =>
      obtain ⟨-, ⟨⟩⟩ := Option.ite_none_right_eq_some.mp hs
      exact { h with phase := h.phase }
  | expire =>
      obtain ⟨-, ⟨⟩⟩ := Option.ite_none_right_eq_some.mp hs
      have hw := h.write (e := w.entry.withStatus .expired) nofun nofun h.link
      exact { hw with phase := hw.phase }
  | wait now =>
      obtain ⟨-, ⟨⟩⟩ := Option.ite_none_right_eq_some.mp hs
      exact { h with phase := h.phase }
  | restart =>
      cases hs
      exact { h with phase := trivial }

end Inv

theorem inv_start (hostNow now : ℕ) : (S.start hostNow now).Inv S where
  ids := nofun
  unique := nofun
  sent := nofun
  verified := nofun
  host :=
    { entry := ⟨S.invite.row 0, rfl,
        { id := rfl
          offer := fun _ => rfl
          unused := fun _ => rfl
          plain := fun _ => rfl
          key := nofun
          nodeId := nofun
          linked := nofun
          pin := nofun
          address := nofun }⟩
      exchanges := nofun
      tasks := nofun
      answers := nofun
      activations := nofun }
  runtime := nofun
  entry _ := rfl
  stored stored hst := by
    simp only [Setup.start, readStoredHandshake, PendingPeer.row] at hst
    cases hexp : S.join.expect <;> rw [hexp] at hst <;> cases hst
  phase := trivial
  link := nofun

/-- **The joining node's link key is one the inviting node has stored for it**, in an exchange whose
proof each has checked, in every state of every run. -/
theorem run_inv (hS : S.Fits) {hostNow now : ℕ} {moves : List Move}
    (hrun : run (Pairing.step S) (S.start hostNow now) moves = some w) : w.Inv S :=
  run_invariant (fun _ _ _ h hs => Inv.step h hS hs) (inv_start hostNow now) hrun

end World

def nodeA : Env := ⟨.free, "A", "north", some "pin of A", 5, fun _ address => if address = "" then none else some address⟩

def nodeB : Env := { nodeA with nodeId := "B", nodeName := "south", pin := some "pin of B" }

/-- Two nodes, the channel of each with its certificate. -/
def twoNodes : Setup where
  host := nodeA
  joiner := nodeB
  invite := ⟨.host, "", "south", "key", none, none, 1000, none, none, true⟩
  join := ⟨.join, "https://a", "north", "key", some "A", none, 1000, some "tls://a", some "pin of A", true⟩
  ways := some "tls://b"
  advertised := "https://b"
  pathWays := false

theorem twoNodes_fits : twoNodes.Fits where
  crypto := rfl
  ideal := Primitives.free_ideal
  apart := by decide
  host := rfl
  join := rfl
  secret := rfl
  named := .inr rfl
  expected := .inl rfl
  channel _ := ⟨rfl, rfl⟩
  server := by
    intro target htarget
    cases htarget
    rfl
  required _ := rfl
  pinned := .inl rfl
  announced_ne := by decide
  usable := rfl
  called := rfl
  again := by
    intro overChannel addr url h
    obtain ⟨hne, heq⟩ := Option.ite_none_left_eq_some.mp h
    cases heq
    simp [twoNodes, nodeA, hne]

namespace World

/-- The request that was sent last arrives. -/
def delivered (w : World) : Move := .deliver (w.requests.headD ⟨0, .confirm ⟨"", []⟩, .plain, none⟩) 0 [] []

/-- The inviting node goes on with what it works on. -/
def resumed (ephemeral : ℕ) (w : World) : Move := .host (.resume (w.host.tasks.headD (.expiring [])) ephemeral [])

/-- Its last answer arrives. -/
def returned (w : World) : Move := .answer (w.host.answers.headD (0, .ok)) 0 []

/-- The moves of a run, each chosen in the state it is made in. -/
def paced (S : Setup) : World → List (World → Move) → List Move
  | _, [] => []
  | w, choose :: rest => choose w :: (step S w (choose w)).elim [] fun w' => paced S w' rest

end World

def exchangeMoves : List Move :=
  World.paced twoNodes (twoNodes.start 0 0)
    [fun _ => .pairingTick 1 [7] [8], World.delivered, World.resumed 2, World.returned, World.delivered,
      World.resumed 0, World.resumed 0, World.resumed 0, World.resumed 0, World.returned]

end Pokyh.Cluster.Pairing

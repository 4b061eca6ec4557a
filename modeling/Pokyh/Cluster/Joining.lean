import Pokyh.Cluster.Pairing

/-!
# Cluster — Joining

A node that joins another one (`finish`, `confirmStep`, `initiate` and `pairingTick` of `pairing.ts`,
with the session handshake it recovers through), together with the node that invited it and the network
between them.  What was sent may arrive late, more than once or never; who waits for an answer that does
not come gives up; either process restarts at any moment.

* `step`: one move of the two nodes or of the network.
-/

namespace Pokyh.Cluster.Pairing
open Pokyh.Lib

/-! ### Opening a session -/

structure SessionInit where
  «from» : String
  «to» : String
  e : Bytes
  n : Bytes
  tls : Option ChannelBinding
  deriving DecidableEq, Repr

def sessionInitTranscript (init : SessionInit) : Bytes :=
  let version := if init.tls.isSome then "3" else "2"
  encodeFields ([utf8 "session-init", utf8 version, utf8 init.from, utf8 init.to, init.e, init.n] ++
    (bindingFields init.tls).map utf8)

def sessionFullTranscript (P : Primitives) (init : SessionInit) (accept : SessionAccept) : Bytes :=
  P.sha256 (sessionInitTranscript init ++
    encodeFields [utf8 "session-accept", accept.sid, accept.e, accept.n])

def sessionInitMac (P : Primitives) (linkKey : Bytes) (init : SessionInit) : Bytes :=
  P.hmac (P.hkdf linkKey init.n "session/init-mac") (sessionInitTranscript init)

def sessionAcceptMac (P : Primitives) (linkKey : Bytes) (init : SessionInit)
    (accept : SessionAccept) : Bytes :=
  P.hmac (P.hkdf linkKey accept.n "session/accept-mac") (sessionFullTranscript P init accept)

structure SessionInitBody where
  v : ℕ
  «from» : String
  «to» : String
  e : Bytes
  n : Bytes
  mac : Bytes
  deriving DecidableEq, Repr

/-- A peer as it is loaded into memory. -/
structure PeerRuntime where
  nodeId : String
  linkKey : Bytes
  /-- The pin of its certificate. -/
  pin : Option String
  tlsLocked : Bool
  deriving DecidableEq, Repr

def loadPeerRuntime (env : Env) (row : ClusterPeer) : Option PeerRuntime :=
  if row.status = .active ∧ (env.usableAddress false row.address).isSome then
    match row.nodeId, row.linkKey with
    | some nodeId, some linkKey => some ⟨nodeId, linkKey, row.certPin, row.tlsLocked⟩
    | _, _ => none
  else none

/-! ### The two nodes -/

/-- The inviting node, the joining one, and the two halves of the invite. -/
structure Setup where
  host : Env
  joiner : Env
  invite : PendingPeer
  join : PendingPeer
  /-- The ways to reach the joining node's channel, while that is up. -/
  ways : Option String
  /-- Where the joining node is reached otherwise. -/
  advertised : String
  /-- The inviting node offers a way through its web proxy. -/
  pathWays : Bool

inductive Request where
  | init (body : PairInitBody)
  | confirm (body : PairConfirmBody)
  | session (body : SessionInitBody)
  deriving DecidableEq, Repr

/-- A request under way. -/
structure Sent where
  id : ℕ
  request : Request
  context : ChannelContext
  /-- The pin the other end has to present. -/
  server : Option String
  deriving DecidableEq, Repr

/-- Where the joining node's process stands with its entry. -/
inductive Phase where
  | idle
  | init (request : ℕ) (peer : ClusterPeer) (init : PairInit) (psk : Bytes) (ephemeral : ℕ)
  | confirm (request : ℕ) (stored : StoredHandshake)
  | session (request : ℕ) (stored : StoredHandshake) (init : SessionInit) (ephemeral : ℕ)
  deriving DecidableEq, Repr

structure World where
  host : Node
  /-- The joining node, as the inviting one has it in memory. -/
  runtime : Option PeerRuntime
  /-- The joining node's clock and its entry. -/
  now : ℕ
  entry : ClusterPeer
  /-- Its process has found the entry's window to be over, and is about to write so. -/
  expiring : Bool
  phase : Phase
  /-- The exchanges it has checked the other node's proof of. -/
  verified : List StoredHandshake
  /-- Everything it has sent. -/
  requests : List Sent
  nextRequest : ℕ
  /-- The private keys that were drawn. -/
  drawn : List ℕ

/-- The entry's channel, when it names one. -/
def channelTargetOf (peer : ClusterPeer) : Option PinnedTarget :=
  match peer.channelUrl, peer.certPin with
  | some url, some pin => some ⟨url, pin⟩
  | _, _ => none

def readStoredHandshake (peer : ClusterPeer) : Option StoredHandshake :=
  match peer.pairingState with
  | some (.exchange stored) => some stored
  | _ => none

/-- Counts a failure, and locks the entry when there were too many. -/
def ClusterPeer.failed (env : Env) (peer : ClusterPeer) : ClusterPeer :=
  let counted := { peer with pairingFailures := peer.pairingFailures + 1 }
  if peer.status = .pending ∧ env.pairingMaxFailures ≤ counted.pairingFailures then
    counted.withStatus .locked
  else counted

namespace World
variable (S : Setup)

/-! ### The joining node -/

def post (w : World) (target : Option PinnedTarget) (request : Request) (phase : ℕ → Phase) : World :=
  let context := match target with
    | some _ => .mtls S.joiner.pin
    | none => .plain
  { w with
    requests := ⟨w.nextRequest, request, context, target.map (·.pin)⟩ :: w.requests
    nextRequest := w.nextRequest + 1
    phase := phase w.nextRequest }

def idle (w : World) : World := { w with phase := .idle }

def finish (w : World) (stored : StoredHandshake) : World :=
  { w.idle with
    entry := w.entry.activated stored.peerNodeId stored.peerName (stored.tls.map (·.url))
      stored.linkKey stored.tls }

/-- The exchange is given up: the next attempt starts over. -/
def startOver (w : World) : World := { w.idle with entry := { w.entry with pairingState := none } }

def confirmStep (w : World) (stored : StoredHandshake) : World :=
  w.post S stored.tls (.confirm ⟨S.joiner.nodeId, stored.confirm⟩) (.confirm · stored)

/-- `openSession`, up to the answer. -/
def openSession (w : World) (stored : StoredHandshake) (ephemeral : ℕ) (nonce : Bytes) : World :=
  if stored.tls.isSome ∧ S.joiner.pin.isNone then w.startOver
  else
    let init : SessionInit :=
      { «from» := S.joiner.nodeId
        «to» := stored.peerNodeId
        e := S.joiner.crypto.publicKey ephemeral
        n := nonce
        tls := match S.joiner.pin, stored.tls with
          | some client, some target => some ⟨client, target.pin⟩
          | _, _ => none }
    let v := if init.tls.isSome then TLS_PROTOCOL_VERSION else PROTOCOL_VERSION
    w.post S stored.tls
      (.session ⟨v, init.from, init.to, init.e, init.n, sessionInitMac S.joiner.crypto stored.linkKey init⟩)
      (.session · stored init ephemeral)

def initiate (w : World) (ephemeral : ℕ) (salt nonce : Bytes) : World :=
  let peer := w.entry
  let target := channelTargetOf peer
  if target.isSome ∧ (S.ways.isNone ∨ S.joiner.pin.isNone) then w
  else if target.isNone ∧ peer.tlsRequired then w
  else if (S.joiner.usableAddress false (target.elim peer.address (·.url))).isNone then w
  else
    let ownAddress := if target.isSome then S.ways.getD "" else S.advertised
    if ownAddress = "" then w
    else match readStoredHandshake peer with
      | some stored => w.confirmStep S stored
      | none =>
          match peer.pairingSecret with
          | none => w
          | some secret =>
              let init : PairInit :=
                { «from» := S.joiner.nodeId
                  name := S.joiner.nodeName
                  addr := ownAddress
                  salt := salt
                  e := S.joiner.crypto.publicKey ephemeral
                  n := nonce
                  tls := match S.joiner.pin, target with
                    | some client, some target => some ⟨client, target.pin⟩
                    | _, _ => none }
              let psk := derivePairingPsk S.joiner.crypto secret salt
              let v := if target.isSome then TLS_PROTOCOL_VERSION else PROTOCOL_VERSION
              w.post S target
                (.init ⟨v, init.from, init.name, init.addr, init.salt, init.e, init.n,
                  pairInitMac S.joiner.crypto psk init⟩)
                (.init · peer init psk ephemeral)

/-- The rest of `initiate`, from an answer that accepts. -/
def accepted (w : World) (peer : ClusterPeer) (init : PairInit) (psk : Bytes) (ephemeral : ℕ)
    (accept : PairAccept) (mac : Bytes) : World :=
  if accept.id = S.joiner.nodeId then w.idle
  else if peer.nodeId.any (· ≠ accept.id) then { w.idle with entry := w.entry.failed S.joiner }
  else match S.joiner.crypto.sharedSecret ephemeral accept.e with
    | none => w.idle
    | some shared =>
        let keys := pairKeys S.joiner.crypto psk shared init accept
        if mac ≠ keys.confirmResponder then { w.idle with entry := w.entry.failed S.joiner }
        else
          let stored : StoredHandshake :=
            ⟨accept.id, accept.name, keys.linkKey, keys.confirmInitiator, channelTargetOf peer⟩
          -- Persisted before confirming.
          confirmStep S { w with
            entry := { w.entry with pairingState := some (.exchange stored) }
            verified := stored :: w.verified } stored

/-- The other end has proven that it knows the link key. -/
def opens (stored : StoredHandshake) (init : SessionInit) (ephemeral : ℕ) : Answer → Bool
  | .session accept mac =>
      mac = sessionAcceptMac S.joiner.crypto stored.linkKey init accept &&
        (S.joiner.crypto.sharedSecret ephemeral accept.e).isSome
  | _ => false

/-- What the process does with an answer. -/
def answered (w : World) (ephemeral : ℕ) (nonce : Bytes) (answer : Answer) : World :=
  match w.phase with
  | .idle => w
  | .init _ peer init psk key =>
      match answer with
      | .accept accept mac => w.accepted S peer init psk key accept mac
      | .status code =>
          if code = 403 then { w.idle with entry := w.entry.failed S.joiner } else w.idle
      | _ => w.idle
  | .confirm _ stored =>
      match answer with
      | .ok => w.finish stored
      | .status code =>
          if code = 404 ∨ code = 403 then w.openSession S stored ephemeral nonce else w.idle
      | _ => w.idle
  | .session _ stored init key => if opens S stored init key answer then w.finish stored else w.startOver

/-- The call fails: its request or its answer is lost, or takes too long. -/
def giveUp (w : World) : World :=
  match w.phase with
  | .session .. => w.startOver
  | _ => w.idle

/-- The answer the process waits for. -/
def awaits (w : World) : Option ℕ :=
  match w.phase with
  | .idle => none
  | .init request .. | .confirm request _ | .session request .. => some request

/-! ### The inviting node -/

/-- `handleSession`, with the binding to the two certificates. -/
def sessionBinding (peer : PeerRuntime) (body : SessionInitBody) :
    ChannelContext → Except ℕ (Option ChannelBinding)
  | .mtls client =>
      match S.host.pin, client with
      | some own, some client =>
          if body.v = TLS_PROTOCOL_VERSION ∧ peer.pin = some client then .ok (some ⟨client, own⟩)
          else .error 403
      | _, _ => .error 403
  | .plain =>
      if body.v ≠ PROTOCOL_VERSION ∨ (peer.tlsLocked ∧ ¬ S.pathWays) then .error 403 else .ok none

def handleSession (w : World) (body : SessionInitBody) (context : ChannelContext) (ephemeral : ℕ)
    (sid nonce : Bytes) : Answer :=
  match w.runtime.filter fun peer => body.to = S.host.nodeId && peer.nodeId = body.from with
  | none => .status 404
  | some peer =>
      match sessionBinding S peer body context with
      | .error code => .status code
      | .ok tls =>
          let init : SessionInit := ⟨body.from, body.to, body.e, body.n, tls⟩
          if body.mac ≠ sessionInitMac S.host.crypto peer.linkKey init then .status 403
          else if (S.host.crypto.sharedSecret ephemeral body.e).isNone then .status 400
          else
            let accept : SessionAccept := ⟨sid, S.host.crypto.publicKey ephemeral, nonce⟩
            .session accept (sessionAcceptMac S.host.crypto peer.linkKey init accept)

/-- A request arrives. -/
def handle (w : World) (sent : Sent) (ephemeral : ℕ) (sid nonce : Bytes) : World :=
  match sent.request with
  | .init body => { w with host := w.host.handlePairInit S.host sent.id body sent.context }
  | .confirm body => { w with host := w.host.handlePairConfirm sent.id body sent.context }
  | .session body =>
      { w with host := w.host.answer sent.id (w.handleSession S body sent.context ephemeral sid nonce) }

/-- The peer in memory after an event: a new link is taken into use, and active links are loaded when
the process starts. -/
def loaded (w : World) (host : Node) : Event → Option PeerRuntime
  | .resume (.activating _ row) _ _ =>
      match host.peer row with
      | some peer => loadPeerRuntime S.host peer
      | none => w.runtime
  | .restart => host.peers.findSome? (loadPeerRuntime S.host)
  | _ => w.runtime

/-- The private key an event draws. -/
def draws : Event → Option ℕ
  | .resume (.deriveKeys ..) ephemeral _ => some ephemeral
  | _ => none

/-- What goes on in the inviting node between requests, with nobody at its administration and a database
that answers. -/
def internal : Event → Bool
  | .resume .. | .expirePairingWindows | .wait _ | .sweep | .restart => true
  | _ => false

end World

inductive Move where
  | pairingTick (ephemeral : ℕ) (salt nonce : Bytes)
  /-- A request reaches the inviting node, for the first time or again. -/
  | deliver (sent : Sent) (ephemeral : ℕ) (sid nonce : Bytes)
  | host (event : Event)
  | answer (answer : ℕ × Answer) (ephemeral : ℕ) (nonce : Bytes)
  | giveUp
  /-- The joining node's own windows: one that is over is found, and ended. -/
  | findExpired
  | expire
  | wait (now : ℕ)
  | restart
  deriving DecidableEq, Repr

open World in
def step (S : Setup) (w : World) : Move → Option World
  | .pairingTick ephemeral salt nonce =>
      if w.phase = .idle ∧ w.entry.role = .join ∧ openWindow w.now w.entry ∧ ephemeral ∉ w.drawn then
        some { w.initiate S ephemeral salt nonce with drawn := ephemeral :: w.drawn }
      else none
  | .deliver sent ephemeral sid nonce =>
      if sent ∈ w.requests ∧ (sent.server = none ∨ sent.server = S.host.pin) then
        some (w.handle S sent ephemeral sid nonce)
      else none
  | .host event =>
      if internal event ∧ ∀ ephemeral ∈ draws event, ephemeral ∉ w.drawn then
        (w.host.step S.host event).map fun host =>
          { w with
            host := host
            runtime := w.loaded S host event
            drawn := (draws event).toList ++ w.drawn }
      else none
  | .answer answer ephemeral nonce =>
      if answer ∈ w.host.answers ∧ w.awaits = some answer.1 then
        some (w.answered S ephemeral nonce answer.2)
      else none
  | .giveUp => if w.awaits.isSome then some w.giveUp else none
  | .findExpired =>
      if w.entry.status = .pending ∧ w.entry.pairingExpiresAt.any (· < w.now) then
        some { w with expiring := true }
      else none
  | .expire =>
      if w.expiring then some { w with entry := w.entry.withStatus .expired, expiring := false }
      else none
  | .wait now => if w.now ≤ now then some { w with now } else none
  | .restart => some { w.idle with expiring := false }

/-- Both entries are new, and nothing has happened yet. -/
def Setup.start (S : Setup) (hostNow now : ℕ) : World where
  host := ⟨hostNow, [S.invite.row 0], 1, fun _ => none, [], [], []⟩
  runtime := none
  now := now
  entry := S.join.row 0
  expiring := false
  phase := .idle
  verified := []
  requests := []
  nextRequest := 0
  drawn := []

end Pokyh.Cluster.Pairing

import Mathlib.Data.List.Nodup
import Mathlib.Logic.Function.Basic
import Pokyh.Lib.Primitives
import Pokyh.Lib.Runs

/-!
# Cluster — Pairing

A node that has invited others (`handlePairInit` and `handlePairConfirm` of `pairing.ts`, with
`store.ts`): its table of peers, the exchanges it holds in memory, and the requests it is working on,
each from one wait to the next.  Requests come from anybody, in any order and any number of times;
between them windows expire, entries are locked, switched off, removed and created, calls to the
database fail, and the process restarts.

* `Node.step`: one event.
* `step_peers`: what one event does to an entry.
-/

namespace Pokyh.Cluster.Pairing
open Pokyh.Lib

/-! ### Entries -/

inductive Role where
  | host | join
  deriving DecidableEq, Repr

inductive PeerStatus where
  | pending | active | disabled | expired | locked | removed
  deriving DecidableEq, Repr

/-- A node's mutually authenticated channel: where it is reached, and the pin of its certificate. -/
structure PinnedTarget where
  url : String
  pin : String
  deriving DecidableEq, Repr

/-- What a joining node keeps of an exchange until it is confirmed. -/
structure StoredHandshake where
  peerNodeId : String
  peerName : String
  linkKey : Bytes
  confirm : Bytes
  /-- The other node's channel, when the exchange ran there. -/
  tls : Option PinnedTarget
  deriving DecidableEq, Repr

/-- `pairingStateEnc`: whom an entry is meant for, or the exchange it has to confirm. -/
inductive PairingState where
  | expect (node : String)
  | exchange (stored : StoredHandshake)
  deriving DecidableEq, Repr

structure ClusterPeer where
  id : ℕ
  nodeId : Option String
  name : String
  address : String
  status : PeerStatus
  role : Role
  linkKey : Option Bytes
  pairingSecret : Option String
  pairingState : Option PairingState
  pairingExpiresAt : Option ℕ
  pairingFailures : ℕ
  channelUrl : Option String
  certPin : Option String
  tlsLocked : Bool
  tlsRequired : Bool
  deriving DecidableEq, Repr

def openWindow (now : ℕ) (peer : ClusterPeer) : Bool :=
  peer.status = .pending && peer.pairingSecret.isSome &&
    match peer.pairingExpiresAt with
    | none => true
    | some expiresAt => now < expiresAt

def expectedNodeOf (peer : ClusterPeer) : Option String :=
  match peer.role, peer.pairingState with
  | .host, some (.expect node) => some node
  | _, _ => none

/-! ### The exchange -/

def PROTOCOL_VERSION : ℕ := 2
def TLS_PROTOCOL_VERSION : ℕ := 3
def HANDSHAKE_TTL_MS : ℕ := 2 * 60 * 1000
def MAX_CANDIDATES : ℕ := 8

/-- The pins of the client's and the server's certificate. -/
structure ChannelBinding where
  client : String
  server : String
  deriving DecidableEq, Repr

structure PairInit where
  «from» : String
  name : String
  addr : String
  salt : Bytes
  e : Bytes
  n : Bytes
  tls : Option ChannelBinding
  deriving DecidableEq, Repr

structure PairAccept where
  id : String
  name : String
  e : Bytes
  n : Bytes
  deriving DecidableEq, Repr

structure PairKeys where
  confirmInitiator : Bytes
  confirmResponder : Bytes
  linkKey : Bytes
  deriving DecidableEq, Repr

def bindingFields : Option ChannelBinding → List String
  | some tls => ["tls", tls.client, tls.server]
  | none => []

section
variable (P : Primitives)

def derivePairingPsk (pairingKey : String) (salt : Bytes) : Bytes :=
  P.scrypt (utf8 (P.normalize pairingKey)) salt

def pairInitTranscript (init : PairInit) : Bytes :=
  let version := if init.tls.isSome then "3" else "2"
  encodeFields ([utf8 "pair-init", utf8 version, utf8 init.from, utf8 init.name,
    utf8 init.addr, init.salt, init.e, init.n] ++ (bindingFields init.tls).map utf8)

def pairInitMac (psk : Bytes) (init : PairInit) : Bytes :=
  P.hmac (P.hkdf psk init.salt "pair/init-mac") (pairInitTranscript init)

def pairKeys (psk shared : Bytes) (init : PairInit) (accept : PairAccept) : PairKeys :=
  let transcript := P.sha256 (pairInitTranscript init ++
    encodeFields [utf8 "pair-accept", utf8 accept.id, utf8 accept.name, accept.e, accept.n])
  let master := P.hkdf shared psk "pair/master"
  { confirmInitiator := P.hmac (P.hkdf master transcript "pair/confirm-initiator") transcript
    confirmResponder := P.hmac (P.hkdf master transcript "pair/confirm-responder") transcript
    linkKey := P.hkdf master transcript "pair/link-key" }

end

/-! ### The node and the requests it works on -/

/-- How the node is set up. -/
structure Env where
  crypto : Primitives
  nodeId : String
  nodeName : String
  /-- The pin of its certificate. -/
  pin : Option String
  pairingMaxFailures : ℕ
  /-- The address in what a joining node announces (a list of ways over the channel), if it can be
  used. -/
  usableAddress : (overChannel : Bool) → String → Option String

/-- How a request came in. -/
inductive ChannelContext where
  | plain
  | mtls (client : Option String)
  deriving DecidableEq, Repr

/-- The pin of the certificate a request was presented with. -/
def ChannelContext.client : ChannelContext → Option String
  | .plain => none
  | .mtls client => client

structure PairInitBody where
  v : ℕ
  «from» : String
  name : String
  addr : String
  salt : Bytes
  e : Bytes
  n : Bytes
  mac : Bytes
  deriving DecidableEq, Repr

structure PairConfirmBody where
  «from» : String
  mac : Bytes
  deriving DecidableEq, Repr

structure ResponderHandshake where
  peerRowId : ℕ
  initiatorId : String
  initiatorName : String
  initiatorAddress : String
  linkKey : Bytes
  confirmInitiator : Bytes
  expiresAt : ℕ
  /-- The initiator's channel, when the exchange runs there: the first way it announced. -/
  tls : Option PinnedTarget
  deriving DecidableEq, Repr

structure SessionAccept where
  sid : Bytes
  e : Bytes
  n : Bytes
  deriving DecidableEq, Repr

inductive Answer where
  | status (code : ℕ)
  | accept (accept : PairAccept) (mac : Bytes)
  | ok
  | session (accept : SessionAccept) (mac : Bytes)
  deriving DecidableEq, Repr

/-- What the process is in the middle of. -/
inductive Task where
  /-- Deriving keys for the windows that were open. -/
  | deriveKeys (request : ℕ) (body : PairInitBody) (client : Option String)
      (candidates : List ClusterPeer)
  /-- Noting a failure for each of these entries; `locking` when the first has had too many. -/
  | rejecting (request : ℕ) (rows : List ℕ) (locking : Bool)
  /-- Storing a link, once the other entries of that node are listed and deleted. -/
  | storing (request : ℕ) (handshake : ResponderHandshake) (others : Option (List ℕ))
  | stored (request : ℕ) (handshake : ResponderHandshake)
  /-- Taking the new link into use. -/
  | activating (request : ℕ) (row : ℕ)
  /-- Ending the windows that had expired. -/
  | expiring (rows : List ℕ)
  deriving DecidableEq, Repr

/-- A link that was stored by a confirmation. -/
structure Activation where
  row : ℕ
  nodeId : String
  linkKey : Bytes
  confirm : Bytes
  /-- The entry was still pending, within its window. -/
  inWindow : Bool
  deriving DecidableEq, Repr

structure Node where
  now : ℕ
  peers : List ClusterPeer
  /-- Row ids are fresh from here on. -/
  nextId : ℕ
  responderHandshakes : String → Option ResponderHandshake
  tasks : List Task
  answers : List (ℕ × Answer)
  /-- The links stored by confirmations, the latest first. -/
  activations : List Activation

/-- What an entry is created with. -/
structure PendingPeer where
  role : Role
  address : String
  name : String
  secret : String
  nodeId : Option String
  /-- The node a HOST entry is meant for, when an introduction named it. -/
  expect : Option String
  expiresAt : ℕ
  channelUrl : Option String
  certPin : Option String
  tlsRequired : Bool
  deriving DecidableEq, Repr

def PendingPeer.row (input : PendingPeer) (id : ℕ) : ClusterPeer where
  id := id
  role := input.role
  address := input.address
  name := input.name
  -- A HOST entry learns the node id when the other node proves the key.
  nodeId := if input.role = .join then input.nodeId else none
  status := .pending
  linkKey := none
  pairingSecret := some input.secret
  pairingState := input.expect.map .expect
  pairingExpiresAt := some input.expiresAt
  pairingFailures := 0
  channelUrl := input.channelUrl
  certPin := input.certPin
  tlsLocked := false
  tlsRequired := input.tlsRequired

namespace ClusterPeer

def withStatus (status : PeerStatus) (peer : ClusterPeer) : ClusterPeer :=
  if status = .active then { peer with status }
  else { peer with status, pairingSecret := none, pairingState := none, pairingExpiresAt := none }

/-- `activatePeer`: the link is stored, what the pairing needed is wiped. -/
def activated (nodeId name : String) (address : Option String) (linkKey : Bytes)
    (tls : Option PinnedTarget) (peer : ClusterPeer) : ClusterPeer :=
  { peer with
    nodeId := some nodeId
    name := if peer.name = "" then name else peer.name
    address := address.getD peer.address
    status := .active
    linkKey := some linkKey
    pairingSecret := none
    pairingState := none
    pairingExpiresAt := none
    pairingFailures := 0
    channelUrl := (tls.map (·.url)).or peer.channelUrl
    certPin := (tls.map (·.pin)).or peer.certPin
    tlsLocked := peer.tlsLocked || tls.isSome
    tlsRequired := peer.tlsRequired && tls.isNone }

end ClusterPeer

namespace Node

def peer (s : Node) (id : ℕ) : Option ClusterPeer := s.peers.find? (·.id = id)

def modify (s : Node) (id : ℕ) (f : ClusterPeer → ClusterPeer) : Node :=
  { s with peers := s.peers.map fun p => if p.id = id then f p else p }

def start (s : Node) (task : Task) : Node := { s with tasks := task :: s.tasks }

def answer (s : Node) (request : ℕ) (answer : Answer) : Node :=
  { s with answers := (request, answer) :: s.answers }

def forget (s : Node) (initiator : String) : Node :=
  { s with responderHandshakes := Function.update s.responderHandshakes initiator none }

/-- The write fails where the entry is gone. -/
def setPeerStatus (s : Node) (id : ℕ) (status : PeerStatus) : Option Node :=
  (s.peer id).map fun _ => s.modify id (·.withStatus status)

def deletePeer (s : Node) (id : ℕ) : Node := { s with peers := s.peers.filter (·.id ≠ id) }

/-- Fails where the entry is gone, or another one holds the node id. -/
def activatePeer (s : Node) (id : ℕ) (nodeId name : String) (address : Option String)
    (linkKey : Bytes) (tls : Option PinnedTarget) : Option Node :=
  if (s.peer id).isSome ∧ ∀ p ∈ s.peers, p.nodeId = some nodeId → p.id = id then
    some (s.modify id (·.activated nodeId name address linkKey tls))
  else none

end Node

/-! ### The handlers -/

/-- The windows an initiator may use. -/
def candidatesFor (now : ℕ) (body : PairInitBody) (client : Option String)
    (peers : List ClusterPeer) : List ClusterPeer :=
  (peers.filter fun peer =>
    peer.role = .host && openWindow now peer &&
    (expectedNodeOf peer = none || expectedNodeOf peer = some body.from) &&
    (client.isSome || !peer.tlsRequired) &&
    (peer.certPin = none || client = peer.certPin)).take MAX_CANDIDATES

/-- What the initiator's proof covers, as this node sees it. -/
def initOf (env : Env) (body : PairInitBody) (client : Option String) : PairInit where
  «from» := body.from
  name := body.name
  addr := body.addr
  salt := body.salt
  e := body.e
  n := body.n
  tls := match client, env.pin with
    | some client, some server => some ⟨client, server⟩
    | _, _ => none

/-- The window whose secret the initiator has proven to know. -/
def matchCandidate (env : Env) (body : PairInitBody) (client : Option String)
    (candidates : List ClusterPeer) : Option (ClusterPeer × Bytes) :=
  candidates.findSome? fun peer => peer.pairingSecret.bind fun secret =>
    let psk := derivePairingPsk env.crypto secret body.salt
    if body.mac = pairInitMac env.crypto psk (initOf env body client) then some (peer, psk) else none

/-- The exchange with an initiator that has proven to know the secret. -/
def beginExchange (env : Env) (now : ℕ) (body : PairInitBody) (client : Option String)
    (peer : ClusterPeer) (psk : Bytes) (ephemeral : ℕ) (nonce : Bytes) :
    Except ℕ (ResponderHandshake × PairAccept × Bytes) :=
  if body.from = env.nodeId then .error 409
  else match env.usableAddress client.isSome body.addr with
    | none => .error 422
    | some address =>
        let accept : PairAccept := ⟨env.nodeId, env.nodeName, env.crypto.publicKey ephemeral, nonce⟩
        match env.crypto.sharedSecret ephemeral body.e with
        | none => .error 400
        | some shared =>
            let keys := pairKeys env.crypto psk shared (initOf env body client) accept
            .ok ({ peerRowId := peer.id
                   initiatorId := body.from
                   initiatorName := body.name
                   initiatorAddress := address
                   linkKey := keys.linkKey
                   confirmInitiator := keys.confirmInitiator
                   expiresAt := now + HANDSHAKE_TTL_MS
                   tls := client.map fun pin => ⟨address, pin⟩ }, accept, keys.confirmResponder)

/-- A request that does not fit the way it came in. -/
def misplaced (env : Env) (body : PairInitBody) : ChannelContext → Bool
  | .mtls client => body.v ≠ TLS_PROTOCOL_VERSION || client.isNone || env.pin.isNone
  | .plain => body.v ≠ PROTOCOL_VERSION

namespace Node

/-- `handlePairInit`, up to the derivation of the keys. -/
def handlePairInit (s : Node) (env : Env) (request : ℕ) (body : PairInitBody)
    (context : ChannelContext) : Node :=
  if misplaced env body context then s.answer request (.status 400)
  else match candidatesFor s.now body context.client s.peers with
    | [] => s.answer request (.status 404)
    | candidates => s.start (.deriveKeys request body context.client candidates)

/-- The exchange a confirmation completes. -/
def accepts (s : Node) (body : PairConfirmBody) (context : ChannelContext) :
    Option ResponderHandshake :=
  (s.responderHandshakes body.from).filter fun handshake =>
    !decide (handshake.expiresAt < s.now) && handshake.tls.map (·.pin) = context.client &&
      body.mac = handshake.confirmInitiator

/-- `handlePairConfirm`, up to its first call to the database. -/
def handlePairConfirm (s : Node) (request : ℕ) (body : PairConfirmBody)
    (context : ChannelContext) : Node :=
  match s.responderHandshakes body.from with
  | none => s.answer request (.status 404)
  | some handshake =>
      if handshake.expiresAt < s.now then (s.forget body.from).answer request (.status 404)
      else if handshake.tls.map (·.pin) ≠ context.client then s.answer request (.status 403)
      else if body.mac ≠ handshake.confirmInitiator then
        (s.forget body.from).start (.rejecting request [handshake.peerRowId] false)
      else s.start (.storing request handshake none)

/-- `notePairingFailure` for the first of the rows, up to the lock. -/
def notePairingFailure (s : Node) (env : Env) (request : ℕ) (id : ℕ) (rows : List ℕ) : Node :=
  match s.peer id with
  | none => s.start (.rejecting request rows false)
  | some peer =>
      let s := s.modify id fun p => { p with pairingFailures := p.pairingFailures + 1 }
      if peer.status = .pending ∧ env.pairingMaxFailures ≤ peer.pairingFailures + 1 then
        s.start (.rejecting request (id :: rows) true)
      else s.start (.rejecting request rows false)

/-- The link of an exchange is stored, or the handler fails. -/
def storeLink (s : Node) (request : ℕ) (handshake : ResponderHandshake) : Node :=
  match s.activatePeer handshake.peerRowId handshake.initiatorId handshake.initiatorName
      (some handshake.initiatorAddress) handshake.linkKey handshake.tls with
  | none => s.answer request (.status 500)
  | some s' =>
      { s'.start (.stored request handshake) with
        activations := ⟨handshake.peerRowId, handshake.initiatorId, handshake.linkKey,
          handshake.confirmInitiator,
          (s.peer handshake.peerRowId).any (openWindow s.now)⟩ :: s.activations }

/-- What a task does until it waits again, with the random values it draws. -/
def proceed (s : Node) (env : Env) (ephemeral : ℕ) (nonce : Bytes) : Task → Node
  | .deriveKeys request body client candidates =>
      match matchCandidate env body client candidates with
      | none => s.start (.rejecting request (candidates.map (·.id)) false)
      | some (peer, psk) =>
          match beginExchange env s.now body client peer psk ephemeral nonce with
          | .error code => s.answer request (.status code)
          | .ok (handshake, accept, mac) =>
              { s.answer request (.accept accept mac) with
                responderHandshakes :=
                  Function.update s.responderHandshakes body.from (some handshake) }
  | .rejecting request [] _ => s.answer request (.status 403)
  | .rejecting request (id :: rows) false => s.notePairingFailure env request id rows
  | .rejecting request (id :: rows) true =>
      match s.setPeerStatus id .locked with
      | none => s.answer request (.status 500)
      | some s' => s'.start (.rejecting request rows false)
  | .storing request handshake none =>
      s.start (.storing request handshake (some ((s.peers.filter fun p =>
        p.nodeId = some handshake.initiatorId ∧ p.id ≠ handshake.peerRowId).map (·.id))))
  | .storing request handshake (some (id :: others)) =>
      (s.deletePeer id).start (.storing request handshake (some others))
  | .storing request handshake (some []) => s.storeLink request handshake
  | .stored request handshake =>
      (s.forget handshake.initiatorId).start (.activating request handshake.peerRowId)
  | .activating request _ => s.answer request .ok
  | .expiring [] => s
  | .expiring (id :: rows) =>
      match s.setPeerStatus id .expired with
      | none => s
      | some s' => s'.start (.expiring rows)

end Node

/-- The request a task answers. -/
def Task.request : Task → Option ℕ
  | .deriveKeys request .. | .rejecting request .. | .storing request .. | .stored request _
  | .activating request _ => some request
  | .expiring _ => none

inductive Event where
  | pairInit (request : ℕ) (body : PairInitBody) (context : ChannelContext)
  | pairConfirm (request : ℕ) (body : PairConfirmBody) (context : ChannelContext)
  | resume (task : Task) (ephemeral : ℕ) (nonce : Bytes)
  /-- A call to the database gives up. -/
  | fail (task : Task)
  | expirePairingWindows
  /-- An entry is switched off or on, removed, or locked. -/
  | setPeerStatus (id : ℕ) (status : PeerStatus)
  | forgetPairing (id : ℕ)
  | deletePeer (id : ℕ)
  | createPendingPeer (input : PendingPeer)
  /-- This node has joined another one. -/
  | joined (id : ℕ) (nodeId name : String) (linkKey : Bytes) (tls : Option PinnedTarget)
  | wait (now : ℕ)
  /-- `pairingTick`: exchanges that have expired are dropped. -/
  | sweep
  | restart
  deriving DecidableEq, Repr

namespace Node

def done (s : Node) (task : Task) : Node := { s with tasks := s.tasks.erase task }

def step (env : Env) (s : Node) : Event → Option Node
  | .pairInit request body context => some (s.handlePairInit env request body context)
  | .pairConfirm request body context => some (s.handlePairConfirm request body context)
  | .resume task ephemeral nonce =>
      if task ∈ s.tasks then some ((s.done task).proceed env ephemeral nonce task) else none
  | .fail task =>
      if task ∈ s.tasks then
        some (match task.request with
          | some request => (s.done task).answer request (.status 500)
          | none => s.done task)
      else none
  | .expirePairingWindows =>
      some (s.start (.expiring ((s.peers.filter fun p =>
        p.status = .pending && p.pairingExpiresAt.any (· < s.now)).map (·.id))))
  | .setPeerStatus id status =>
      if status = .pending ∨ (status = .active ∧ (s.peer id).any (·.status = .pending)) then none
      else s.setPeerStatus id status
  | .forgetPairing id =>
      some { s with responderHandshakes := fun initiator =>
        (s.responderHandshakes initiator).filter fun h => h.peerRowId ≠ id }
  | .deletePeer id => some (s.deletePeer id)
  | .createPendingPeer input =>
      some { s with peers := s.peers ++ [input.row s.nextId], nextId := s.nextId + 1 }
  | .joined id nodeId name linkKey tls =>
      if ∃ p ∈ s.peers, p.id = id ∧ p.role = .join then
        s.activatePeer id nodeId name (tls.map (·.url)) linkKey tls
      else none
  | .wait now => if s.now ≤ now then some { s with now } else none
  | .sweep =>
      some { s with responderHandshakes := fun initiator =>
        (s.responderHandshakes initiator).filter fun h => !decide (h.expiresAt < s.now) }
  | .restart => some { s with responderHandshakes := fun _ => none, tasks := [] }

end Node

/-! ### What an event does to the entries -/

namespace Event

/-- The event may end the window of an entry that stays. -/
def ends (s : Node) : Event → ℕ → Bool
  | .resume (.storing _ handshake (some [])) _ _, id => handshake.peerRowId = id
  | .resume (.rejecting _ (row :: _) true) _ _, id => row = id
  | .resume (.expiring (row :: _)) _ _, id => row = id
  | .setPeerStatus row _, id => row = id
  | .joined row _ _ _ _, id => row = id
  | .wait now, id => s.peers.any fun p => p.id = id && openWindow s.now p && !openWindow now p
  | _, _ => false

/-- The event stores the link of a confirmed exchange in an entry. -/
def links : Event → ℕ → Prop
  | .resume (.storing _ handshake (some [])) _ _, id => handshake.peerRowId = id
  | _, _ => False

theorem stores_of_links {event : Event} {id : ℕ} (h : event.links id) :
    ∃ request handshake ephemeral nonce,
      event = .resume (.storing request handshake (some [])) ephemeral nonce ∧
        id = handshake.peerRowId := by
  simp only [links] at h
  split at h
  · exact ⟨_, _, _, _, rfl, h.symm⟩
  · cases h

end Event

/-- What may become of an entry whose window is or is not ended, and which is or is not given a
link. -/
structure ClusterPeer.Follows (ends links : Prop) (now now' : ℕ) (p p' : ClusterPeer) : Prop where
  id : p'.id = p.id
  role : p'.role = p.role
  pending : p'.status = .pending → p.status = .pending
  window : openWindow now p → ¬ ends → openWindow now' p'
  link : p.role = .host → ¬ links → p'.nodeId = p.nodeId ∧ p'.linkKey = p.linkKey

theorem ClusterPeer.Follows.rfl {ends links : Prop} {now : ℕ} {p : ClusterPeer} :
    p.Follows ends links now now p :=
  ⟨by rfl, by rfl, fun h => h, fun h _ => h, fun _ _ => ⟨by rfl, by rfl⟩⟩

namespace Node
variable {env : Env} {s s' : Node} {ends links : ℕ → Prop}

/-- Row ids tell the entries apart and have all been given out. -/
structure Keyed (s : Node) : Prop where
  nodup : (s.peers.map (·.id)).Nodup
  used : ∀ p ∈ s.peers, p.id < s.nextId

/-- Each entry is one there was before, or the only new one. -/
structure Follows (ends links : ℕ → Prop) (s s' : Node) : Prop where
  rows : ∀ p' ∈ s'.peers, (∃ p ∈ s.peers, p.Follows (ends p.id) (links p.id) s.now s'.now p') ∨
    (p'.id = s.nextId ∧ s'.nextId = s.nextId + 1)
  keys : ((s'.peers.map (·.id)).Sublist (s.peers.map (·.id)) ∧ s'.nextId = s.nextId) ∨
    (s'.peers.map (·.id) = s.peers.map (·.id) ++ [s.nextId] ∧ s'.nextId = s.nextId + 1)

theorem Follows.refl : Follows ends links s s :=
  ⟨fun p hp => .inl ⟨p, hp, .rfl⟩, .inl ⟨.refl _, rfl⟩⟩

/-- Only the clock, the entries and the next id count. -/
theorem Follows.through {t t' : Node} (h : Follows ends links t t')
    (hs : t.peers = s.peers ∧ t.now = s.now ∧ t.nextId = s.nextId)
    (hs' : s'.peers = t'.peers ∧ s'.now = t'.now ∧ s'.nextId = t'.nextId) : Follows ends links s s' := by
  obtain ⟨hrows, hkeys⟩ := h
  rw [hs.1, hs.2.1, hs.2.2, ← hs'.1, ← hs'.2.1, ← hs'.2.2] at hrows
  rw [hs.1, hs.2.2, ← hs'.1, ← hs'.2.2] at hkeys
  exact ⟨hrows, hkeys⟩

theorem Follows.of_eq (h : s'.peers = s.peers ∧ s'.now = s.now ∧ s'.nextId = s.nextId) :
    Follows ends links s s' :=
  Follows.refl.through ⟨rfl, rfl, rfl⟩ h

theorem Follows.modify {id : ℕ} {f : ClusterPeer → ClusterPeer}
    (hf : ∀ p ∈ s.peers, p.id = id → p.Follows (ends id) (links id) s.now s.now (f p)) :
    Follows ends links s (s.modify id f) := by
  have hrow : ∀ p ∈ s.peers, p.Follows (ends p.id) (links p.id) s.now s.now (if p.id = id then f p else p) := by
    intro p hp
    by_cases hid : p.id = id
    · rw [if_pos hid, hid]
      exact hf p hp hid
    · rw [if_neg hid]
      exact .rfl
  refine ⟨fun p' hmem => ?_, .inl ⟨?_, rfl⟩⟩
  · obtain ⟨p, hp, rfl⟩ := List.mem_map.mp hmem
    exact .inl ⟨p, hp, hrow p hp⟩
  · have hids : (s.modify id f).peers.map (·.id) = s.peers.map (·.id) := by
      rw [Node.modify, List.map_map]
      exact List.map_congr_left fun p hp => (hrow p hp).id
    rw [hids]

theorem Follows.deletePeer {id : ℕ} : Follows ends links s (s.deletePeer id) :=
  ⟨fun p hmem => .inl ⟨p, (List.mem_filter.mp hmem).1, .rfl⟩,
    .inl ⟨List.filter_sublist.map _, rfl⟩⟩

theorem Follows.keyed (h : Follows ends links s s') (hk : s.Keyed) : s'.Keyed := by
  refine ⟨?_, fun p hp => ?_⟩
  · rcases h.keys with ⟨hsub, -⟩ | ⟨heq, -⟩
    · exact hk.nodup.sublist hsub
    · rw [heq, List.nodup_append]
      refine ⟨hk.nodup, List.nodup_singleton _, fun a ha b hb => ?_⟩
      obtain ⟨p, hp, rfl⟩ := List.mem_map.mp ha
      rw [List.mem_singleton.mp hb]
      exact Nat.ne_of_lt (hk.used p hp)
  · have hnext : s.nextId ≤ s'.nextId := by
      rcases h.keys with ⟨-, hn⟩ | ⟨-, hn⟩ <;> omega
    rcases h.rows p hp with ⟨q, hq, hf⟩ | ⟨hid, hn⟩
    · rw [hf.id]
      exact Nat.lt_of_lt_of_le (hk.used q hq) hnext
    · omega

@[simp] theorem start_peers (s : Node) (task : Task) : (s.start task).peers = s.peers := rfl
@[simp] theorem start_now (s : Node) (task : Task) : (s.start task).now = s.now := rfl
@[simp] theorem start_tasks (s : Node) (task : Task) : (s.start task).tasks = task :: s.tasks := rfl
@[simp] theorem answer_peers (s : Node) (r : ℕ) (a : Answer) : (s.answer r a).peers = s.peers := rfl
@[simp] theorem answer_now (s : Node) (r : ℕ) (a : Answer) : (s.answer r a).now = s.now := rfl
@[simp] theorem answer_tasks (s : Node) (r : ℕ) (a : Answer) : (s.answer r a).tasks = s.tasks := rfl
@[simp] theorem forget_peers (s : Node) (i : String) : (s.forget i).peers = s.peers := rfl
@[simp] theorem forget_now (s : Node) (i : String) : (s.forget i).now = s.now := rfl
@[simp] theorem forget_tasks (s : Node) (i : String) : (s.forget i).tasks = s.tasks := rfl
@[simp] theorem done_peers (s : Node) (task : Task) : (s.done task).peers = s.peers := rfl
@[simp] theorem done_now (s : Node) (task : Task) : (s.done task).now = s.now := rfl
@[simp] theorem modify_tasks (s : Node) (id : ℕ) (f) : (s.modify id f).tasks = s.tasks := rfl

theorem peer_isSome_iff {id : ℕ} : (s.peer id).isSome ↔ ∃ p ∈ s.peers, p.id = id := by
  simp [peer]

theorem peer_eq_some (hk : s.Keyed) {id : ℕ} {p : ClusterPeer} :
    s.peer id = some p ↔ p ∈ s.peers ∧ p.id = id := by
  constructor
  · intro h
    exact ⟨List.mem_of_find?_eq_some h, by simpa using List.find?_some h⟩
  · rintro ⟨hp, rfl⟩
    obtain ⟨q, hq⟩ := Option.isSome_iff_exists.mp (peer_isSome_iff.mpr ⟨p, hp, rfl⟩)
    have hid : q.id = p.id := by simpa using List.find?_some hq
    rw [hq, List.inj_on_of_nodup_map hk.nodup (List.mem_of_find?_eq_some hq) hp hid]

theorem setPeerStatus_eq_some {id : ℕ} {status : PeerStatus} :
    s.setPeerStatus id status = some s' ↔ (s.peer id).isSome ∧ s' = s.modify id (·.withStatus status) := by
  simp only [setPeerStatus, Option.map_eq_some_iff, Option.isSome_iff_exists]
  exact ⟨fun ⟨p, hp, h⟩ => ⟨⟨p, hp⟩, h.symm⟩, fun ⟨⟨p, hp⟩, h⟩ => ⟨p, hp, h.symm⟩⟩

theorem setPeerStatus_follows {id : ℕ} {status : PeerStatus} (hends : ends id)
    (hstatus : status ≠ .pending) (h : s.setPeerStatus id status = some s') : Follows ends links s s' := by
  obtain ⟨-, rfl⟩ := setPeerStatus_eq_some.mp h
  refine .modify fun p _ _ => ?_
  by_cases hactive : status = .active
  · simp only [ClusterPeer.withStatus, if_pos hactive]
    exact ⟨rfl, rfl, fun h => absurd h hstatus, fun _ hne => absurd hends hne, fun _ _ => ⟨rfl, rfl⟩⟩
  · simp only [ClusterPeer.withStatus, if_neg hactive]
    exact ⟨rfl, rfl, fun h => absurd h hstatus, fun _ hne => absurd hends hne, fun _ _ => ⟨rfl, rfl⟩⟩

theorem activatePeer_eq_some {id : ℕ} {nodeId name : String} {address : Option String} {linkKey : Bytes}
    {tls : Option PinnedTarget} :
    s.activatePeer id nodeId name address linkKey tls = some s' ↔
      ((s.peer id).isSome ∧ ∀ p ∈ s.peers, p.nodeId = some nodeId → p.id = id) ∧
        s' = s.modify id (·.activated nodeId name address linkKey tls) := by
  rw [activatePeer, Option.ite_none_right_eq_some, Option.some.injEq, eq_comm (b := s')]

theorem activatePeer_follows {id : ℕ} {nodeId name : String} {address : Option String} {linkKey : Bytes}
    {tls : Option PinnedTarget} (hends : ends id) (hlinks : ∀ p ∈ s.peers, p.id = id → p.role = .host → links id)
    (h : s.activatePeer id nodeId name address linkKey tls = some s') : Follows ends links s s' := by
  obtain ⟨-, rfl⟩ := activatePeer_eq_some.mp h
  exact .modify fun p hp hid => ⟨rfl, rfl, nofun, fun _ hne => absurd hends hne,
    fun hrole hne => absurd (hlinks p hp hid hrole) hne⟩

theorem notePairingFailure_follows {request id : ℕ} {rows : List ℕ} :
    Follows ends links s (s.notePairingFailure env request id rows) := by
  have hcount : Follows ends links s
      (s.modify id fun p => { p with pairingFailures := p.pairingFailures + 1 }) :=
    .modify fun p _ _ => ⟨rfl, rfl, fun h => h, fun h _ => h, fun _ _ => ⟨rfl, rfl⟩⟩
  unfold notePairingFailure
  split
  · exact .of_eq ⟨rfl, rfl, rfl⟩
  · split <;> exact hcount.through ⟨rfl, rfl, rfl⟩ ⟨rfl, rfl, rfl⟩

theorem handlePairInit_peers {request : ℕ} {body : PairInitBody} {context : ChannelContext} :
    (s.handlePairInit env request body context).peers = s.peers ∧
      (s.handlePairInit env request body context).now = s.now ∧
      (s.handlePairInit env request body context).nextId = s.nextId := by
  unfold handlePairInit
  split
  · exact ⟨rfl, rfl, rfl⟩
  · split <;> exact ⟨rfl, rfl, rfl⟩

theorem handlePairConfirm_peers {request : ℕ} {body : PairConfirmBody} {context : ChannelContext} :
    (s.handlePairConfirm request body context).peers = s.peers ∧
      (s.handlePairConfirm request body context).now = s.now ∧
      (s.handlePairConfirm request body context).nextId = s.nextId := by
  unfold handlePairConfirm
  split
  · exact ⟨rfl, rfl, rfl⟩
  · split_ifs <;> exact ⟨rfl, rfl, rfl⟩

theorem proceed_follows {task : Task} {ephemeral : ℕ} {nonce : Bytes} :
    Follows (((Event.resume task ephemeral nonce).ends s) ·) (Event.resume task ephemeral nonce).links s
      ((s.done task).proceed env ephemeral nonce task) := by
  cases task with
  | deriveKeys request body client candidates =>
      simp only [proceed]
      split
      · exact .of_eq ⟨rfl, rfl, rfl⟩
      · split <;> exact .of_eq ⟨rfl, rfl, rfl⟩
  | rejecting request rows locking =>
      match rows, locking with
      | [], _ => exact .of_eq ⟨rfl, rfl, rfl⟩
      | id :: rows, false =>
          exact Follows.through (notePairingFailure_follows (s := s.done _)) ⟨rfl, rfl, rfl⟩ ⟨rfl, rfl, rfl⟩
      | id :: rows, true =>
          simp only [proceed]
          split
          · exact .of_eq ⟨rfl, rfl, rfl⟩
          · next s' hs =>
              exact Follows.through (setPeerStatus_follows (decide_eq_true rfl) PeerStatus.noConfusion hs)
                ⟨rfl, rfl, rfl⟩ ⟨rfl, rfl, rfl⟩
  | storing request handshake others =>
      match others with
      | none => exact .of_eq ⟨rfl, rfl, rfl⟩
      | some (id :: others) => exact Follows.through .deletePeer ⟨rfl, rfl, rfl⟩ ⟨rfl, rfl, rfl⟩
      | some [] =>
          simp only [proceed, storeLink]
          split
          · exact .of_eq ⟨rfl, rfl, rfl⟩
          · next s' hs =>
              exact Follows.through (activatePeer_follows (decide_eq_true rfl) (fun _ _ _ _ => rfl) hs)
                ⟨rfl, rfl, rfl⟩ ⟨rfl, rfl, rfl⟩
  | stored request handshake | activating request row => exact .of_eq ⟨rfl, rfl, rfl⟩
  | expiring rows =>
      match rows with
      | [] => exact .of_eq ⟨rfl, rfl, rfl⟩
      | id :: rows =>
          simp only [proceed]
          split
          · exact .of_eq ⟨rfl, rfl, rfl⟩
          · next s' hs =>
              exact Follows.through (setPeerStatus_follows (decide_eq_true rfl) PeerStatus.noConfusion hs)
                ⟨rfl, rfl, rfl⟩ ⟨rfl, rfl, rfl⟩

/-- **What an event does to the entries.** -/
theorem step_follows (hk : s.Keyed) {event : Event} (h : s.step env event = some s') :
    Follows (event.ends s ·) event.links s s' := by
  cases event with
  | pairInit request body context =>
      cases h
      exact .of_eq handlePairInit_peers
  | pairConfirm request body context =>
      cases h
      exact .of_eq handlePairConfirm_peers
  | resume task ephemeral nonce =>
      obtain ⟨-, ⟨⟩⟩ := Option.ite_none_right_eq_some.mp h
      exact proceed_follows
  | fail task =>
      obtain ⟨-, ⟨⟩⟩ := Option.ite_none_right_eq_some.mp h
      cases task <;> exact .of_eq ⟨rfl, rfl, rfl⟩
  | expirePairingWindows | forgetPairing _ | sweep | restart => cases h; exact .of_eq ⟨rfl, rfl, rfl⟩
  | setPeerStatus id status =>
      obtain ⟨hstatus, h⟩ := Option.ite_none_left_eq_some.mp h
      exact setPeerStatus_follows (decide_eq_true rfl) (fun hp => hstatus (.inl hp)) h
  | deletePeer id => cases h; exact .deletePeer
  | createPendingPeer input =>
      cases h
      refine ⟨fun p hp => ?_, .inr ⟨List.map_append, rfl⟩⟩
      rcases List.mem_append.mp hp with hp | hp
      · exact .inl ⟨p, hp, .rfl⟩
      · rw [List.mem_singleton.mp hp]
        exact .inr ⟨rfl, rfl⟩
  | joined id nodeId name linkKey tls =>
      obtain ⟨⟨p, hp, hid, hrole⟩, h⟩ := Option.ite_none_right_eq_some.mp h
      refine activatePeer_follows (decide_eq_true rfl) (fun q hq hid' hrole' => ?_) h
      rw [List.inj_on_of_nodup_map hk.nodup hq hp (hid'.trans hid.symm), hrole] at hrole'
      cases hrole'
  | wait now =>
      obtain ⟨-, ⟨⟩⟩ := Option.ite_none_right_eq_some.mp h
      refine ⟨fun p hp => .inl ⟨p, hp, rfl, rfl, fun h => h, fun hopen hne => ?_,
        fun _ _ => ⟨rfl, rfl⟩⟩, .inl ⟨.refl _, rfl⟩⟩
      exact by_contra fun hclosed => hne (List.any_eq_true.mpr ⟨p, hp, by simp [hopen, hclosed]⟩)

end Node

end Pokyh.Cluster.Pairing
